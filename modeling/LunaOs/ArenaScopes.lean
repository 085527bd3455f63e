import LunaOs.ArenaRun

/-! # Scopes of an arena

The counters of an arena tell the truth in every run of orderly calls: requests whose size plus the
cursor plus 7 stays in the word, resets while no checkpoint is outstanding, and restores that go back to
the newest checkpoint.  The checkpoint of a scope says of the blocks live at its save what the arena
says of the live blocks (`Tells`), and the live blocks of a scope are the oldest of those live now
(`Nested`); so a restore finds the stack of its save untouched below all later blocks. -/

namespace LunaOs

open CLayout Extents Runs

/-- The calls that nested scopes are about. -/
structure Orderly (c : ArenaClient) (op : ArenaOp) : Prop where
  request : ∀ n, c.requested op = some n → n + c.arena.cursor.toNat + 7 < 2 ^ 32
  reset : op = .reset → c.scopes = []

/-- What the counters of the arena say about the blocks of its client. -/
structure ScopesNest (p : ArenaPool) (c : ArenaClient) : Prop where
  aligned : c.arena.cursor.toNat % 8 = 0
  bounded : c.arena.cursor.toNat ≤ p.size.toNat / 8 * 8
  count : c.arena.allocCount.toNat = c.live.length % 2 ^ 32
  watermark_reached : c.arena.highWatermark ∈ c.reached
  watermark_max : ∀ r ∈ c.reached, r.toNat ≤ c.arena.highWatermark.toNat
  pct : (arenaWatermarkPct c.arena).toNat ≤ 100
  safe : ArenaSafe p c
  nested : ∀ s ∈ c.scopes, s.live <:+ c.live

/-- A call that fails changes `oom_count` and nothing else; the blocks that stay live keep their bytes;
a restore leaves the blocks that were live at the save. -/
structure CallExact (c : ArenaClient) (op : ArenaOp) (c' : ArenaClient) : Prop where
  failed : c.requested op ≠ none → c'.live = c.live → c' = c.moved c.arena.oom
  kept : ∀ b ∈ c.live, b ∈ c'.live → ∀ x : UInt32, b.span.Contains x.toNat →
    c'.mem.bytes x = c.mem.bytes x
  restored : op = .restore → ∀ s scopes, c.scopes = s :: scopes → c'.live = s.live

/-! ### The invariant -/

/-- A checkpoint is right for a list of blocks. -/
structure Tells (reached : List UInt32) (cp : ArenaCheckpoint) (live : List ArenaBlock) : Prop where
  aligned : cp.cursor.toNat % 8 = 0
  count : cp.allocCount.toNat = live.length % 2 ^ 32
  reached : cp.cursor ∈ reached

/-- Each scope has a part of the blocks of the next newer one. -/
def Nested : List ArenaScope → List ArenaBlock → Prop
  | [], _ => True
  | s :: scopes, live => s.live <:+ live ∧ Nested scopes s.live

/-- What holds between the checkpoints of a client and its live blocks. -/
structure NestInv (p : ArenaPool) (c : ArenaClient) : Prop where
  inv : ArenaInv p c
  tells : Tells c.reached (arenaSave c.arena) c.live
  scopes : ∀ s ∈ c.scopes, Tells c.reached s.checkpoint s.live
  nested : Nested c.scopes c.live
  watermark_reached : c.arena.highWatermark ∈ c.reached
  watermark_max : ∀ r ∈ c.reached, r.toNat ≤ c.arena.highWatermark.toNat
  reached_le : ∀ r ∈ c.reached, r.toNat ≤ p.size.toNat

section
variable {p : ArenaPool} {c c' : ArenaClient} {op : ArenaOp} {n : ℕ} {live live' : List ArenaBlock}
  {scopes : List ArenaScope} {cp : ArenaCheckpoint} {reached : List UInt32}

theorem Nested.mono (h : Nested scopes live) (hsuffix : live <:+ live') : Nested scopes live' := by
  cases scopes with
  | nil => trivial
  | cons s scopes => exact ⟨h.1.trans hsuffix, h.2⟩

theorem Nested.suffix (h : Nested scopes live) : ∀ s ∈ scopes, s.live <:+ live := by
  induction scopes generalizing live with
  | nil => simp
  | cons s scopes ih =>
      intro t ht
      rcases List.mem_cons.mp ht with rfl | ht
      · exact h.1
      · exact (ih h.2 t ht).trans h.1

theorem Tells.cons (h : Tells reached cp live) (r : UInt32) : Tells (r :: reached) cp live :=
  ⟨h.aligned, h.count, List.mem_cons_of_mem r h.reached⟩

theorem arenaWatermarkPct_le {a : Arena} (h : a.highWatermark.toNat ≤ a.capacity.toNat) :
    (arenaWatermarkPct a).toNat ≤ 100 := by
  unfold arenaWatermarkPct
  split_ifs with hzero
  · simp
  · have hpos : 0 < a.capacity.toNat :=
      Nat.pos_of_ne_zero fun h0 => hzero (UInt32.toNat_inj.mp h0)
    have hlt := a.highWatermark.toNat_lt
    have hprod : (a.highWatermark.toUInt64 * 100).toNat = a.highWatermark.toNat * 100 := by
      rw [UInt64.toNat_mul, UInt32.toNat_toUInt64]
      exact Nat.mod_eq_of_lt (by show _ * 100 < _; omega)
    have hquot : a.highWatermark.toNat * 100 / a.capacity.toNat ≤ 100 := by
      apply Nat.div_le_of_le_mul
      have := Nat.mul_le_mul_right 100 h
      omega
    rw [UInt64.toNat_toUInt32, UInt64.toNat_div, hprod, UInt32.toNat_toUInt64]
    exact (Nat.mod_le _ _).trans hquot

theorem NestInv.init (p : ArenaPool) (m : Memory) (name : CString) : NestInv p (.init m p name) where
  inv := ArenaInv.init p m name
  tells := ⟨rfl, rfl, List.mem_singleton_self _⟩
  scopes s hs := by simp [ArenaClient.init] at hs
  nested := trivial
  watermark_reached := List.mem_singleton_self _
  watermark_max r hr := by
    obtain rfl := List.mem_singleton.mp hr
    exact Nat.le_refl _
  reached_le r hr := by
    obtain rfl := List.mem_singleton.mp hr
    exact Nat.zero_le _

theorem NestInv.scopesNest (h : NestInv p c) : ScopesNest p c where
  aligned := h.tells.aligned
  bounded := by
    have haligned : c.arena.cursor.toNat % 8 = 0 := h.tells.aligned
    have hle := h.inv.live.le
    omega
  count := h.tells.count
  watermark_reached := h.watermark_reached
  watermark_max := h.watermark_max
  pct := by
    apply arenaWatermarkPct_le
    rw [h.inv.capacity]
    exact h.reached_le _ h.watermark_reached
  safe := h.inv.safe
  nested := h.nested.suffix

theorem Orderly.representable (h : Orderly c op) : Representable c op := by
  intro n hn
  have hsum := h.request n hn
  have hround := alignUp_lt n (a := 8) (by decide)
  left
  omega

/-- The cursor moves to one that was not beyond the pool, with the same blocks or others that the
checkpoint is right for. -/
theorem NestInv.moved (h : NestInv p c) {arena : Arena} {mem : Memory}
    (hinv : ArenaInv p { c.moved arena with mem, live, scopes })
    (htells : Tells (arena.cursor :: c.reached) (arenaSave arena) live)
    (hscopes : ∀ s ∈ scopes, Tells c.reached s.checkpoint s.live) (hnested : Nested scopes live)
    (hmax : arena.highWatermark.toNat = max c.arena.highWatermark.toNat arena.cursor.toNat) :
    NestInv p { c.moved arena with mem, live, scopes } where
  inv := hinv
  tells := htells
  scopes s hs := (hscopes s hs).cons _
  nested := hnested
  watermark_reached := by
    rcases Nat.le_total c.arena.highWatermark.toNat arena.cursor.toNat with hle | hle
    · have heq : arena.highWatermark = arena.cursor := UInt32.toNat_inj.mp (by omega)
      rw [show ({ c.moved arena with mem, live, scopes } : ArenaClient).arena.highWatermark = _ from heq]
      exact List.mem_cons_self
    · have heq : arena.highWatermark = c.arena.highWatermark := UInt32.toNat_inj.mp (by omega)
      rw [show ({ c.moved arena with mem, live, scopes } : ArenaClient).arena.highWatermark = _ from heq]
      exact List.mem_cons_of_mem _ h.watermark_reached
  watermark_max r hr := by
    show r.toNat ≤ arena.highWatermark.toNat
    rcases List.mem_cons.mp hr with rfl | hr
    · omega
    · have := h.watermark_max r hr
      omega
  reached_le r hr := by
    rcases List.mem_cons.mp hr with rfl | hr
    · exact hinv.live.le
    · exact h.reached_le r hr

theorem NestInv.cursor_le (h : NestInv p c) : c.arena.cursor.toNat ≤ c.arena.highWatermark.toNat :=
  h.watermark_max _ h.tells.reached

theorem Tells.bump (h : Tells c.reached (arenaSave c.arena) c.live) {cursor : UInt32} {b : ArenaBlock}
    (hcursor : cursor.toNat = c.arena.cursor.toNat + alignUp n 8) :
    Tells (cursor :: c.reached) (arenaSave (c.arena.bump cursor)) (b :: c.live) := by
  have haligned : c.arena.cursor.toNat % 8 = 0 := h.aligned
  have hcount : c.arena.allocCount.toNat = c.live.length % 2 ^ 32 := h.count
  have hround : alignUp n 8 % 8 = 0 := Nat.mod_eq_zero_of_dvd (dvd_alignUp n 8)
  refine ⟨?_, ?_, List.mem_cons_self⟩
  · show cursor.toNat % 8 = 0
    omega
  · show (c.arena.allocCount + 1).toNat = (b :: c.live).length % 2 ^ 32
    rw [UInt32.toNat_add, hcount, List.length_cons]
    exact Nat.mod_add_mod _ _ _

/-- **An orderly call keeps the counters right.** -/
theorem NestInv.step (h : NestInv p c) (hop : Orderly c op) (hstep : c.step op = some c') :
    NestInv p c' := by
  have hinv := h.inv.step hop.representable hstep
  rcases ArenaClient.step_cases hstep with
    ⟨n, hn, hreq⟩ | ⟨rfl, rfl⟩ | ⟨_, rfl⟩ | ⟨_, s, scopes, hscopes, rfl⟩
  · rcases h.inv.request hreq with
      ⟨ptr, cursor, mem, _, _, hcursor, _, _, rfl⟩ | ⟨_, _, rfl⟩ | ⟨hbig, hnot, _⟩
    · exact h.moved hinv (h.tells.bump hcursor) h.scopes (h.nested.mono (List.suffix_cons _ _))
        (c.arena.bump_highWatermark cursor)
    · exact h.moved hinv (h.tells.cons _) h.scopes h.nested (Nat.max_eq_left h.cursor_le).symm
    · have hround := le_alignUp n (a := 8) (by decide)
      rcases hop.representable n hn with hlt | ⟨_, hfail⟩
      · omega
      · exact absurd hfail hnot
  · have hnone := hop.reset rfl
    refine h.moved hinv ⟨rfl, rfl, List.mem_cons_self⟩ ?_ ?_ (Nat.max_eq_left (Nat.zero_le _)).symm
    · simp [hnone]
    · simp [hnone, Nested]
  · refine ⟨hinv, h.tells, fun s hs => ?_, ⟨List.suffix_refl _, h.nested⟩, h.watermark_reached,
      h.watermark_max, h.reached_le⟩
    rcases List.mem_cons.mp hs with rfl | hs
    · exact h.tells
    · exact h.scopes s hs
  · have hall := h.scopes
    rw [hscopes, List.forall_mem_cons] at hall
    have hnested := h.nested
    rw [hscopes] at hnested
    have hle := h.watermark_max _ hall.1.reached
    exact h.moved hinv ⟨hall.1.aligned, hall.1.count, List.mem_cons_self⟩ hall.2 hnested.2
      (Nat.max_eq_left hle).symm

theorem ArenaInv.kept (h : ArenaInv p c) {ptr : UInt32} {mem : Memory} {k : ℕ}
    (hptr : ptr.toNat = p.base.toNat + c.arena.cursor.toNat) (hend : c.arena.cursor.toNat + k ≤ p.size.toNat)
    (hwrites : Writes c.mem mem ptr k) {b : ArenaBlock} (hb : b ∈ c.live) {x : UInt32}
    (hx : b.span.Contains x.toNat) : mem.bytes x = c.mem.bytes x := by
  have hfits := p.fits
  obtain ⟨_, hhi⟩ := h.live.stacked.within (List.mem_map_of_mem hb)
  obtain ⟨_, hlt⟩ := hx
  apply hwrites.frame
  rw [mem_addrs_range (by omega)]
  omega

/-- **What an orderly call leaves alone.** -/
theorem NestInv.callExact (h : NestInv p c) (hop : Orderly c op) (hstep : c.step op = some c') :
    CallExact c op c' := by
  rcases ArenaClient.step_cases hstep with
    ⟨n, hn, hreq⟩ | ⟨rfl, rfl⟩ | ⟨rfl, rfl⟩ | ⟨rfl, s, scopes, hscopes, rfl⟩
  · have hnot : op ≠ .restore := by
      rintro rfl
      cases hn
    rcases h.inv.request hreq with
      ⟨ptr, cursor, mem, _, hptr, hcursor, hle, ⟨k, hk, hwrites⟩, rfl⟩ | ⟨_, _, rfl⟩ | ⟨hbig, hfit, _⟩
    · have hround := le_alignUp n (a := 8) (by decide)
      refine ⟨fun _ hlive => ?_, fun b hb _ x hx => ?_, fun h' => absurd h' hnot⟩
      · exact absurd hlive (List.cons_ne_self _ _)
      · exact h.inv.kept hptr (by omega) hwrites hb hx
    · exact ⟨fun _ _ => rfl, fun _ _ _ _ _ => rfl, fun h' => absurd h' hnot⟩
    · have hround := le_alignUp n (a := 8) (by decide)
      rcases hop.representable n hn with hlt | ⟨_, hfail⟩
      · omega
      · exact absurd hfail hfit
  · exact ⟨fun h' => absurd rfl h', fun _ _ _ _ _ => rfl, fun h' => ArenaOp.noConfusion h'⟩
  · exact ⟨fun h' => absurd rfl h', fun _ _ _ _ _ => rfl, fun h' => ArenaOp.noConfusion h'⟩
  · refine ⟨fun h' => absurd rfl h', fun _ _ _ _ _ => rfl, fun _ t rest ht => ?_⟩
    obtain ⟨rfl, _⟩ := List.cons.inj (hscopes.symm.trans ht)
    rfl

end

/-- **The scopes of an arena nest.**  Throughout every run of orderly calls the counters are right for the
live blocks, and each call leaves alone what it should. -/
theorem arena_scopes_nest (p : ArenaPool) (m : Memory) (name : CString) (ops : List ArenaOp)
    (hops : EachStep ArenaClient.step Orderly (.init m p name) ops) :
    Throughout ArenaClient.step (fun _ c => ScopesNest p c) [] (.init m p name) ops ∧
      EachStep ArenaClient.step (fun c op => ∀ c', c.step op = some c' → CallExact c op c')
        (.init m p name) ops := by
  have hinit := NestInv.init p m name
  constructor
  · exact throughout_of_each (fun _ c => NestInv p c) (fun _ _ _ _ h hop hstep => h.step hop hstep)
      (fun _ _ h => h.scopesNest) hinit hops
  · exact hops.mono_of (NestInv p) (fun _ _ _ h hop hstep => h.step hop hstep)
      (fun _ _ _ h hop _ _ hstep => h.callExact hop hstep) hinit

/-- A scope with two requests, one of which fails. -/
def sampleCalls : List ArenaOp := [.alloc 5, .save, .calloc 3 4, .alloc 0x20000, .restore, .reset]

theorem arena_scopes_nest_sample :
    Throughout ArenaClient.step (fun _ c => ScopesNest samplePool c) []
        (.init zeroMemory samplePool emptyName) sampleCalls ∧
      EachStep ArenaClient.step (fun c op => ∀ c', c.step op = some c' → CallExact c op c')
        (.init zeroMemory samplePool emptyName) sampleCalls := by
  apply arena_scopes_nest
  refine EachStep.cons rfl ⟨?_, ArenaOp.noConfusion⟩ ?_
  · rintro n ⟨⟩
    decide
  refine EachStep.cons rfl ⟨by simp [ArenaClient.requested], ArenaOp.noConfusion⟩ ?_
  refine EachStep.cons rfl ⟨?_, ArenaOp.noConfusion⟩ ?_
  · rintro n ⟨⟩
    decide
  refine EachStep.cons rfl ⟨?_, ArenaOp.noConfusion⟩ ?_
  · rintro n ⟨⟩
    decide
  refine EachStep.cons rfl ⟨by simp [ArenaClient.requested], ArenaOp.noConfusion⟩ ?_
  exact EachStep.cons rfl ⟨by simp [ArenaClient.requested], fun _ => rfl⟩ trivial

end LunaOs

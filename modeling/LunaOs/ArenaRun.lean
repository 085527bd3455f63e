import LunaOs.Arena
import LunaOs.Lib.BumpStack
import LunaOs.Lib.Runs

/-! # Runs of an arena

The client of an arena knows the blocks it was handed out and has not given back, with the sizes it
asked for as mathematical numbers, and the checkpoints it has saved and not yet restored, each with the
blocks that were live at the save.  A restore goes back to the newest checkpoint.

A request is `Representable` if neither its size nor the sum with the cursor leaves the word.  As long
as all are, the live blocks are stacked below the cursor (`ArenaInv`), which is what makes them
disjoint (`arena_safe_iff`). -/

namespace LunaOs

open CLayout Extents Runs

/-- The memory of an arena: an object that is not at the null pointer, with an address behind it. -/
structure ArenaPool where
  base : UInt32
  size : UInt32
  base_ne : base ≠ 0
  fits : base.toNat + size.toNat < 2 ^ 32

def ArenaPool.span (p : ArenaPool) : Span := ⟨p.base.toNat, p.size.toNat⟩

/-- A block with the size that was asked for. -/
structure ArenaBlock where
  ptr : UInt32
  size : ℕ
deriving DecidableEq

/-- The bytes that were asked for. -/
def ArenaBlock.span (b : ArenaBlock) : Span := ⟨b.ptr.toNat, b.size⟩

/-- A saved checkpoint, and the blocks that were live then and have not been given back since. -/
structure ArenaScope where
  checkpoint : ArenaCheckpoint
  live : List ArenaBlock

/-- The newest block and the newest scope come first; `reached` are the cursors so far. -/
structure ArenaClient where
  arena : Arena
  mem : Memory
  live : List ArenaBlock
  scopes : List ArenaScope
  reached : List UInt32

inductive ArenaOp where
  | alloc (size : UInt32)
  | calloc (count elemSize : UInt32)
  | strdup (str : UInt32)
  | reset
  | save
  | restore
deriving DecidableEq

namespace ArenaClient

def init (m : Memory) (p : ArenaPool) (name : CString) : ArenaClient :=
  let (arena, mem) := arenaInit m p.base p.size name
  ⟨arena, mem, [], [], [arena.cursor]⟩

/-- The number of bytes a call asks for. -/
def requested (c : ArenaClient) : ArenaOp → Option ℕ
  | .alloc size => some size.toNat
  | .calloc count elemSize => some (count.toNat * elemSize.toNat)
  | .strdup str => (lunaStrlen c.mem.bytes str).map fun len => len.toNat + 1
  | .reset => none
  | .save => none
  | .restore => none

/-- The arena has changed, and with it the cursor. -/
def moved (c : ArenaClient) (arena : Arena) : ArenaClient :=
  { c with arena, reached := arena.cursor :: c.reached }

/-- A request for `n` bytes has returned. -/
def returned (c : ArenaClient) (n : ℕ) (r : UInt32 × Arena × Memory) : ArenaClient :=
  let c := { c.moved r.2.1 with mem := r.2.2 }
  if r.1 = 0 then c else { c with live := ⟨r.1, n⟩ :: c.live }

/-- A restore without a checkpoint is no call of a nested run. -/
def step (c : ArenaClient) (op : ArenaOp) : Option ArenaClient :=
  match op with
  | .alloc size =>
      let (ptr, arena) := arenaAlloc c.arena size
      some (c.returned size.toNat (ptr, arena, c.mem))
  | .calloc count elemSize =>
      some (c.returned (count.toNat * elemSize.toNat) (arenaCalloc c.arena c.mem count elemSize))
  | .strdup str => do
      let len ← lunaStrlen c.mem.bytes str
      let r ← arenaStrdup c.arena c.mem str
      some (c.returned (len.toNat + 1) r)
  | .reset =>
      some { c.moved (arenaReset c.arena) with
        live := [], scopes := c.scopes.map fun s => { s with live := [] } }
  | .save => some { c with scopes := ⟨arenaSave c.arena, c.live⟩ :: c.scopes }
  | .restore =>
      match c.scopes with
      | [] => none
      | s :: scopes =>
          some { c.moved (arenaRestore c.arena s.checkpoint) with live := s.live, scopes }

end ArenaClient

/-- What a request does, whichever of the three functions it is: the arena does what `arena_alloc` does
for the size modulo `2 ^ 32`, and only bytes of the block it returns are written. -/
structure Requests (c : ArenaClient) (n : ℕ) (c' : ArenaClient) : Prop where
  returned : ∃ mem, c' = c.returned n ((arenaAlloc c.arena (UInt32.ofNat n)).1,
      (arenaAlloc c.arena (UInt32.ofNat n)).2, mem) ∧
    (∃ k ≤ n, Writes c.mem mem (arenaAlloc c.arena (UInt32.ofNat n)).1 k) ∧
    ((arenaAlloc c.arena (UInt32.ofNat n)).1 = 0 → mem = c.mem)

section
variable {c c' : ArenaClient} {op : ArenaOp} {n : ℕ}

theorem requests_alloc {size : UInt32} (h : c.step (.alloc size) = some c') :
    Requests c size.toNat c' := by
  have heq : c' = c.returned size.toNat
      ((arenaAlloc c.arena size).1, (arenaAlloc c.arena size).2, c.mem) := (Option.some.inj h).symm
  refine ⟨c.mem, ?_, ⟨0, Nat.zero_le _, Writes.refl _ _⟩, fun _ => rfl⟩
  rw [UInt32.ofNat_toNat]
  exact heq

theorem requests_calloc {count elemSize : UInt32} (h : c.step (.calloc count elemSize) = some c') :
    Requests c (count.toNat * elemSize.toNat) c' := by
  have heq : c' = c.returned (count.toNat * elemSize.toNat) (arenaCalloc c.arena c.mem count elemSize) :=
    (Option.some.inj h).symm
  have htotal : UInt32.ofNat (count.toNat * elemSize.toNat) = count * elemSize := by
    rw [UInt32.ofNat_mul, UInt32.ofNat_toNat, UInt32.ofNat_toNat]
  refine ⟨(arenaCalloc c.arena c.mem count elemSize).2.2, ?_, ?_, ?_⟩
  · rw [htotal]
    exact heq
  · rw [htotal]
    by_cases hnull : (arenaAlloc c.arena (count * elemSize)).1 = 0
    · refine ⟨0, Nat.zero_le _, ?_⟩
      simp only [arenaCalloc, hnull, ne_eq, not_true_eq_false, if_false]
      exact Writes.refl _ _
    · refine ⟨(count * elemSize).toNat, ?_, ?_⟩
      · rw [UInt32.toNat_mul]
        exact Nat.mod_le _ _
      · simp only [arenaCalloc, ne_eq, hnull, not_false_eq_true, if_true]
        exact (lunaMemset_fills _ _ _ _).toWrites
  · rw [htotal]
    intro hnull
    simp [arenaCalloc, hnull]

theorem requests_strdup {str : UInt32} (h : c.step (.strdup str) = some c') :
    ∃ len, lunaStrlen c.mem.bytes str = some len ∧ Requests c (len.toNat + 1) c' := by
  obtain ⟨len, hlen, h⟩ := Option.bind_eq_some_iff.mp h
  obtain ⟨r, hr, h⟩ := Option.bind_eq_some_iff.mp h
  obtain rfl := Option.some.inj h
  have hsize : UInt32.ofNat (len.toNat + 1) = len + 1 := by
    rw [UInt32.ofNat_add, UInt32.ofNat_toNat]
    rfl
  refine ⟨len, hlen, r.2.2, ?_, ?_, ?_⟩
  all_goals
    simp only [arenaStrdup, hlen, Option.bind_eq_bind, Option.bind_some] at hr
    rw [hsize]
  · split_ifs at hr with hnull
    · obtain rfl := Option.some.inj hr
      rw [hnull]
    · obtain rfl := Option.some.inj hr
      rfl
  · split_ifs at hr with hnull
    · obtain rfl := Option.some.inj hr
      exact ⟨0, Nat.zero_le _, Writes.refl _ _⟩
    · obtain rfl := Option.some.inj hr
      refine ⟨len.toNat + 1, le_rfl, ?_⟩
      have hcopy := (lunaMemcpy_copies c.mem (arenaAlloc c.arena (len + 1)).1 str len).toWrites
      apply hcopy.trans
      rw [UInt32.ofNat_toNat]
      exact Writes.store _ _ _
  · intro hnull
    rw [if_pos hnull] at hr
    obtain rfl := Option.some.inj hr
    rfl

/-- **What one call does.** -/
theorem ArenaClient.step_cases (h : c.step op = some c') :
    (∃ n, c.requested op = some n ∧ Requests c n c') ∨
    (op = .reset ∧ c' = { c.moved (arenaReset c.arena) with
      live := [], scopes := c.scopes.map fun s => { s with live := [] } }) ∨
    (op = .save ∧ c' = { c with scopes := ⟨arenaSave c.arena, c.live⟩ :: c.scopes }) ∨
    (op = .restore ∧ ∃ s scopes, c.scopes = s :: scopes ∧
      c' = { c.moved (arenaRestore c.arena s.checkpoint) with live := s.live, scopes }) := by
  cases op with
  | alloc size => exact .inl ⟨_, rfl, requests_alloc h⟩
  | calloc count elemSize => exact .inl ⟨_, rfl, requests_calloc h⟩
  | strdup str =>
      obtain ⟨len, hlen, hrequests⟩ := requests_strdup h
      exact .inl ⟨_, by simp [requested, hlen], hrequests⟩
  | reset => exact .inr (.inl ⟨rfl, (Option.some.inj h).symm⟩)
  | save => exact .inr (.inr (.inl ⟨rfl, (Option.some.inj h).symm⟩))
  | restore =>
      refine .inr (.inr (.inr ⟨rfl, ?_⟩))
      unfold step at h
      cases hscopes : c.scopes with
      | nil =>
          rw [hscopes] at h
          cases h
      | cons s scopes =>
          rw [hscopes] at h
          exact ⟨s, scopes, rfl, (Option.some.inj h).symm⟩

end

/-! ### Disjoint blocks inside the pool -/

/-- The blocks that were handed out and not given back lie in the pool, apart from each other. -/
structure ArenaSafe (p : ArenaPool) (c : ArenaClient) : Prop where
  inside : ∀ b ∈ c.live, b.span.Sub p.span
  apart : c.live.Pairwise fun b b' => b.span.Apart b'.span

/-- Neither the size nor its sum with the cursor leaves the word, once the size is rounded; or the
product has left it, and what is left of it does not fit. -/
def Representable (c : ArenaClient) (op : ArenaOp) : Prop :=
  ∀ n, c.requested op = some n →
    c.arena.cursor.toNat + alignUp n 8 < 2 ^ 32 ∨
    (2 ^ 32 ≤ n ∧ c.arena.capacity.toNat < c.arena.cursor.toNat + alignUp (n % 2 ^ 32) 8 ∧
      c.arena.cursor.toNat + alignUp (n % 2 ^ 32) 8 < 2 ^ 32)

/-- The blocks are stacked below the cursor. -/
structure BlocksBelow (p : ArenaPool) (live : List ArenaBlock) (cursor : UInt32) : Prop where
  le : cursor.toNat ≤ p.size.toNat
  stacked : Stacked p.base.toNat (live.map ArenaBlock.span) (p.base.toNat + cursor.toNat)

/-- The live blocks are stacked below the cursor, and those of each scope below its checkpoint. -/
structure ArenaInv (p : ArenaPool) (c : ArenaClient) : Prop where
  pool : c.arena.pool = p.base
  capacity : c.arena.capacity = p.size
  live : BlocksBelow p c.live c.arena.cursor
  scopes : ∀ s ∈ c.scopes, BlocksBelow p s.live s.checkpoint.cursor

section
variable {p : ArenaPool} {c c' : ArenaClient} {op : ArenaOp} {n : ℕ}

theorem BlocksBelow.empty (p : ArenaPool) {cursor : UInt32} (h : cursor.toNat ≤ p.size.toNat) :
    BlocksBelow p [] cursor := ⟨h, Nat.le_add_right _ _⟩

theorem ArenaInv.init (p : ArenaPool) (m : Memory) (name : CString) : ArenaInv p (.init m p name) :=
  ⟨rfl, rfl, .empty p (Nat.zero_le _), fun s hs => by simp [ArenaClient.init] at hs⟩

theorem ArenaInv.safe (h : ArenaInv p c) : ArenaSafe p c := by
  have hle := h.live.le
  refine ⟨fun b hb => ?_, List.pairwise_map.mp h.live.stacked.apart⟩
  obtain ⟨hlo, hhi⟩ := h.live.stacked.within (List.mem_map_of_mem hb)
  exact ⟨hlo, by show _ ≤ p.base.toNat + p.size.toNat; omega⟩

theorem ArenaInv.toNat_ptr (h : ArenaInv p c) :
    (c.arena.pool + c.arena.cursor).toNat = p.base.toNat + c.arena.cursor.toNat ∧
      c.arena.pool + c.arena.cursor ≠ 0 := by
  have hle := h.live.le
  have hfits := p.fits
  have hbase : p.base.toNat ≠ 0 := fun h0 => p.base_ne (UInt32.toNat_inj.mp h0)
  have htoNat : (c.arena.pool + c.arena.cursor).toNat = p.base.toNat + c.arena.cursor.toNat := by
    rw [h.pool, UInt32.toNat_add]
    exact Nat.mod_eq_of_lt (by omega)
  refine ⟨htoNat, fun h0 => ?_⟩
  rw [h0] at htoNat
  exact hbase (by simp at htoNat; omega)

/-- **What a request leads to**: a block of its size on top of the stack, a failure, or, when it is not
representable, a block that reaches beyond the pool or begins a second stack. -/
theorem ArenaInv.request (h : ArenaInv p c) (hreq : Requests c n c') :
    (∃ ptr cursor mem, n < 2 ^ 32 ∧ ptr.toNat = p.base.toNat + c.arena.cursor.toNat ∧
      cursor.toNat = c.arena.cursor.toNat + alignUp n 8 ∧ cursor.toNat ≤ p.size.toNat ∧
      (∃ k ≤ n, Writes c.mem mem ptr k) ∧
      c' = { c.moved (c.arena.bump cursor) with mem, live := ⟨ptr, n⟩ :: c.live }) ∨
    (c.arena.capacity.toNat < c.arena.cursor.toNat + alignUp (n % 2 ^ 32) 8 ∧
      c.arena.cursor.toNat + alignUp (n % 2 ^ 32) 8 < 2 ^ 32 ∧ c' = c.moved c.arena.oom) ∨
    ((2 ^ 32 ≤ n ∨ 2 ^ 32 ≤ c.arena.cursor.toNat + alignUp n 8) ∧
      ¬ (c.arena.capacity.toNat < c.arena.cursor.toNat + alignUp (n % 2 ^ 32) 8 ∧
        c.arena.cursor.toNat + alignUp (n % 2 ^ 32) 8 < 2 ^ 32) ∧
      ∃ ptr, ptr.toNat = p.base.toNat + c.arena.cursor.toNat ∧ ⟨ptr, n⟩ ∈ c'.live) := by
  obtain ⟨mem, hc', hwrites, hnull⟩ := hreq.returned
  obtain ⟨hptr, hne⟩ := h.toNat_ptr
  have hle : c.arena.cursor.toNat ≤ c.arena.capacity.toNat := by
    rw [h.capacity]
    exact h.live.le
  have hsize : (UInt32.ofNat n).toNat = n % 2 ^ 32 := UInt32.toNat_ofNat'
  rcases arenaAlloc_cases c.arena hle (UInt32.ofNat n) with
    ⟨hfit, cursor, halloc, hcursor⟩ | ⟨hfull, hlt, halloc⟩ | ⟨hwrap, cursor, halloc, _⟩
  · rw [hsize] at hfit hcursor
    rw [halloc] at hc' hwrites
    rw [ArenaClient.returned, if_neg hne] at hc'
    by_cases hn : n < 2 ^ 32
    · rw [Nat.mod_eq_of_lt hn] at hfit hcursor
      have hcap := h.capacity
      exact .inl ⟨_, cursor, mem, hn, hptr, hcursor, by rw [hcursor, ← hcap]; exact hfit, hwrites, hc'⟩
    · refine .inr (.inr ⟨.inl (by omega), by omega, _, hptr, ?_⟩)
      rw [hc']
      exact List.mem_cons_self
  · rw [hsize] at hfull hlt
    rw [halloc] at hc' hnull
    rw [ArenaClient.returned, if_pos rfl, hnull rfl] at hc'
    exact .inr (.inl ⟨hfull, hlt, hc'⟩)
  · rw [hsize] at hwrap
    rw [halloc] at hc'
    rw [ArenaClient.returned, if_neg hne] at hc'
    refine .inr (.inr ⟨?_, by omega, _, hptr, ?_⟩)
    · by_cases hn : n < 2 ^ 32
      · rw [Nat.mod_eq_of_lt hn] at hwrap
        exact .inr hwrap
      · exact .inl (by omega)
    · rw [hc']
      exact List.mem_cons_self

theorem ArenaInv.push (h : ArenaInv p c) {ptr cursor : UInt32} {mem : Memory}
    (hptr : ptr.toNat = p.base.toNat + c.arena.cursor.toNat)
    (hcursor : cursor.toNat = c.arena.cursor.toNat + alignUp n 8) (hle : cursor.toNat ≤ p.size.toNat) :
    ArenaInv p { c.moved (c.arena.bump cursor) with mem, live := ⟨ptr, n⟩ :: c.live } := by
  have hround := le_alignUp n (a := 8) (by decide)
  refine ⟨h.pool, h.capacity, ⟨hle, ?_⟩, h.scopes⟩
  apply h.live.stacked.push
  · exact hptr.ge
  · show ptr.toNat + n ≤ p.base.toNat + cursor.toNat
    omega

/-- **Representable requests keep the blocks stacked.** -/
theorem ArenaInv.step (h : ArenaInv p c) (hop : Representable c op) (hstep : c.step op = some c') :
    ArenaInv p c' := by
  rcases ArenaClient.step_cases hstep with
    ⟨n, hn, hreq⟩ | ⟨_, rfl⟩ | ⟨_, rfl⟩ | ⟨_, s, scopes, hscopes, rfl⟩
  · rcases h.request hreq with
      ⟨ptr, cursor, mem, _, hptr, hcursor, hle, _, rfl⟩ | ⟨_, _, rfl⟩ | ⟨hbig, hnot, _⟩
    · exact h.push hptr hcursor hle
    · exact ⟨h.pool, h.capacity, h.live, h.scopes⟩
    · have hround := le_alignUp n (a := 8) (by decide)
      rcases hop n hn with hlt | ⟨_, hfail⟩
      · omega
      · exact absurd hfail hnot
  · refine ⟨h.pool, h.capacity, .empty p (Nat.zero_le _), fun s hs => ?_⟩
    obtain ⟨t, ht, rfl⟩ := List.mem_map.mp hs
    exact .empty p (h.scopes t ht).le
  · refine ⟨h.pool, h.capacity, h.live, fun s hs => ?_⟩
    rcases List.mem_cons.mp hs with rfl | hs
    · exact h.live
    · exact h.scopes s hs
  · have hall := h.scopes
    rw [hscopes, List.forall_mem_cons] at hall
    exact ⟨h.pool, h.capacity, hall.1, hall.2⟩

/-- In a pool that leaves the last eight bytes of the word alone, a call after which the blocks are
safe was representable. -/
theorem ArenaInv.representable (h : ArenaInv p c) (hsmall : p.size.toNat + 8 ≤ 2 ^ 32)
    (hstep : c.step op = some c') (hsafe : ArenaSafe p c') : Representable c op := by
  intro n hn
  have hup := le_alignUp n (a := 8) (by decide)
  have hlt := alignUp_lt n (a := 8) (by decide)
  rcases ArenaClient.step_cases hstep with
    ⟨m, hm, hreq⟩ | ⟨rfl, _⟩ | ⟨rfl, _⟩ | ⟨rfl, _⟩
  · obtain rfl := Option.some.inj (hm.symm.trans hn)
    rcases h.request hreq with
      ⟨_, _, _, _, _, hcursor, hle, _⟩ | ⟨hfull, hword, _⟩ | ⟨hbig, _, ptr, hptr, hmem⟩
    · left
      omega
    · by_cases hm' : m < 2 ^ 32
      · left
        rwa [Nat.mod_eq_of_lt hm'] at hword
      · exact .inr ⟨by omega, hfull, hword⟩
    · -- the block does not end in the pool
      obtain ⟨_, hend⟩ := hsafe.inside _ hmem
      have hend : ptr.toNat + m ≤ p.base.toNat + p.size.toNat := hend
      omega
  · cases hn
  · cases hn
  · cases hn

end

/-- **The blocks of an arena are disjoint and inside the pool throughout every run whose requests are all
representable**, and only then, unless the pool takes up all but the last bytes of the word. -/
theorem arena_safe_iff (p : ArenaPool) (m : Memory) (name : CString) (ops : List ArenaOp) :
    (EachStep ArenaClient.step Representable (.init m p name) ops →
      Throughout ArenaClient.step (fun _ c => ArenaSafe p c) [] (.init m p name) ops) ∧
    (p.size.toNat + 8 ≤ 2 ^ 32 →
      Throughout ArenaClient.step (fun _ c => ArenaSafe p c) [] (.init m p name) ops →
      EachStep ArenaClient.step Representable (.init m p name) ops) := by
  have hinit := ArenaInv.init p m name
  constructor
  · exact throughout_of_each (fun _ c => ArenaInv p c) (fun _ _ _ _ h hop hstep => h.step hop hstep)
      (fun _ _ h => h.safe) hinit
  · intro hsmall
    exact Throughout.eachStep (fun _ c => ArenaInv p c) (fun _ _ _ _ h hop hstep => h.step hop hstep)
      (fun _ _ _ _ h hstep hsafe => h.representable hsmall hstep hsafe) hinit

def emptyName : CString := ⟨[], by simp⟩

/-- 64 KB of memory, a megabyte up. -/
def samplePool : ArenaPool where
  base := 0x100000
  size := 0x10000
  base_ne := by decide
  fits := by decide

def zeroMemory : Memory := ⟨fun _ => 0, []⟩

/-- The rounded size wraps around, the cursor goes back, and the next block is the first again. -/
theorem arena_overlaps :
    ∃ c, haltingRun ArenaClient.step (.init zeroMemory samplePool emptyName)
        [.alloc 16, .alloc 0xFFFFFFF0, .alloc 8] = some c ∧
      c.live = [⟨0x100000, 8⟩, ⟨0x100010, 0xFFFFFFF0⟩, ⟨0x100000, 16⟩] ∧ ¬ ArenaSafe samplePool c := by
  have hrun : ∃ c, haltingRun ArenaClient.step (.init zeroMemory samplePool emptyName)
      [.alloc 16, .alloc 0xFFFFFFF0, .alloc 8] = some c ∧
      c.live = [⟨0x100000, 8⟩, ⟨0x100010, 0xFFFFFFF0⟩, ⟨0x100000, 16⟩] := ⟨_, rfl, rfl⟩
  obtain ⟨c, hrun, hlive⟩ := hrun
  refine ⟨c, hrun, hlive, fun h => ?_⟩
  have hapart := h.apart
  rw [hlive] at hapart
  have hfirst : (⟨0x100000, 16⟩ : ArenaBlock) ∈
      [⟨0x100010, 0xFFFFFFF0⟩, (⟨0x100000, 16⟩ : ArenaBlock)] := by simp
  rcases List.rel_of_pairwise_cons hapart hfirst with hlo | hhi
  · revert hlo
    decide
  · revert hhi
    decide

end LunaOs

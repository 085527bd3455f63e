import LunaOs.Surface
import LunaOs.Lib.Runs
import Mathlib.Algebra.BigOperators.Group.Finset.Basic
import Mathlib.Data.Fintype.BigOperators

/-! # The life of the shared surfaces

A client makes surfaces and destroys them, in any order, and keeps the list of what `surface_create`
handed out.  Its ids come from `next_surface_id`, which wraps, so that no id is used twice while fewer
than 2^32 surfaces are made. -/

namespace LunaOs

open Runs

/-- What a call of `surface_create` was given and returned. -/
structure LiveSurface where
  id : UInt32
  slot : Fin MAX_SURFACES
  ownerPid : UInt32
  width : UInt32
  height : UInt32

/-- The table, the frames, and the surfaces that were made and not destroyed. -/
structure SurfaceClient where
  table : SurfaceTable
  pmm : Pmm
  live : List LiveSurface

inductive SurfaceOp where
  | create (pid w h : UInt32)
  | destroy (id : UInt32)

def SurfaceOp.isCreate : SurfaceOp → Bool
  | .create _ _ _ => true
  | .destroy _ => false

namespace SurfaceClient

/-- The records after a call of `surface_create`. -/
def made (c : SurfaceClient) (pid w h : UInt32)
    (r : Option (Fin MAX_SURFACES) × SurfaceTable × Pmm) : SurfaceClient where
  table := r.2.1
  pmm := r.2.2
  live :=
    match r.1 with
    | none => c.live
    | some i => ⟨(r.2.1.surfaces i).id, i, pid, w, h⟩ :: c.live

/-- A panic ends the run. -/
def step (c : SurfaceClient) : SurfaceOp → Option SurfaceClient
  | .create pid w h => (surfaceCreate c.table c.pmm pid w h).toOption.map (c.made pid w h)
  | .destroy id => some
      { table := (surfaceDestroy c.table c.pmm id).1
        pmm := (surfaceDestroy c.table c.pmm id).2
        live := c.live.filter fun x => x.id ≠ id }

end SurfaceClient

def SharedSurface.pages (s : SharedSurface) : ℕ := (surfacePages s.width s.height).toNat

/-- The frames from `phys_base` on. -/
def SharedSurface.frames (s : SharedSurface) : Finset ℕ :=
  Finset.Ico (frameOf s.physBase) (frameOf s.physBase + s.pages)

/-- The pages a slot accounts for. -/
def SharedSurface.activePages (s : SharedSurface) : ℕ := if s.active then s.pages else 0

/-- What holds between the table, the manager and what the client was handed out; `free` is the number
of frames that were free before the first surface was made. -/
structure SurfacesSound (free : ℕ) (c : SurfaceClient) : Prop where
  ids_distinct : ∀ i j, (c.table.surfaces i).active = true → (c.table.surfaces j).active = true →
    (c.table.surfaces i).id = (c.table.surfaces j).id → i = j
  frames_used : ∀ i, (c.table.surfaces i).active = true → ∀ f ∈ (c.table.surfaces i).frames,
    f < FRAMES_TOTAL ∧ frameTest c.pmm.bitmap f = true
  frames_disjoint : ∀ i j, (c.table.surfaces i).active = true → (c.table.surfaces j).active = true →
    i ≠ j → Disjoint (c.table.surfaces i).frames (c.table.surfaces j).frames
  get_live : ∀ x ∈ c.live, surfaceGet c.table x.id = some x.slot ∧
    (c.table.surfaces x.slot).ownerPid = x.ownerPid ∧ (c.table.surfaces x.slot).width = x.width ∧
    (c.table.surfaces x.slot).height = x.height
  get_only : ∀ id i, surfaceGet c.table id = some i → ∃ x ∈ c.live, x.id = id ∧ x.slot = i
  conserved : c.pmm.freeFrames.toNat + ∑ i, (c.table.surfaces i).activePages = free
  destroy_unknown : ∀ id,
    (∀ i, (c.table.surfaces i).active = true → (c.table.surfaces i).id ≠ id) →
    surfaceDestroy c.table c.pmm id = (c.table, c.pmm)

/-! ### Looking a surface up -/

section
variable {t : SurfaceTable} {i : Fin MAX_SURFACES} {id : UInt32}

theorem surfaceGet_eq_none :
    surfaceGet t id = none ↔ ∀ i, (t.surfaces i).active = true → (t.surfaces i).id ≠ id := by
  unfold surfaceGet
  simp [List.find?_eq_none]

theorem surfaceGet_some (h : surfaceGet t id = some i) :
    (t.surfaces i).active = true ∧ (t.surfaces i).id = id := by
  simpa using List.find?_some h

/-- Where ids are distinct the surface found is the one with the id. -/
theorem surfaceGet_eq (hdistinct : ∀ i j, (t.surfaces i).active = true → (t.surfaces j).active = true →
    (t.surfaces i).id = (t.surfaces j).id → i = j) (hi : (t.surfaces i).active = true)
    (hid : (t.surfaces i).id = id) : surfaceGet t id = some i := by
  cases hget : surfaceGet t id with
  | none => exact absurd hid (surfaceGet_eq_none.mp hget i hi)
  | some j =>
      obtain ⟨hj, hjd⟩ := surfaceGet_some hget
      rw [hdistinct j i hj hi (hjd.trans hid.symm)]

theorem freeSlot_inactive (h : t.freeSlot = some i) : (t.surfaces i).active = false := by
  simpa using List.find?_some h

end

theorem sum_activePages_update (surfaces : Fin MAX_SURFACES → SharedSurface) (i : Fin MAX_SURFACES)
    (s : SharedSurface) :
    ∑ j, (Function.update surfaces i s j).activePages + (surfaces i).activePages =
      ∑ j, (surfaces j).activePages + s.activePages := by
  have hcomp : (fun j => (Function.update surfaces i s j).activePages) =
      Function.update (fun j => (surfaces j).activePages) i s.activePages :=
    Function.comp_update SharedSurface.activePages surfaces i s
  rw [hcomp, Finset.sum_update_of_mem (Finset.mem_univ i), Finset.sdiff_singleton_eq_erase,
    ← Finset.add_sum_erase Finset.univ (fun j => (surfaces j).activePages) (Finset.mem_univ i)]
  omega

/-! ### Properties of the active surfaces -/

/-- `P` holds of every active surface. -/
def ActiveAll (surfaces : Fin MAX_SURFACES → SharedSurface) (P : SharedSurface → Prop) : Prop :=
  ∀ i, (surfaces i).active = true → P (surfaces i)

/-- `R` holds between any two active surfaces. -/
def ActivePairwise (surfaces : Fin MAX_SURFACES → SharedSurface)
    (R : SharedSurface → SharedSurface → Prop) : Prop :=
  ∀ i j, (surfaces i).active = true → (surfaces j).active = true → i ≠ j → R (surfaces i) (surfaces j)

section
variable {surfaces : Fin MAX_SURFACES → SharedSurface} {P Q : SharedSurface → Prop}
  {R : SharedSurface → SharedSurface → Prop} {i : Fin MAX_SURFACES} {s : SharedSurface}

theorem ActiveAll.imp (h : ActiveAll surfaces P) (himp : ∀ x, P x → Q x) : ActiveAll surfaces Q :=
  fun i hi => himp _ (h i hi)

theorem ActiveAll.update (h : ActiveAll surfaces P) (hs : s.active = true → P s) :
    ActiveAll (Function.update surfaces i s) P := by
  intro j hj
  by_cases hji : j = i
  · subst hji
    rw [Function.update_self] at hj ⊢
    exact hs hj
  · rw [Function.update_of_ne hji] at hj ⊢
    exact h j hj

theorem ActivePairwise.update (h : ActivePairwise surfaces R) (hsymm : ∀ x y, R x y → R y x)
    (hs : s.active = true → ∀ j ≠ i, (surfaces j).active = true → R s (surfaces j)) :
    ActivePairwise (Function.update surfaces i s) R := by
  intro j k hj hk hjk
  by_cases hji : j = i
  · subst hji
    rw [Function.update_self] at hj ⊢
    rw [Function.update_of_ne hjk.symm] at hk ⊢
    exact hs hj k hjk.symm hk
  · rw [Function.update_of_ne hji] at hj ⊢
    by_cases hki : k = i
    · subst hki
      rw [Function.update_self] at hk ⊢
      exact hsymm _ _ (hs hk j hji hj)
    · rw [Function.update_of_ne hki] at hk ⊢
      exact h j k hj hk hjk

end

/-! ### Fresh ids -/

/-- How many ids were given out between `first` and `id`. -/
def idAge (first id : UInt32) : ℕ := (id - first).toNat

theorem idAge_succ {first id : UInt32} (h : idAge first id + 1 < 2 ^ 32) :
    idAge first (id + 1) = idAge first id + 1 := by
  unfold idAge at *
  have hsucc : id + 1 - first = id - first + 1 := by
    rw [UInt32.sub_eq_add_neg, UInt32.sub_eq_add_neg, UInt32.add_assoc, UInt32.add_comm 1,
      ← UInt32.add_assoc]
  rw [hsucc, UInt32.toNat_add]
  exact Nat.mod_eq_of_lt h

/-! ### The invariant -/

/-- The record describes an active surface. -/
structure LiveSurface.Describes (t : SurfaceTable) (x : LiveSurface) : Prop where
  active : (t.surfaces x.slot).active = true
  id_eq : (t.surfaces x.slot).id = x.id
  ownerPid_eq : (t.surfaces x.slot).ownerPid = x.ownerPid
  width_eq : (t.surfaces x.slot).width = x.width
  height_eq : (t.surfaces x.slot).height = x.height

/-- A change of another slot leaves the record right. -/
theorem LiveSurface.Describes.update {t : SurfaceTable} {x : LiveSurface} (h : x.Describes t)
    {i : Fin MAX_SURFACES} (hi : x.slot ≠ i) (s : SharedSurface) (next : UInt32) :
    x.Describes ⟨Function.update t.surfaces i s, next⟩ := by
  constructor <;> simp [hi, h.active, h.id_eq, h.ownerPid_eq, h.width_eq, h.height_eq]

/-- The state after at most `n` creations; `first` is the id the first of them was given. -/
structure Settled (first : UInt32) (free n : ℕ) (c : SurfaceClient) : Prop where
  next_le : idAge first c.table.nextSurfaceId ≤ n
  id_lt : ActiveAll c.table.surfaces fun s => idAge first s.id < idAge first c.table.nextSurfaceId
  ids_ne : ActivePairwise c.table.surfaces fun s s' => s.id ≠ s'.id
  owns : ActiveAll c.table.surfaces fun s => s.OwnsRun (frameOf s.physBase)
  used : ActiveAll c.table.surfaces fun s => Disjoint s.frames c.pmm.clearFrames
  disjoint : ActivePairwise c.table.surfaces fun s s' => Disjoint s.frames s'.frames
  describes : ∀ x ∈ c.live, x.Describes c.table
  described : ∀ i, (c.table.surfaces i).active = true → ∃ x ∈ c.live, x.slot = i
  counted : c.pmm.Exact
  total : c.pmm.clearFrames.card + ∑ i, (c.table.surfaces i).activePages = free

theorem settled_init (t : SurfaceTable) {p : Pmm} (hp : p.Exact) :
    Settled t.nextSurfaceId p.freeFrames.toNat 0 ⟨surfaceInit t, p, []⟩ where
  next_le := by
    show (t.nextSurfaceId - t.nextSurfaceId).toNat ≤ 0
    simp
  id_lt _ hi := absurd hi Bool.false_ne_true
  ids_ne _ _ hi := absurd hi Bool.false_ne_true
  owns _ hi := absurd hi Bool.false_ne_true
  used _ hi := absurd hi Bool.false_ne_true
  disjoint _ _ hi := absurd hi Bool.false_ne_true
  describes _ hx := absurd hx List.not_mem_nil
  described _ hi := absurd hi Bool.false_ne_true
  counted := hp
  total := by
    have hzero : ∀ i, ((surfaceInit t).surfaces i).activePages = 0 := fun _ => rfl
    simp [hzero, hp.symm]

theorem SharedSurface.OwnsRun.frames_eq {s : SharedSurface} {start : ℕ} (h : s.OwnsRun start)
    (hstart : start < FRAMES_TOTAL) : s.frames = Finset.Ico start (start + s.pages) := by
  unfold SharedSurface.frames
  rw [h.physBase_eq, frameOf_frameAddr hstart]

@[simp] theorem SharedSurface.card_frames (s : SharedSurface) : s.frames.card = s.pages := by
  simp [SharedSurface.frames]

section
variable {first : UInt32} {free n : ℕ} {c : SurfaceClient}

theorem Settled.mono (h : Settled first free n c) {m : ℕ} (hm : n ≤ m) : Settled first free m c :=
  { h with next_le := h.next_le.trans hm }

/-- A surface in a slot that was free, over frames that were clear. -/
theorem Settled.create (h : Settled first free n c) (hn : n + 1 < 2 ^ 32) {i : Fin MAX_SURFACES}
    {s : SharedSurface} {p : Pmm} (hi : (c.table.surfaces i).active = false) (hs : s.active = true)
    (hid : s.id = c.table.nextSurfaceId) (howns : s.OwnsRun (frameOf s.physBase))
    (hcounted : p.Exact) (hclear : s.frames ⊆ c.pmm.clearFrames)
    (hp : p.clearFrames = c.pmm.clearFrames \ s.frames) :
    Settled first free (n + 1)
      ⟨⟨Function.update c.table.surfaces i s, c.table.nextSurfaceId + 1⟩, p,
        ⟨s.id, i, s.ownerPid, s.width, s.height⟩ :: c.live⟩ := by
  have hle := h.next_le
  have hroom : idAge first c.table.nextSurfaceId + 1 < 2 ^ 32 := by omega
  have hnext := idAge_succ hroom
  have hother : ∀ j, (c.table.surfaces j).active = true → j ≠ i := by
    rintro j hj rfl
    exact Bool.false_ne_true (hi.symm.trans hj)
  refine ⟨?_, ?_, ?_, ?_, ?_, ?_, ?_, ?_, hcounted, ?_⟩
  · show idAge first (c.table.nextSurfaceId + 1) ≤ n + 1
    omega
  · show ActiveAll _ fun x => idAge first x.id < idAge first (c.table.nextSurfaceId + 1)
    rw [hnext]
    apply (h.id_lt.imp fun x hx => Nat.lt_succ_of_lt hx).update
    intro _
    rw [hid]
    exact Nat.lt_succ_self _
  · -- the id of the new surface is younger than every other
    apply h.ids_ne.update fun _ _ => Ne.symm
    intro _ j _ hj heq
    have hlt : idAge first (c.table.surfaces j).id < _ := h.id_lt j hj
    rw [← heq, hid] at hlt
    exact Nat.lt_irrefl _ hlt
  · exact h.owns.update fun _ => howns
  · show ActiveAll _ fun x => Disjoint x.frames p.clearFrames
    rw [hp]
    apply (h.used.imp fun x hx => hx.mono_right Finset.sdiff_subset).update
    exact fun _ => Finset.disjoint_sdiff
  · apply h.disjoint.update fun _ _ hdisjoint => hdisjoint.symm
    exact fun _ j _ hj => (h.used j hj).symm.mono_left hclear
  · intro x hx
    rcases List.mem_cons.mp hx with rfl | hx
    · constructor <;> simp [hs]
    · have hx := h.describes x hx
      exact hx.update (hother _ hx.active) s _
  · intro j hj
    by_cases hji : j = i
    · exact ⟨_, List.mem_cons_self, hji.symm⟩
    · dsimp only at hj
      rw [Function.update_of_ne hji] at hj
      obtain ⟨x, hx, hslot⟩ := h.described j hj
      exact ⟨x, List.mem_cons_of_mem _ hx, hslot⟩
  · have hsum := sum_activePages_update c.table.surfaces i s
    have hold : (c.table.surfaces i).activePages = 0 := by simp [SharedSurface.activePages, hi]
    have hnew : s.activePages = s.pages := by simp [SharedSurface.activePages, hs]
    have hcard := Finset.card_sdiff_add_card_eq_card hclear
    have htotal := h.total
    rw [s.card_frames] at hcard
    rw [hold, hnew] at hsum
    show p.clearFrames.card + ∑ j, (Function.update c.table.surfaces i s j).activePages = free
    rw [hp]
    omega

/-- An active surface gives back its slot, to one that is not, and its frames. -/
theorem Settled.destroy (h : Settled first free n c) {i : Fin MAX_SURFACES} {s : SharedSurface}
    {p : Pmm} (hi : (c.table.surfaces i).active = true) (hs : s.active = false) (hcounted : p.Exact)
    (hp : p.clearFrames = c.pmm.clearFrames ∪ (c.table.surfaces i).frames) :
    Settled first free n
      ⟨{ c.table with surfaces := Function.update c.table.surfaces i s }, p,
        c.live.filter fun x => x.id ≠ (c.table.surfaces i).id⟩ := by
  have hgone : s.active ≠ true := by simp [hs]
  refine ⟨h.next_le, ?_, ?_, ?_, ?_, ?_, ?_, ?_, hcounted, ?_⟩
  · exact h.id_lt.update fun ha => absurd ha hgone
  · exact h.ids_ne.update (fun _ _ => Ne.symm) fun ha => absurd ha hgone
  · exact h.owns.update fun ha => absurd ha hgone
  · intro j hj
    by_cases hji : j = i
    · subst hji
      simp [hs] at hj
    · dsimp only at hj ⊢
      rw [Function.update_of_ne hji] at hj ⊢
      rw [hp, Finset.disjoint_union_right]
      exact ⟨h.used j hj, h.disjoint j i hj hi hji⟩
  · exact h.disjoint.update (fun _ _ hdisjoint => hdisjoint.symm) fun ha => absurd ha hgone
  · intro x hx
    obtain ⟨hmem, hne⟩ := List.mem_filter.mp hx
    replace hx := h.describes x hmem
    have hslot : x.slot ≠ i := by
      rintro rfl
      exact (decide_eq_true_eq.mp hne) hx.id_eq.symm
    exact hx.update hslot s _
  · intro j hj
    by_cases hji : j = i
    · subst hji
      simp [hs] at hj
    · dsimp only at hj
      rw [Function.update_of_ne hji] at hj
      obtain ⟨x, hx, rfl⟩ := h.described j hj
      refine ⟨x, List.mem_filter.mpr ⟨hx, ?_⟩, rfl⟩
      have hne : (c.table.surfaces x.slot).id ≠ _ := h.ids_ne _ _ hj hi hji
      rw [(h.describes x hx).id_eq] at hne
      simpa using hne
  · have hsum := sum_activePages_update c.table.surfaces i s
    have hold : (c.table.surfaces i).activePages = (c.table.surfaces i).pages := by
      simp [SharedSurface.activePages, hi]
    have hnew : s.activePages = 0 := by simp [SharedSurface.activePages, hs]
    have hcard := Finset.card_union_of_disjoint (h.used i hi).symm
    have htotal := h.total
    rw [SharedSurface.card_frames] at hcard
    rw [hold, hnew] at hsum
    dsimp only
    rw [hp, hcard]
    omega

/-- **What one call keeps**. -/
theorem Settled.step (h : Settled first free n c) {op : SurfaceOp} {c' : SurfaceClient}
    (hn : op.isCreate = true → n + 1 < 2 ^ 32) (hstep : c.step op = some c') :
    Settled first free (n + op.isCreate.toNat) c' := by
  cases op with
  | create pid w height =>
      obtain ⟨⟨slot, t', p'⟩, hok, rfl⟩ := toOption_map_eq_some hstep
      rcases surfaceCreate_ok hok with ⟨rfl, _, rfl, rfl⟩ |
        ⟨i, s, start, rfl, hslot, hs, rfl, hrun, hstart, rfl, rfl, hid, rfl, _, halloc, hclear, hpmm⟩
      · exact h.mono (Nat.le_add_right _ _)
      · have hframes := hrun.frames_eq hstart
        have howns : s.OwnsRun (frameOf s.physBase) := by
          rwa [hrun.physBase_eq, frameOf_frameAddr hstart]
        have hsub : s.frames ⊆ c.pmm.clearFrames := by
          intro f hf
          rw [hframes, Finset.mem_Ico] at hf
          exact hclear f hf.1 hf.2
        have hmade := h.create (hn rfl) (freeSlot_inactive hslot) hs hid howns
          (h.counted.allocFrames halloc) hsub (hframes ▸ hpmm)
        simpa [SurfaceClient.made, SurfaceOp.isCreate] using hmade
  | destroy id =>
      obtain rfl := Option.some.inj hstep
      rcases surfaceDestroy_cases c.table c.pmm id with ⟨hnone, heq⟩ | ⟨i, _, hi, rfl, heq⟩
      · rw [heq]
        have hkeep : (c.live.filter fun x => x.id ≠ id) = c.live := by
          apply List.filter_eq_self.mpr
          intro x hx
          have hx := h.describes x hx
          simpa [← hx.id_eq] using surfaceGet_eq_none.mp hnone _ hx.active
        rw [hkeep]
        exact h
      · rw [heq]
        exact h.destroy hi rfl (h.counted.foldl_freeFrame _ _) ((h.owns i hi).clearFrames_release c.pmm)

theorem Settled.distinct (h : Settled first free n c) (i j : Fin MAX_SURFACES)
    (hi : (c.table.surfaces i).active = true) (hj : (c.table.surfaces j).active = true)
    (hid : (c.table.surfaces i).id = (c.table.surfaces j).id) : i = j := by
  by_contra hne
  exact h.ids_ne i j hi hj hne hid

theorem Settled.sound (h : Settled first free n c) : SurfacesSound free c where
  ids_distinct := h.distinct
  frames_used i hi f hf := by
    have hle := (h.owns i hi).le_total
    have hlt : f < FRAMES_TOTAL := (Finset.mem_Ico.mp hf).2.trans_le hle
    have hnot := Finset.disjoint_left.mp (h.used i hi) hf
    rw [Pmm.mem_clearFrames, not_and, Bool.not_eq_false] at hnot
    exact ⟨hlt, hnot hlt⟩
  frames_disjoint := h.disjoint
  get_live x hx :=
    have hx := h.describes x hx
    ⟨surfaceGet_eq h.distinct hx.active hx.id_eq, hx.ownerPid_eq, hx.width_eq, hx.height_eq⟩
  get_only id i hget := by
    obtain ⟨hi, hid⟩ := surfaceGet_some hget
    obtain ⟨x, hx, rfl⟩ := h.described i hi
    exact ⟨x, hx, (h.describes x hx).id_eq.symm.trans hid, rfl⟩
  conserved := by
    rw [h.counted]
    exact h.total
  destroy_unknown id hid := by
    unfold surfaceDestroy
    rw [surfaceGet_eq_none.mpr hid]

end

/-- **Surfaces conserve memory**: in every state of every run of creations and destructions, active
surfaces have ids and frames of their own, a surface is found by its id, and the free frames and the
pages of the active surfaces together stay the same. -/
theorem surfaces_conserve (t : SurfaceTable) (p : Pmm) (hp : p.Exact) (ops : List SurfaceOp)
    (hcount : ops.countP SurfaceOp.isCreate < 2 ^ 32) (c : SurfaceClient)
    (hrun : haltingRun SurfaceClient.step ⟨surfaceInit t, p, []⟩ ops = some c) :
    SurfacesSound p.freeFrames.toNat c := by
  have hsettled : ops.countP SurfaceOp.isCreate < 2 ^ 32 →
      Settled t.nextSurfaceId p.freeFrames.toNat (ops.countP SurfaceOp.isCreate) c := by
    apply haltingRun_history (fun is c => is.countP SurfaceOp.isCreate < 2 ^ 32 →
      Settled t.nextSurfaceId p.freeFrames.toNat (is.countP SurfaceOp.isCreate) c) ?_
      (fun _ => settled_init t hp) hrun
    intro is c op c' hsettled hstep hlt
    rw [List.countP_append] at hlt
    have hcreate : op.isCreate = true → is.countP SurfaceOp.isCreate + 1 < 2 ^ 32 := by
      intro hop
      simpa [hop] using hlt
    have hnext := (hsettled (by omega)).step hcreate hstep
    rw [List.countP_append]
    cases hop : op.isCreate <;> simpa [hop] using hnext
  exact (hsettled hcount).sound

/-- A manager with every frame clear. -/
def emptyPmm : Pmm := ⟨fun _ => 0#32, 1048576, 1048576, 0⟩

theorem emptyPmm_counted : emptyPmm.Exact := by
  have hall : emptyPmm.clearFrames = Finset.range FRAMES_TOTAL := by
    ext f
    have hclear : frameTest emptyPmm.bitmap f = false := by simp [emptyPmm, frameTest]
    simp [Pmm.mem_clearFrames, hclear]
  unfold Pmm.Exact
  rw [hall, Finset.card_range]
  rfl

/-- The static data of `shared_surface.c` before any call. -/
def bootSurfaces : SurfaceTable := ⟨fun _ => ⟨0, 0, 0, 0, 0, 0, 0, 0, false⟩, 1⟩

theorem surfaces_conserve_twice :
    ∃ c, haltingRun SurfaceClient.step ⟨surfaceInit bootSurfaces, emptyPmm, []⟩
        [.create 7 64 64, .create 7 32 32, .destroy 1, .destroy 1] = some c ∧
      SurfacesSound 1048576 c := by
  have hrun : (haltingRun SurfaceClient.step ⟨surfaceInit bootSurfaces, emptyPmm, []⟩
      [.create 7 64 64, .create 7 32 32, .destroy 1, .destroy 1]).isSome = true := by
    decide +kernel
  obtain ⟨c, hc⟩ := Option.isSome_iff_exists.mp hrun
  exact ⟨c, hc, surfaces_conserve _ _ emptyPmm_counted _ (by decide) c hc⟩

end LunaOs

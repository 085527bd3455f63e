import Mathlib.Data.List.Basic
import Mathlib.Data.Nat.Notation

/-! # A resource that is handed around

One of the parties holds the resource.  At a handover the giver stores a value, and the taker gets the
value it stored when it last gave the resource away; a party that never gave it away has an initial
value.  A first holder that was never handed the resource stores its value at the first handover, so
the first value it is handed is this one and not its initial value (`initialThenLast_iff`). -/

/-- A change from one task to another: what is kept for the giver and what the taker goes on with. -/
structure Handover (P X : Type*) where
  giver : P
  taker : P
  saved : X
  loaded : X

namespace Handover

variable {P X : Type*} {p q : P} {h : Handover P X} {hs : List (Handover P X)} {init : P → X}

/-- Who holds the resource after the handovers, when `p` held it before. -/
def holder : P → List (Handover P X) → P
  | p, [] => p
  | _, h :: hs => holder h.taker hs

/-- Each handover is from the holder to another party. -/
def Passes : P → List (Handover P X) → Prop
  | _, [] => True
  | p, h :: hs => h.giver = p ∧ h.taker ≠ p ∧ Passes h.taker hs

theorem holder_append (hs : List (Handover P X)) (h : Handover P X) (p : P) :
    holder p (hs ++ [h]) = h.taker := by
  induction hs generalizing p with
  | nil => rfl
  | cons x hs ih => exact ih x.taker

theorem passes_append {post : List (Handover P X)} :
    Passes p (hs ++ h :: post) ↔
      Passes p hs ∧ h.giver = holder p hs ∧ h.taker ≠ holder p hs ∧ Passes h.taker post := by
  induction hs generalizing p with
  | nil => simp [Passes, holder]
  | cons x hs ih => simp [Passes, holder, ih, and_assoc]

theorem Passes.giver_taken (hp : Passes p hs) {y : Handover P X} (hy : y ∈ hs) :
    y.giver = p ∨ ∃ x ∈ hs, x.taker = y.giver := by
  induction hs generalizing p with
  | nil => cases hy
  | cons x hs ih =>
      obtain ⟨hx, _, hrest⟩ := hp
      rcases List.mem_cons.mp hy with rfl | hy
      · exact .inl hx
      · rcases ih hrest hy with heq | ⟨z, hz, htaker⟩
        · exact .inr ⟨x, List.mem_cons_self, heq.symm⟩
        · exact .inr ⟨z, List.mem_cons_of_mem x hz, htaker⟩

theorem Passes.taker_gives (hp : Passes p hs) {x : Handover P X} (hx : x ∈ hs)
    (hne : holder p hs ≠ x.taker) : ∃ y ∈ hs, y.giver = x.taker := by
  induction hs generalizing p with
  | nil => cases hx
  | cons z hs ih =>
      obtain ⟨_, _, hrest⟩ := hp
      rcases List.mem_cons.mp hx with rfl | hx
      · cases hs with
        | nil => exact absurd rfl hne
        | cons y hs => exact ⟨y, by simp, hrest.1⟩
      · obtain ⟨y, hy, hgiver⟩ := ih hrest hx hne
        exact ⟨y, List.mem_cons_of_mem z hy, hgiver⟩

/-- Before the first holder is handed the resource, the first handover has taken place. -/
theorem Passes.exists_first {pre post : List (Handover P X)} (hp : Passes p (pre ++ h :: post))
    (hback : h.taker = p) : ∃ f rest, pre = f :: rest := by
  cases pre with
  | nil => exact absurd hback hp.2.1
  | cons f rest => exact ⟨f, rest, rfl⟩

/-! ### Stored values -/

variable [DecidableEq P]

/-- What `p` stored when it last gave the resource away. -/
def lastSaved (hs : List (Handover P X)) (p : P) : Option X :=
  (hs.filter (·.giver = p)).getLast?.map saved

theorem lastSaved_append (hs : List (Handover P X)) (h : Handover P X) (p : P) :
    lastSaved (hs ++ [h]) p = if h.giver = p then some h.saved else lastSaved hs p := by
  unfold lastSaved
  rw [List.filter_append]
  by_cases hp : h.giver = p
  · simp [hp]
  · simp [hp]

theorem lastSaved_eq_none_iff : lastSaved hs p = none ↔ ∀ y ∈ hs, y.giver ≠ p := by
  unfold lastSaved
  simp

/-- Every handover loads what the taker last stored. -/
def LoadsStored (init : P → X) (hs : List (Handover P X)) : Prop :=
  ∀ pre h post, hs = pre ++ h :: post → h.loaded = (lastSaved pre h.taker).getD (init h.taker)

theorem loadsStored_append (hs : List (Handover P X)) (h : Handover P X) :
    LoadsStored init (hs ++ [h]) ↔
      LoadsStored init hs ∧ h.loaded = (lastSaved hs h.taker).getD (init h.taker) := by
  constructor
  · intro hall
    refine ⟨fun pre x post heq => hall pre x (post ++ [h]) (by simp [heq]), hall hs h [] rfl⟩
  · rintro ⟨hall, hlast⟩ pre x post heq
    rcases List.eq_nil_or_concat' post with rfl | ⟨post, y, rfl⟩
    · obtain ⟨rfl, hx⟩ := List.append_inj' heq rfl
      obtain rfl := List.singleton_inj.mp hx
      exact hlast
    · have hsplit : hs ++ [h] = (pre ++ x :: post) ++ [y] := by simpa using heq
      exact hall pre x post (List.append_inj' hsplit rfl).1

/-- **The first value a party is handed is its initial one**, and every later one is what it last stored. -/
structure InitialThenLast (init : P → X) (hs : List (Handover P X)) : Prop where
  initial : ∀ pre h post, hs = pre ++ h :: post → (∀ x ∈ pre, x.taker ≠ h.taker) →
    h.loaded = init h.taker
  last : ∀ pre h post, hs = pre ++ h :: post → (∃ x ∈ pre, x.taker = h.taker) →
    lastSaved pre h.taker = some h.loaded

/-- The first holder has stored its value at the first handover only, until it is handed the resource. -/
theorem Passes.lastSaved_first {f : Handover P X} {rest : List (Handover P X)}
    (hp : Passes p (f :: rest)) (hback : ∀ x ∈ f :: rest, x.taker ≠ p) :
    lastSaved (f :: rest) p = some f.saved := by
  obtain ⟨hf, htaker, hrest⟩ := hp
  have hnone : rest.filter (·.giver = p) = [] := by
    refine List.filter_eq_nil_iff.mpr fun y hy => ?_
    simp only [decide_eq_true_eq]
    rintro rfl
    rcases hrest.giver_taken hy with heq | ⟨x, hx, hxy⟩
    · exact htaker heq.symm
    · exact hback x (List.mem_cons_of_mem f hx) hxy
  unfold lastSaved
  rw [List.filter_cons_of_pos (by simpa using hf), hnone]
  rfl

/-- **When the first value handed to each party is its initial one**: when the first holder is never
handed the resource again or has stored its initial value at the first handover. -/
theorem initialThenLast_iff (hp : Passes p hs) (hl : LoadsStored init hs) :
    InitialThenLast init hs ↔
      (∀ h ∈ hs, h.taker ≠ p) ∨ ∀ f rest, hs = f :: rest → f.saved = init p := by
  constructor
  · intro hspec
    by_cases hback : ∀ h ∈ hs, h.taker ≠ p
    · exact .inl hback
    · refine .inr fun f rest heq => ?_
      -- the first time the first holder is handed the resource
      cases hfind : hs.find? (·.taker = p) with
      | none => exact absurd (by simpa using hfind) hback
      | some h =>
          obtain ⟨htaker, pre, post, hsplit, hpre⟩ := List.find?_eq_some_iff_append.mp hfind
          have htaker : h.taker = p := by simpa using htaker
          have hpre : ∀ x ∈ pre, x.taker ≠ p := by simpa using hpre
          rw [hsplit] at hp
          obtain ⟨f', rest', rfl⟩ := hp.exists_first htaker
          have hfirst := (passes_append.mp hp).1.lastSaved_first hpre
          have hinit := hspec.initial _ h post hsplit (by rw [htaker]; exact hpre)
          rw [hl _ h post hsplit, htaker, hfirst] at hinit
          obtain ⟨rfl, _⟩ := List.cons.inj (heq.symm.trans hsplit)
          exact hinit
  · intro hfirst
    refine ⟨fun pre h post heq hnew => ?_, fun pre h post heq hold => ?_⟩
    · rw [hl pre h post heq]
      rw [heq] at hp
      have hpre := (passes_append.mp hp).1
      by_cases hback : h.taker = p
      · obtain ⟨f, rest, rfl⟩ := hp.exists_first hback
        rw [hback] at hnew ⊢
        rw [hpre.lastSaved_first hnew]
        refine hfirst.resolve_left (fun hnever => ?_) f _ heq
        exact hnever h (by simp [heq]) hback
      · have hnone : lastSaved pre h.taker = none := by
          refine lastSaved_eq_none_iff.mpr fun y hy hgiver => ?_
          rcases hpre.giver_taken hy with hyp | ⟨x, hx, hxy⟩
          · exact hback (hgiver.symm.trans hyp)
          · exact hnew x hx (hxy.trans hgiver)
        rw [hnone]
        rfl
    · have hloaded := hl pre h post heq
      rw [heq] at hp
      obtain ⟨hpre, _, hne, _⟩ := passes_append.mp hp
      obtain ⟨x, hx, hxh⟩ := hold
      obtain ⟨y, hy, hgiver⟩ := hpre.taker_gives hx (by rw [hxh]; exact hne.symm)
      cases hsaved : lastSaved pre h.taker with
      | none => exact absurd (hgiver.trans hxh) (lastSaved_eq_none_iff.mp hsaved y hy)
      | some v =>
          rw [hsaved] at hloaded
          exact congrArg some hloaded.symm

end Handover

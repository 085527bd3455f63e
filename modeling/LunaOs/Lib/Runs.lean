import Mathlib.Data.Nat.Notation
import Mathlib.Data.List.Induction

/-! # Runs of a deterministic step function

A system is a type of states `σ`, a type of inputs `ι` and one total step function
`step : σ → ι → σ`.  `run step s is` is the state after the inputs `is`.  Besides the state a
step may emit observations: `outputs step out s is` is the list of everything emitted along the
run, in order.  Ghost histories (the events accepted so far, the states in which something was
built) are outputs and never part of the state.

Two rules carry every proof about runs: `run_invariant` for a property of the state alone, and
`run_outputs_invariant` for a property that relates the state to the history that led to it.
`run_project` and `outputs_project` carry what is known of one system over to another that drives
it, `run_flatMap` and `outputs_flatMap` what is known of small steps to the operations they make up, `outputs_refines` to a coarser view of it, and `haltingRun_refines` a run that may halt to one that does
not. -/

namespace Runs

variable {σ τ ι κ ο ο' : Type*}

/-- The state reached from `s` by the inputs `is`. -/
def run (step : σ → ι → σ) (s : σ) (is : List ι) : σ := is.foldl step s

section
variable (step : σ → ι → σ) (out : σ → ι → List ο)

@[simp] theorem run_nil (s : σ) : run step s [] = s := rfl

@[simp] theorem run_cons (s : σ) (i : ι) (is : List ι) :
    run step s (i :: is) = run step (step s i) is := rfl

theorem run_append (s : σ) (is js : List ι) :
    run step s (is ++ js) = run step (run step s is) js := List.foldl_append

/-- Everything the run from `s` emits, in order. -/
def outputs : σ → List ι → List ο
  | _, [] => []
  | s, i :: is => out s i ++ outputs (step s i) is

@[simp] theorem outputs_nil (s : σ) : outputs step out s [] = [] := rfl

@[simp] theorem outputs_cons (s : σ) (i : ι) (is : List ι) :
    outputs step out s (i :: is) = out s i ++ outputs step out (step s i) is := rfl

theorem outputs_append (s : σ) (is js : List ι) :
    outputs step out s (is ++ js) =
      outputs step out s is ++ outputs step out (run step s is) js := by
  induction is generalizing s with
  | nil => rfl
  | cons i is ih => simp [ih, List.append_assoc]

theorem outputs_filter (q : ο → Bool) (s : σ) (is : List ι) :
    (outputs step out s is).filter q = outputs step (fun s i => (out s i).filter q) s is := by
  induction is generalizing s with
  | nil => rfl
  | cons i is ih => rw [outputs_cons, List.filter_append, ih, outputs_cons]

theorem mem_outputs {step : σ → ι → σ} {out : σ → ι → List ο} {s : σ} {is : List ι} {x : ο} :
    x ∈ outputs step out s is ↔
      ∃ pre i post, is = pre ++ i :: post ∧ x ∈ out (run step s pre) i := by
  induction is generalizing s with
  | nil => simp
  | cons i is ih =>
      rw [outputs_cons, List.mem_append, ih]
      constructor
      · rintro (h | ⟨pre, j, post, rfl, h⟩)
        · exact ⟨[], i, is, rfl, h⟩
        · exact ⟨i :: pre, j, post, rfl, h⟩
      · rintro ⟨pre, j, post, heq, h⟩
        cases pre with
        | nil =>
            obtain ⟨rfl, rfl⟩ := List.cons.inj heq
            exact .inl h
        | cons k pre =>
            obtain ⟨rfl, rfl⟩ := List.cons.inj heq
            exact .inr ⟨pre, j, post, rfl, h⟩

end

section
variable {step : σ → ι → σ} {out : σ → ι → List ο}

theorem run_invariant {Inv : σ → Prop} (hstep : ∀ s i, Inv s → Inv (step s i)) {s : σ}
    (h : Inv s) (is : List ι) : Inv (run step s is) := by
  induction is generalizing s with
  | nil => exact h
  | cons i is ih => exact ih (hstep s i h)

theorem run_outputs_invariant {Inv : σ → List ο → Prop}
    (hstep : ∀ s os i, Inv s os → Inv (step s i) (os ++ out s i)) {s : σ} {os : List ο}
    (h : Inv s os) (is : List ι) : Inv (run step s is) (os ++ outputs step out s is) := by
  induction is generalizing s os with
  | nil => simpa using h
  | cons i is ih => simpa [List.append_assoc] using ih (hstep s os i h)

/-- A run seen through `p`: if each step of one system is a run of another, so are its runs. -/
theorem run_project {step' : τ → κ → τ} {p : σ → τ} {ops : σ → ι → List κ}
    (hstep : ∀ s i, p (step s i) = run step' (p s) (ops s i)) (s : σ) (is : List ι) :
    p (run step s is) = run step' (p s) (outputs step ops s is) := by
  induction is generalizing s with
  | nil => rfl
  | cons i is ih => rw [run_cons, ih, hstep, outputs_cons, run_append]

theorem outputs_project {step' : τ → κ → τ} {out' : τ → κ → List ο'} {p : σ → τ}
    {ops : σ → ι → List κ} {g : ο → ο'}
    (hstep : ∀ s i, p (step s i) = run step' (p s) (ops s i))
    (hout : ∀ s i, (out s i).map g = outputs step' out' (p s) (ops s i)) (s : σ) (is : List ι) :
    (outputs step out s is).map g = outputs step' out' (p s) (outputs step ops s is) := by
  induction is generalizing s with
  | nil => rfl
  | cons i is ih =>
      rw [outputs_cons, List.map_append, hout, ih, hstep, outputs_cons, outputs_append]

theorem run_replicate {s : σ} {i : ι} (hstep : step s i = s) (n : ℕ) : run step s (List.replicate n i) = s := by
  induction n with
  | zero => rfl
  | succ n ih => rw [List.replicate_succ, run_cons, hstep, ih]

theorem outputs_replicate {s : σ} {i : ι} (hstep : step s i = s) (hout : out s i = []) (n : ℕ) :
    outputs step out s (List.replicate n i) = [] := by
  induction n with
  | zero => rfl
  | succ n ih => rw [List.replicate_succ, outputs_cons, hout, hstep, ih, List.append_nil]

/-- If each operation of one system is a run of another between states at rest, so are its runs. -/
theorem run_flatMap {step' : τ → κ → τ} {rest : τ → σ} {moves : κ → List ι}
    (hrun : ∀ t k, run step (rest t) (moves k) = rest (step' t k)) (t : τ) (ks : List κ) :
    run step (rest t) (ks.flatMap moves) = rest (run step' t ks) := by
  induction ks generalizing t with
  | nil => rfl
  | cons k ks ih => rw [List.flatMap_cons, run_append, hrun, ih, run_cons]

theorem outputs_flatMap {step' : τ → κ → τ} {out' : τ → κ → List ο} {rest : τ → σ} {moves : κ → List ι}
    (hrun : ∀ t k, run step (rest t) (moves k) = rest (step' t k))
    (hout : ∀ t k, outputs step out (rest t) (moves k) = out' t k) (t : τ) (ks : List κ) :
    outputs step out (rest t) (ks.flatMap moves) = outputs step' out' t ks := by
  induction ks generalizing t with
  | nil => rfl
  | cons k ks ih => rw [List.flatMap_cons, outputs_append, hout, hrun, ih, outputs_cons]

/-- `S l` says of a state that the inputs `l`, one after the other among any others, lead from it to `S []`.
`F` is what is known of the state and the inputs to come. -/
theorem run_of_sublist (step : σ → ι → σ) {F : σ → List ι → Prop} (hF : ∀ s i is, F s (i :: is) → F (step s i) is)
    {S : List ι → σ → Prop} (hkeep : ∀ l s i is, F s (i :: is) → S l s → S l (step s i))
    (hnext : ∀ l s i is, F s (i :: is) → S (i :: l) s → S l (step s i)) {l is : List ι}
    (h : l.Sublist is) {s : σ} (hfits : F s is) (hs : S l s) : S [] (run step s is) := by
  induction h generalizing s with
  | slnil => exact hs
  | cons i _ ih => exact ih (hF s i _ hfits) (hkeep _ s i _ hfits hs)
  | cons_cons i _ ih => exact ih (hF s i _ hfits) (hnext _ s i _ hfits hs)

/-- **Refinement**: if `p` carries every step of one system to a step of the other and `g` what is emitted,
it carries the outputs of runs. -/
theorem outputs_refines {step' : τ → ι → τ} {out' : τ → ι → List ο'} {p : σ → τ} {g : ο → ο'}
    (hstep : ∀ s i, p (step s i) = step' (p s) i) (hout : ∀ s i, (out s i).map g = out' (p s) i)
    (s : σ) (is : List ι) :
    (outputs step out s is).map g = outputs step' out' (p s) is := by
  induction is generalizing s with
  | nil => rfl
  | cons i is ih => rw [outputs_cons, List.map_append, hout, ih, hstep, outputs_cons]

end

/-! ### Runs that may halt -/

section
variable {step : σ → ι → Option σ}

/-- The state reached from `s` by the inputs `is`, `none` once a step halts the system. -/
def haltingRun (step : σ → ι → Option σ) : σ → List ι → Option σ
  | s, [] => some s
  | s, i :: is => (step s i).bind fun s' => haltingRun step s' is

@[simp] theorem haltingRun_nil (s : σ) : haltingRun step s [] = some s := rfl

theorem haltingRun_cons {s t : σ} {i : ι} {is : List ι} :
    haltingRun step s (i :: is) = some t ↔
      ∃ s', step s i = some s' ∧ haltingRun step s' is = some t := Option.bind_eq_some_iff

theorem haltingRun_invariant_of (Inv : σ → Prop) {allowed : ι → Prop}
    (hstep : ∀ s i s', Inv s → allowed i → step s i = some s' → Inv s') {s t : σ} (h : Inv s)
    {is : List ι} (his : ∀ i ∈ is, allowed i) (hrun : haltingRun step s is = some t) : Inv t := by
  induction is generalizing s with
  | nil => exact Option.some.inj hrun ▸ h
  | cons i is ih =>
      obtain ⟨s', hs', hrest⟩ := haltingRun_cons.mp hrun
      exact ih (hstep s i s' h (his i List.mem_cons_self) hs')
        (fun j hj => his j (List.mem_cons_of_mem _ hj)) hrest

theorem haltingRun_invariant {Inv : σ → Prop}
    (hstep : ∀ s i s', Inv s → step s i = some s' → Inv s') {s t : σ} (h : Inv s) {is : List ι}
    (hrun : haltingRun step s is = some t) : Inv t :=
  haltingRun_invariant_of Inv (fun s i s' hs _ => hstep s i s' hs) h
    (fun _ _ => trivial) hrun

theorem haltingRun_append {s t : σ} {is js : List ι} :
    haltingRun step s (is ++ js) = some t ↔
      ∃ s', haltingRun step s is = some s' ∧ haltingRun step s' js = some t := by
  induction is generalizing s with
  | nil => simp
  | cons i is ih =>
      rw [List.cons_append, haltingRun_cons]
      simp only [ih, haltingRun_cons]
      constructor
      · rintro ⟨s', hs', u, hu, ht⟩
        exact ⟨u, ⟨s', hs', hu⟩, ht⟩
      · rintro ⟨u, ⟨s', hs', hu⟩, ht⟩
        exact ⟨s', hs', u, hu, ht⟩

/-- **A run refines a run** of another system that never halts, if every allowed step goes through and keeps
the two related. -/
theorem haltingRun_refines {step' : τ → ι → τ} (R : σ → τ → Prop) {allowed : ι → Prop}
    (hstep : ∀ s t i, R s t → allowed i → ∃ s', step s i = some s' ∧ R s' (step' t i)) {s : σ} {t : τ}
    (h : R s t) {is : List ι} (his : ∀ i ∈ is, allowed i) :
    ∃ s', haltingRun step s is = some s' ∧ R s' (run step' t is) := by
  induction is generalizing s t with
  | nil => exact ⟨s, rfl, h⟩
  | cons i is ih =>
      obtain ⟨hi, hrest⟩ := List.forall_mem_cons.mp his
      obtain ⟨s', hs', hR⟩ := hstep s t i h hi
      obtain ⟨u, hu, hend⟩ := ih hR hrest
      exact ⟨u, haltingRun_cons.mpr ⟨s', hs', hu⟩, hend⟩

theorem haltingRun_history (Inv : List ι → σ → Prop) {s : σ}
    (hstep : ∀ is s i s', Inv is s → step s i = some s' → Inv (is ++ [i]) s') (h : Inv [] s)
    {t : σ} {is : List ι} (hrun : haltingRun step s is = some t) : Inv is t := by
  induction is using List.reverseRecOn generalizing t with
  | nil => exact Option.some.inj hrun ▸ h
  | append_singleton is i ih =>
      obtain ⟨u, hu, hlast⟩ := haltingRun_append.mp hrun
      obtain ⟨t', ht', hend⟩ := haltingRun_cons.mp hlast
      obtain rfl := Option.some.inj hend
      exact hstep is u i t' (ih hu) ht'

/-- `P` holds of every state the run reaches, together with the inputs that led there; `h` are those
before `s`. -/
def Throughout (step : σ → ι → Option σ) (P : List ι → σ → Prop) : List ι → σ → List ι → Prop
  | h, s, [] => P h s
  | h, s, i :: is => P h s ∧ ∀ s', step s i = some s' → Throughout step P (h ++ [i]) s' is

/-- `Q` holds of every step the run makes, a last one that halts excepted. -/
def EachStep (step : σ → ι → Option σ) (Q : σ → ι → Prop) : σ → List ι → Prop
  | _, [] => True
  | s, i :: is => ∀ s', step s i = some s' → Q s i ∧ EachStep step Q s' is

/-- A property that every step which meets `Q` preserves holds of every state reached by such steps. -/
theorem haltingRun_invariant_each (Inv : σ → Prop) {Q : σ → ι → Prop}
    (hstep : ∀ s i s', Inv s → Q s i → step s i = some s' → Inv s') {s t : σ} (h : Inv s)
    {is : List ι} (hQ : EachStep step Q s is) (hrun : haltingRun step s is = some t) : Inv t := by
  induction is generalizing s with
  | nil => exact Option.some.inj hrun ▸ h
  | cons i is ih =>
      obtain ⟨s', hs', hrest⟩ := haltingRun_cons.mp hrun
      obtain ⟨hQs, hQrest⟩ := hQ s' hs'
      exact ih (hstep s i s' h hQs hs') hQrest hrest

theorem Throughout.start {P : List ι → σ → Prop} {h : List ι} {s : σ} {is : List ι}
    (hthrough : Throughout step P h s is) : P h s := by
  cases is with
  | nil => exact hthrough
  | cons i is => exact hthrough.1

theorem eachStep_of_forall {allowed : ι → Prop} {s : σ} {is : List ι} (his : ∀ i ∈ is, allowed i) :
    EachStep step (fun _ => allowed) s is := by
  induction is generalizing s with
  | nil => trivial
  | cons i is ih =>
      exact fun s' _ => ⟨his i List.mem_cons_self, ih fun j hj => his j (List.mem_cons_of_mem _ hj)⟩

theorem EachStep.cons {Q : σ → ι → Prop} {s s' : σ} {i : ι} {is : List ι} (h : step s i = some s')
    (hQ : Q s i) (hrest : EachStep step Q s' is) : EachStep step Q s (i :: is) := by
  intro t ht
  obtain rfl := Option.some.inj (h.symm.trans ht)
  exact ⟨hQ, hrest⟩

theorem eachStep_congr {Q R : σ → ι → Prop} (hiff : ∀ s i s', step s i = some s' → (Q s i ↔ R s i)) {s : σ}
    {is : List ι} : EachStep step Q s is ↔ EachStep step R s is := by
  induction is generalizing s with
  | nil => exact Iff.rfl
  | cons i is ih => exact forall₂_congr fun s' hs' => and_congr (hiff s i s' hs') ih

/-- A property that each step keeps exactly if it meets a condition, on steps that meet `R`. -/
theorem throughout_iff_each (Inv : List ι → σ → Prop) {P : List ι → σ → Prop} {Q R : σ → ι → Prop}
    (hInv : ∀ h s i s', Inv h s → R s i → step s i = some s' → Inv (h ++ [i]) s')
    (hiff : ∀ h s i s', Inv h s → P h s → R s i → step s i = some s' → (P (h ++ [i]) s' ↔ Q s i))
    {h : List ι} {s : σ} (hs : Inv h s) (hP : P h s) {is : List ι} (hR : EachStep step R s is) :
    Throughout step P h s is ↔ EachStep step Q s is := by
  induction is generalizing h s with
  | nil => exact iff_of_true hP trivial
  | cons i is ih =>
      constructor
      · rintro ⟨_, hrest⟩ s' hs'
        obtain ⟨hi, hR'⟩ := hR s' hs'
        have hP' := (hrest s' hs').start
        exact ⟨(hiff h s i s' hs hP hi hs').mp hP',
          (ih (hInv h s i s' hs hi hs') hP' hR').mp (hrest s' hs')⟩
      · intro heach
        refine ⟨hP, fun s' hs' => ?_⟩
        obtain ⟨hi, hR'⟩ := hR s' hs'
        obtain ⟨hQ, hrest⟩ := heach s' hs'
        exact (ih (hInv h s i s' hs hi hs') ((hiff h s i s' hs hP hi hs').mpr hQ) hR').mpr hrest

/-- **A property that each step keeps exactly if it meets a condition** holds throughout a run exactly
if every step meets it. -/
theorem throughout_iff (Inv : List ι → σ → Prop) {P : List ι → σ → Prop} {Q : σ → ι → Prop} {allowed : ι → Prop}
    (hInv : ∀ h s i s', Inv h s → allowed i → step s i = some s' → Inv (h ++ [i]) s')
    (hiff : ∀ h s i s', Inv h s → P h s → allowed i → step s i = some s' →
      (P (h ++ [i]) s' ↔ Q s i))
    {h : List ι} {s : σ} (hs : Inv h s) (hP : P h s) {is : List ι} (his : ∀ i ∈ is, allowed i) :
    Throughout step P h s is ↔ EachStep step Q s is :=
  throughout_iff_each Inv hInv hiff hs hP (eachStep_of_forall his)

/-- A property that follows from an invariant of the steps that meet `Q`. -/
theorem throughout_of_each (Inv : List ι → σ → Prop) {P : List ι → σ → Prop} {Q : σ → ι → Prop}
    (hInv : ∀ h s i s', Inv h s → Q s i → step s i = some s' → Inv (h ++ [i]) s')
    (hP : ∀ h s, Inv h s → P h s) {h : List ι} {s : σ} (hs : Inv h s) {is : List ι}
    (hQ : EachStep step Q s is) : Throughout step P h s is := by
  induction is generalizing h s with
  | nil => exact hP h s hs
  | cons i is ih =>
      refine ⟨hP h s hs, fun s' hs' => ?_⟩
      obtain ⟨hQi, hrest⟩ := hQ s' hs'
      exact ih (hInv h s i s' hs hQi hs') hrest

/-- A condition that a step meets if it leads to a state with `P`; the invariant is kept by the steps
that meet it. -/
theorem Throughout.eachStep (Inv : List ι → σ → Prop) {P : List ι → σ → Prop} {Q : σ → ι → Prop}
    (hInv : ∀ h s i s', Inv h s → Q s i → step s i = some s' → Inv (h ++ [i]) s')
    (hQ : ∀ h s i s', Inv h s → step s i = some s' → P (h ++ [i]) s' → Q s i) {h : List ι} {s : σ}
    (hs : Inv h s) {is : List ι} (hP : Throughout step P h s is) : EachStep step Q s is := by
  induction is generalizing h s with
  | nil => trivial
  | cons i is ih =>
      intro s' hs'
      have hrest := hP.2 s' hs'
      have hQi := hQ h s i s' hs hs' hrest.start
      exact ⟨hQi, ih (hInv h s i s' hs hQi hs') hrest⟩

theorem EachStep.mono_of (Inv : σ → Prop) {Q R : σ → ι → Prop}
    (hInv : ∀ s i s', Inv s → Q s i → step s i = some s' → Inv s')
    (hR : ∀ s i s', Inv s → Q s i → step s i = some s' → R s i) {s : σ} (hs : Inv s) {is : List ι}
    (hQ : EachStep step Q s is) : EachStep step R s is := by
  induction is generalizing s with
  | nil => trivial
  | cons i is ih =>
      intro s' hs'
      obtain ⟨hQi, hrest⟩ := hQ s' hs'
      exact ⟨hR s i s' hs hQi hs', ih (hInv s i s' hs hQi hs') hrest⟩

/-- A property that each step keeps between states that meet `P`, on steps that meet `R`. -/
theorem Throughout.keeps {P T : List ι → σ → Prop} {R : σ → ι → Prop}
    (hstep : ∀ h s i s', P h s → P (h ++ [i]) s' → T h s → R s i → step s i = some s' →
      T (h ++ [i]) s')
    {h : List ι} {s : σ} {is : List ι} (hthrough : Throughout step P h s is) (hs : T h s)
    (hR : EachStep step R s is) : Throughout step T h s is := by
  induction is generalizing h s with
  | nil => exact hs
  | cons i is ih =>
      refine ⟨hs, fun s' hs' => ?_⟩
      obtain ⟨hi, hR'⟩ := hR s' hs'
      have hrest := hthrough.2 s' hs'
      exact ih hrest (hstep h s i s' hthrough.1 hrest.start hs hi hs') hR'

theorem Throughout.and {P P' : List ι → σ → Prop} {h : List ι} {s : σ} {is : List ι}
    (hP : Throughout step P h s is) (hP' : Throughout step P' h s is) :
    Throughout step (fun h s => P h s ∧ P' h s) h s is := by
  induction is generalizing h s with
  | nil => exact ⟨hP, hP'⟩
  | cons i is ih => exact ⟨⟨hP.1, hP'.1⟩, fun s' hs' => ih (hP.2 s' hs') (hP'.2 s' hs')⟩

theorem Throughout.mono {P P' : List ι → σ → Prop} (himp : ∀ h s, P h s → P' h s) {h : List ι}
    {s : σ} {is : List ι} (hP : Throughout step P h s is) : Throughout step P' h s is := by
  induction is generalizing h s with
  | nil => exact himp h s hP
  | cons i is ih => exact ⟨himp h s hP.1, fun s' hs' => ih (hP.2 s' hs')⟩

end

end Runs

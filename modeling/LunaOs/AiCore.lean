import LunaOs.Printf

/-! # The fusion of the two engines, `kernel/ai/ai_core.c`

`ai_query` asks the explicit engine and, on a desktop or mobile build, the neural core, and returns the
text of one of them or a text composed of both.  The engines are not part of the repository: they are
functions from a query to a response and a confidence, and the sizes of the buffers in their queries
are theirs too. -/

namespace LunaOs

def AI_RESPONSE_BUF_SIZE : ℕ := 2048

inductive QueryClass where
  | simulation
  | security
  | forensic
  | language
  | general
deriving DecidableEq

inductive AiSource where
  | explicit
  | neural
deriving DecidableEq

/-- What one engine contributes to the answer: `AIPartialResult`. -/
structure AIPartialResult where
  text : Vector UInt8 AI_RESPONSE_BUF_SIZE
  confidencePct : UInt32
  source : AiSource

/-- What the explicit engine is asked, with the array that holds the input. -/
structure ExplicitQuery (size : ℕ) (Ctx : Type) where
  input : Vector UInt8 size
  queryClass : QueryClass
  contextPtr : Ctx

structure NeuralQuery (size : ℕ) (Ctx : Type) where
  prompt : Vector UInt8 size
  maxTokens : UInt32
  temperature : UInt32
  contextPtr : Ctx

/-- `ExplicitResult` and `NeuralResult`; `response` is the text at `er.response`. -/
structure EngineResult where
  response : ConstPtr
  confidencePct : UInt32

/-- The two engines, any functions of what they are asked. -/
structure AiEngines (Ctx : Type) where
  inputSize : ℕ
  promptSize : ℕ
  explicitEvaluate : ExplicitQuery inputSize Ctx → EngineResult
  neuralInfer : NeuralQuery promptSize Ctx → EngineResult

/-- What the buffers of the two queries hold before they are written. -/
structure AiStack {Ctx : Type} (m : AiEngines Ctx) where
  input : Vector UInt8 m.inputSize
  prompt : Vector UInt8 m.promptSize

/-! ### Classification -/

/-- `luna_strstr(input, keyword)` as a condition. -/
def contains (input keyword : CString) : Bool := (lunaStrstr input keyword).isSome

/-- The first list with a word that occurs in the input decides. -/
def classifyQuery (input : CString) : QueryClass :=
  if contains input (literal "simulate") || contains input (literal "agent") ||
      contains input (literal "world") || contains input (literal "constraint") then .simulation
  else if contains input (literal "net") || contains input (literal "scan") ||
      contains input (literal "port") || contains input (literal "packet") then .security
  else if contains input (literal "file") || contains input (literal "disk") ||
      contains input (literal "forensic") || contains input (literal "hash") then .forensic
  else if contains input (literal "explain") || contains input (literal "what is") ||
      contains input (literal "how do") || contains input (literal "tell me") then .language
  else .general

/-- The weight of the explicit engine, in percent. -/
def explicitWeight : QueryClass → UInt32
  | .simulation | .security | .forensic => 75
  | .language | .general => 25

def neuralWeight : QueryClass → UInt32
  | .simulation | .security | .forensic => 25
  | .language | .general => 75

/-! ### The query -/

section
variable {Ctx : Type} (m : AiEngines Ctx) (stack : AiStack m) (input : CString) (ctx : Ctx)

/-- What `explicit_evaluate` returns for the query. -/
def explicitResponse : EngineResult :=
  m.explicitEvaluate
    { input := lunaStrncpy stack.input input.ptr (m.inputSize - 1)
      queryClass := classifyQuery input
      contextPtr := ctx }

/-- What `neural_infer` returns for the query. -/
def neuralResponse : EngineResult :=
  m.neuralInfer
    { prompt := lunaStrncpy stack.prompt input.ptr (m.promptSize - 1)
      maxTokens := 256
      temperature := 70
      contextPtr := ctx }

/-- A zeroed `AIPartialResult` that takes over a response. -/
def partialResult (r : EngineResult) (source : AiSource) : AIPartialResult where
  text := lunaStrncpy (Vector.replicate AI_RESPONSE_BUF_SIZE 0) r.response (AI_RESPONSE_BUF_SIZE - 1)
  confidencePct := r.confidencePct
  source := source

/-- The text of a partial result as an argument for `%s`. -/
def AIPartialResult.arg (r : AIPartialResult) : VaArg :=
  .str (some (textAt (arrayPtr r.text) AI_RESPONSE_BUF_SIZE))

/-- The fusion layer: the new contents of `ai_response_buf`. -/
def fuse (buf : Vector UInt8 AI_RESPONSE_BUF_SIZE) (qclass : QueryClass)
    (explicit neural : AIPartialResult) : Option (Vector UInt8 AI_RESPONSE_BUF_SIZE) :=
  let explicitScore := explicit.confidencePct * explicitWeight qclass / 100
  let neuralScore := neural.confidencePct * neuralWeight qclass / 100
  if explicitScore ≥ neuralScore then
    if neural.confidencePct > 60 ∧ qclass = .language then
      (lunaSnprintf buf AI_RESPONSE_BUF_SIZE (literal "[Verified] %s\n[Context] %s")
        [explicit.arg, neural.arg]).map Prod.snd
    else some (lunaStrncpy buf (arrayPtr explicit.text) (AI_RESPONSE_BUF_SIZE - 1))
  else if explicit.confidencePct = 0 then
    (lunaSnprintf buf AI_RESPONSE_BUF_SIZE (literal "[CONSTRAINT BLOCKED] %s")
      [neural.arg]).map Prod.snd
  else some (lunaStrncpy buf (arrayPtr neural.text) (AI_RESPONSE_BUF_SIZE - 1))

/-- The string that is returned and the new `ai_response_buf`; `iotMode` says whether
`LUNA_AI_IOT_MODE` is defined, and an input that is `none` is `NULL`. -/
def aiQuery (iotMode : Bool) (buf : Vector UInt8 AI_RESPONSE_BUF_SIZE) (input : Option CString) :
    Option (CString × Vector UInt8 AI_RESPONSE_BUF_SIZE) :=
  match input with
  | none => some (literal "[AI] Empty query", buf)
  | some input =>
      if input.ptr 0 = 0 then some (literal "[AI] Empty query", buf)
      else
        let explicit := partialResult (explicitResponse m stack input ctx) .explicit
        let filled :=
          if iotMode then some (lunaStrncpy buf (arrayPtr explicit.text) (AI_RESPONSE_BUF_SIZE - 1))
          else fuse buf (classifyQuery input) explicit
            (partialResult (neuralResponse m stack input ctx) .neural)
        filled.map fun buf =>
          let buf := buf.set (AI_RESPONSE_BUF_SIZE - 1) 0
          (textAt (arrayPtr buf) AI_RESPONSE_BUF_SIZE, buf)

end

/-! ### Classes -/

/-- The keywords of the classes in which the explicit engine weighs more. -/
def factualKeywords : List CString :=
  [literal "simulate", literal "agent", literal "world", literal "constraint",
    literal "net", literal "scan", literal "port", literal "packet",
    literal "file", literal "disk", literal "forensic", literal "hash"]

@[simp] theorem contains_eq_true {input keyword : CString} :
    contains input keyword = true ↔ keyword.chars <:+: input.chars := lunaStrstr_isSome

theorem contains_or {input a b c d : CString} :
    (contains input a || contains input b || contains input c || contains input d) = true ↔
      ∃ keyword ∈ [a, b, c, d], keyword.chars <:+: input.chars := by
  simp [or_assoc]

theorem classifyQuery_factual (input : CString) :
    explicitWeight (classifyQuery input) = 75 ↔
      ∃ keyword ∈ factualKeywords, keyword.chars <:+: input.chars := by
  have hgroups : factualKeywords =
      [literal "simulate", literal "agent", literal "world", literal "constraint"] ++
        ([literal "net", literal "scan", literal "port", literal "packet"] ++
          [literal "file", literal "disk", literal "forensic", literal "hash"]) := rfl
  unfold classifyQuery
  simp only [hgroups, contains_or, List.mem_append, or_and_right, exists_or]
  split_ifs with hsimulation hsecurity hforensic
  · exact iff_of_true rfl (.inl hsimulation)
  · exact iff_of_true rfl (.inr (.inl hsecurity))
  · exact iff_of_true rfl (.inr (.inr hforensic))
  all_goals
    refine iff_of_false (by decide) ?_
    rintro (h | h | h)
    · exact hsimulation h
    · exact hsecurity h
    · exact hforensic h

/-- The weights of a query that is not factual. -/
theorem weights_not_factual {qclass : QueryClass} (h : explicitWeight qclass ≠ 75) :
    explicitWeight qclass = 25 ∧ neuralWeight qclass = 75 := by
  cases qclass <;> simp_all [explicitWeight, neuralWeight]

theorem weights_factual {qclass : QueryClass} (h : explicitWeight qclass = 75) :
    neuralWeight qclass = 25 ∧ qclass ≠ .language := by
  cases qclass <;> simp_all [explicitWeight, neuralWeight]

/-! ### Texts -/

/-- The part of a response that fits the response buffer. -/
def EngineResult.text (r : EngineResult) : CString := textAt r.response (AI_RESPONSE_BUF_SIZE - 1)

theorem textAt_partialResult (r : EngineResult) (source : AiSource) :
    textAt (arrayPtr (partialResult r source).text) AI_RESPONSE_BUF_SIZE = r.text := by
  have hend : arrayPtr (partialResult r source).text (AI_RESPONSE_BUF_SIZE - 1) = 0 := by
    unfold partialResult
    rw [arrayPtr_lunaStrncpy _ _ _ (by decide), if_neg (Nat.lt_irrefl _), arrayPtr_lt _ (by decide),
      Vector.getElem_replicate]
  exact (textAt_succ hend).trans (textAt_lunaStrncpy _ _ (by decide))

theorem arg_partialResult (r : EngineResult) (source : AiSource) :
    (partialResult r source).arg = .str (some r.text) := by
  unfold AIPartialResult.arg
  rw [textAt_partialResult]

/-- A partial result that is copied into the buffer. -/
theorem textAt_copied (buf : Vector UInt8 AI_RESPONSE_BUF_SIZE) (r : EngineResult) (source : AiSource) :
    textAt (arrayPtr (lunaStrncpy buf (arrayPtr (partialResult r source).text)
      (AI_RESPONSE_BUF_SIZE - 1))) (AI_RESPONSE_BUF_SIZE - 1) = r.text := by
  rw [textAt_lunaStrncpy _ _ (by decide)]
  unfold partialResult
  exact textAt_lunaStrncpy _ _ (by decide)

theorem textAt_terminated (buf : Vector UInt8 AI_RESPONSE_BUF_SIZE) :
    textAt (arrayPtr (buf.set (AI_RESPONSE_BUF_SIZE - 1) 0)) AI_RESPONSE_BUF_SIZE =
      textAt (arrayPtr buf) (AI_RESPONSE_BUF_SIZE - 1) := by
  have hend : arrayPtr (buf.set (AI_RESPONSE_BUF_SIZE - 1) 0) (AI_RESPONSE_BUF_SIZE - 1) = 0 := by
    rw [arrayPtr_lt _ (by decide), Vector.getElem_set_self]
  refine (textAt_succ hend).trans (textAt_congr fun i hi => ?_)
  have hlt : i < AI_RESPONSE_BUF_SIZE := by omega
  rw [arrayPtr_lt _ hlt, arrayPtr_lt _ hlt, Vector.getElem_set_ne _ _ (by omega)]

/-- `"[Verified] %s\n[Context] %s"` -/
def composedText (explicit neural : CString) : List UInt8 :=
  ascii "[Verified] " ++ (explicit.chars ++ (ascii "\n[Context] " ++ neural.chars))

/-- `"[CONSTRAINT BLOCKED] %s"` -/
def blockedText (neural : CString) : List UInt8 := ascii "[CONSTRAINT BLOCKED] " ++ neural.chars

theorem produces_composed (explicit neural : CString) :
    Produces AI_RESPONSE_BUF_SIZE (literal "[Verified] %s\n[Context] %s").chars
      [.str (some explicit), .str (some neural)] (composedText explicit neural) := by
  have hend : Produces AI_RESPONSE_BUF_SIZE [] [] [] := produces_nil
  have hneural := hend.str neural
  have hcontext := hneural.literal (l := ascii "\n[Context] ") (ne_of_all (by decide))
  have hverified := (hcontext.str explicit).literal (l := ascii "[Verified] ") (ne_of_all (by decide))
  rw [List.append_nil] at hverified
  exact hverified

theorem produces_blocked (neural : CString) :
    Produces AI_RESPONSE_BUF_SIZE (literal "[CONSTRAINT BLOCKED] %s").chars [.str (some neural)]
      (blockedText neural) := by
  have hend : Produces AI_RESPONSE_BUF_SIZE [] [] [] := produces_nil
  have hneural := hend.str neural
  have hblocked := hneural.literal (l := ascii "[CONSTRAINT BLOCKED] ") (ne_of_all (by decide))
  rw [List.append_nil] at hblocked
  exact hblocked

/-! ### What a query returns -/

/-- The text the fusion layer leaves in the buffer. -/
def fusedText (qclass : QueryClass) (e n : EngineResult) : List UInt8 :=
  if e.confidencePct * explicitWeight qclass / 100 ≥ n.confidencePct * neuralWeight qclass / 100 then
    if n.confidencePct > 60 ∧ qclass = .language then
      (composedText e.text n.text).take (AI_RESPONSE_BUF_SIZE - 1)
    else e.text.chars
  else if e.confidencePct = 0 then (blockedText n.text).take (AI_RESPONSE_BUF_SIZE - 1)
  else n.text.chars

theorem composedText_nonzero (e n : CString) : ∀ c ∈ composedText e n, c ≠ 0 := by
  have hverified : ∀ c ∈ ascii "[Verified] ", c ≠ 0 := ne_of_all (by decide)
  have hcontext : ∀ c ∈ ascii "\n[Context] ", c ≠ 0 := ne_of_all (by decide)
  intro c hc
  simp only [composedText, List.mem_append] at hc
  rcases hc with h | h | h | h
  · exact hverified c h
  · exact e.nonzero c h
  · exact hcontext c h
  · exact n.nonzero c h

theorem blockedText_nonzero (n : CString) : ∀ c ∈ blockedText n, c ≠ 0 := by
  have hblocked : ∀ c ∈ ascii "[CONSTRAINT BLOCKED] ", c ≠ 0 := ne_of_all (by decide)
  intro c hc
  rcases List.mem_append.mp hc with h | h
  · exact hblocked c h
  · exact n.nonzero c h

theorem fuse_text (buf : Vector UInt8 AI_RESPONSE_BUF_SIZE) (qclass : QueryClass) (e n : EngineResult) :
    ∃ buf', fuse buf qclass (partialResult e .explicit) (partialResult n .neural) = some buf' ∧
      (textAt (arrayPtr buf') (AI_RESPONSE_BUF_SIZE - 1)).chars = fusedText qclass e n := by
  have hprinted : ∀ (fmt : CString) (args : List VaArg) (t : List UInt8), (∀ c ∈ t, c ≠ 0) →
      Produces AI_RESPONSE_BUF_SIZE fmt.chars args t →
      ∃ buf', (lunaSnprintf buf AI_RESPONSE_BUF_SIZE fmt args).map Prod.snd = some buf' ∧
        (textAt (arrayPtr buf') (AI_RESPONSE_BUF_SIZE - 1)).chars = t.take (AI_RESPONSE_BUF_SIZE - 1) := by
    intro fmt args t ht hproduces
    obtain ⟨r, hr, _, htext⟩ := lunaSnprintf_text hproduces buf (by decide) le_rfl ht
    exact ⟨r.2, by rw [hr]; rfl, htext _ le_rfl⟩
  unfold fuse fusedText
  simp only [arg_partialResult]
  have he : (partialResult e .explicit).confidencePct = e.confidencePct := rfl
  have hn : (partialResult n .neural).confidencePct = n.confidencePct := rfl
  rw [he, hn]
  split_ifs
  · exact hprinted _ _ _ (composedText_nonzero _ _) (produces_composed _ _)
  · exact ⟨_, rfl, by rw [textAt_copied]⟩
  · exact hprinted _ _ _ (blockedText_nonzero _) (produces_blocked _)
  · exact ⟨_, rfl, by rw [textAt_copied]⟩

section
variable {Ctx : Type} (m : AiEngines Ctx) (stack : AiStack m) (ctx : Ctx)

/-- **The text of a query** depends on the buffer and on the stack through the engines alone. -/
theorem aiQuery_text (buf : Vector UInt8 AI_RESPONSE_BUF_SIZE) {input : CString}
    (hinput : input.chars ≠ []) :
    ∃ text buf', aiQuery m stack ctx false buf (some input) = some (text, buf') ∧
      text.chars = fusedText (classifyQuery input) (explicitResponse m stack input ctx)
        (neuralResponse m stack input ctx) := by
  have hfirst : input.ptr 0 ≠ 0 := by
    rw [ne_eq, input.ptr_eq_zero_iff, Nat.le_zero, List.length_eq_zero_iff]
    exact hinput
  obtain ⟨buf', hbuf', htext⟩ := fuse_text buf (classifyQuery input)
    (explicitResponse m stack input ctx) (neuralResponse m stack input ctx)
  have hquery : aiQuery m stack ctx false buf (some input) =
      some (textAt (arrayPtr (buf'.set (AI_RESPONSE_BUF_SIZE - 1) 0)) AI_RESPONSE_BUF_SIZE,
        buf'.set (AI_RESPONSE_BUF_SIZE - 1) 0) := by
    unfold aiQuery
    dsimp only
    rw [if_neg hfirst, if_neg Bool.false_ne_true, hbuf']
    rfl
  exact ⟨_, _, hquery, by rw [textAt_terminated, htext]⟩

end

/-! ### Confidences in percent -/

theorem score_toNat {c w : UInt32} (hc : c ≤ 100) (hw : w ≤ 75) :
    (c * w / 100).toNat = c.toNat * w.toNat / 100 := by
  have hc : c.toNat ≤ 100 := hc
  have hw : w.toNat ≤ 75 := hw
  have hprod : c.toNat * w.toNat ≤ 100 * 75 := Nat.mul_le_mul hc hw
  have hsize : (100 : UInt32).toNat = 100 := rfl
  rw [UInt32.toNat_div, UInt32.toNat_mul, hsize, Nat.mod_eq_of_lt (by omega)]

section
variable {qclass : QueryClass} {e n : EngineResult}

theorem explicitWeight_le (qclass : QueryClass) : explicitWeight qclass ≤ 75 := by
  cases qclass <;> decide

theorem neuralWeight_le (qclass : QueryClass) : neuralWeight qclass ≤ 75 := by
  cases qclass <;> decide

/-- No answer is composed: a confident neural result to a language query outweighs every explicit one. -/
theorem fusedText_eq (he : e.confidencePct ≤ 100) (hn : n.confidencePct ≤ 100) :
    fusedText qclass e n =
      if n.confidencePct.toNat * (neuralWeight qclass).toNat / 100 ≤
          e.confidencePct.toNat * (explicitWeight qclass).toNat / 100 then e.text.chars
      else if e.confidencePct = 0 then (blockedText n.text).take (AI_RESPONSE_BUF_SIZE - 1)
      else n.text.chars := by
  have hscores : e.confidencePct * explicitWeight qclass / 100 ≥
        n.confidencePct * neuralWeight qclass / 100 ↔
      n.confidencePct.toNat * (neuralWeight qclass).toNat / 100 ≤
        e.confidencePct.toNat * (explicitWeight qclass).toNat / 100 := by
    rw [ge_iff_le, UInt32.le_iff_toNat_le, score_toNat he (explicitWeight_le _),
      score_toNat hn (neuralWeight_le _)]
  unfold fusedText
  simp only [hscores]
  split_ifs with hscore hcomposed
  · -- the composed answer
    obtain ⟨hconf, rfl⟩ := hcomposed
    have hconf : 60 < n.confidencePct.toNat := hconf
    have he : e.confidencePct.toNat ≤ 100 := he
    have hweights : (explicitWeight .language).toNat = 25 ∧ (neuralWeight .language).toNat = 75 :=
      ⟨rfl, rfl⟩
    rw [hweights.1, hweights.2] at hscore
    omega
  all_goals rfl

/-- What an explicit result of full confidence comes to. -/
theorem fusedText_certain (he : e.confidencePct = 100) (hn : n.confidencePct ≤ 100) :
    fusedText qclass e n =
      if explicitWeight qclass = 75 ∨ n.confidencePct ≤ 34 then e.text.chars else n.text.chars := by
  have hzero : ¬ e.confidencePct = 0 := by
    rw [he]
    decide
  have hnat : e.confidencePct.toNat = 100 := by
    rw [he]
    rfl
  have hle : n.confidencePct.toNat ≤ 100 := hn
  have hcertain : e.confidencePct ≤ 100 := by
    rw [he]
    decide
  rw [fusedText_eq hcertain hn, if_neg hzero, hnat]
  by_cases hfactual : explicitWeight qclass = 75
  · have hneural : (neuralWeight qclass).toNat = 25 := by
      rw [(weights_factual hfactual).1]
      rfl
    have hexplicit : (explicitWeight qclass).toNat = 75 := by
      rw [hfactual]
      rfl
    have hscore : n.confidencePct.toNat * (neuralWeight qclass).toNat / 100 ≤
        100 * (explicitWeight qclass).toNat / 100 := by
      rw [hneural, hexplicit]
      omega
    rw [if_pos hscore, if_pos (.inl hfactual)]
  · obtain ⟨hexplicit, hneural⟩ := weights_not_factual hfactual
    rw [hexplicit, hneural]
    have hiff : n.confidencePct.toNat * (75 : UInt32).toNat / 100 ≤ 100 * (25 : UInt32).toNat / 100 ↔
        n.confidencePct ≤ 34 := by
      have h25 : (25 : UInt32).toNat = 25 := rfl
      have h75 : (75 : UInt32).toNat = 75 := rfl
      have h34 : (34 : UInt32).toNat = 34 := rfl
      rw [UInt32.le_iff_toNat_le, h25, h75, h34]
      omega
    simp only [hiff, show ¬ (25 : UInt32) = 75 by decide, false_or]

end

/-! ### The last word -/

/-- The text is the explicit engine's, alone or as the verified part of a composed answer. -/
def Authoritative (explicit neural : CString) (text : List UInt8) : Prop :=
  text = explicit.chars ∨ text = (composedText explicit neural).take (AI_RESPONSE_BUF_SIZE - 1)

section
variable {Ctx : Type} (m : AiEngines Ctx) (stack : AiStack m) (ctx : Ctx)

/-- The explicit engine has the last word in a query. -/
def LastWord (buf : Vector UInt8 AI_RESPONSE_BUF_SIZE) (input : CString) : Prop :=
  ∃ text buf', aiQuery m stack ctx false buf (some input) = some (text, buf') ∧
    Authoritative (explicitResponse m stack input ctx).text (neuralResponse m stack input ctx).text
      text.chars

theorem lastWord_iff_fused (buf : Vector UInt8 AI_RESPONSE_BUF_SIZE) {input : CString}
    (hinput : input.chars ≠ []) :
    LastWord m stack ctx buf input ↔
      Authoritative (explicitResponse m stack input ctx).text (neuralResponse m stack input ctx).text
        (fusedText (classifyQuery input) (explicitResponse m stack input ctx)
          (neuralResponse m stack input ctx)) := by
  obtain ⟨text, buf', hquery, htext⟩ := aiQuery_text m stack ctx buf hinput
  constructor
  · rintro ⟨text', buf'', hquery', hauth⟩
    rw [hquery] at hquery'
    obtain ⟨rfl, rfl⟩ := Prod.mk.inj (Option.some.inj hquery')
    rwa [htext] at hauth
  · intro hauth
    exact ⟨text, buf', hquery, by rwa [htext]⟩

/-- **Who has the last word**: an explicit result of full confidence is returned exactly if the query
holds a keyword of a factual class, the neural core is at most 34 % confident, or its text is no other. -/
theorem explicit_lastWord_iff (buf : Vector UInt8 AI_RESPONSE_BUF_SIZE) (input : CString)
    (hinput : input.chars ≠ []) (he : (explicitResponse m stack input ctx).confidencePct = 100)
    (hn : (neuralResponse m stack input ctx).confidencePct ≤ 100) :
    LastWord m stack ctx buf input ↔
      (∃ keyword ∈ factualKeywords, keyword.chars <:+: input.chars) ∨
      (neuralResponse m stack input ctx).confidencePct ≤ 34 ∨
      Authoritative (explicitResponse m stack input ctx).text
        (neuralResponse m stack input ctx).text (neuralResponse m stack input ctx).text.chars := by
  rw [lastWord_iff_fused m stack ctx buf hinput, fusedText_certain he hn, ← classifyQuery_factual,
    ← or_assoc]
  split_ifs with hexplicit
  · exact iff_of_true (.inl rfl) (.inl hexplicit)
  · simp only [hexplicit, false_or]

end

/-- Engines that always answer the same. -/
def constantEngines (e n : EngineResult) : AiEngines Unit where
  inputSize := 256
  promptSize := 256
  explicitEvaluate _ := e
  neuralInfer _ := n

def constantStack (e n : EngineResult) : AiStack (constantEngines e n) where
  input := Vector.replicate 256 0
  prompt := Vector.replicate 256 0

/-- An explicit "no" and a neural "yes", both certain. -/
def denied : EngineResult := ⟨(literal "no").ptr, 100⟩

def allowed : EngineResult := ⟨(literal "yes").ptr, 100⟩

theorem explicit_lastWord_scan :
    LastWord (constantEngines denied allowed) (constantStack denied allowed) ()
        (Vector.replicate AI_RESPONSE_BUF_SIZE 0) (literal "scan it") :=
  (explicit_lastWord_iff (constantEngines denied allowed) (constantStack denied allowed) ()
    (Vector.replicate AI_RESPONSE_BUF_SIZE 0) (literal "scan it") (by decide) rfl (by decide)).mpr
      (.inl ⟨literal "scan", by decide, by decide⟩)

/-- To a question of no class the neural core alone answers. -/
theorem explicit_lastWord_overruled :
    ¬ LastWord (constantEngines denied allowed) (constantStack denied allowed) ()
        (Vector.replicate AI_RESPONSE_BUF_SIZE 0) (literal "erase it") := by
  have hdenied : denied.text = literal "no" := textAt_ptr (by decide)
  have hallowed : allowed.text = literal "yes" := textAt_ptr (by decide)
  have hweight : ¬ (explicitWeight (classifyQuery (literal "erase it")) = 75 ∨
      allowed.confidencePct ≤ 34) := by decide
  rw [lastWord_iff_fused _ _ _ _ (by decide)]
  change ¬ Authoritative denied.text allowed.text (fusedText _ denied allowed)
  rw [fusedText_certain rfl (by decide), if_neg hweight, hdenied, hallowed]
  unfold Authoritative
  decide

end LunaOs

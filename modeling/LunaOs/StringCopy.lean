import LunaOs.Strtok

/-! # Copying strings between objects, `luna_strncpy` and `luna_strcat` of `kernel/string.c`

Objects are lists of bytes, as for `luna_strtok`: a read or write outside is a fault, `none`. -/

namespace LunaOs

/-- `obj[i] = b;` -/
def store (obj : List UInt8) (i : ℕ) (b : UInt8) : Option (List UInt8) :=
  if i < obj.length then some (obj.set i b) else none

/-- `for (; i < n; i++) dst[i] = '\0';` with `r = n - i` turns left. -/
def strncpyPadInto : ℕ → ℕ → List UInt8 → Option (List UInt8)
  | 0, _, dst => some dst
  | r + 1, i, dst => do
      let dst ← store dst i 0
      strncpyPadInto r (i + 1) dst

/-- `for (i = 0; i < n && src[i]; i++) dst[i] = src[i];` with `r = n - i` turns left, over the bytes of
the source from `src[i]` on, and the loop behind it. -/
def strncpyCopyInto : ℕ → List UInt8 → ℕ → List UInt8 → Option (List UInt8)
  | 0, _, _, dst => some dst
  | _ + 1, [], _, _ => none
  | r + 1, c :: src, i, dst =>
      if c ≠ 0 then do
        let dst ← store dst i c
        strncpyCopyInto r src (i + 1) dst
      else strncpyPadInto (r + 1) i dst

/-- `luna_strncpy` into an object. -/
def strncpyInto (dst src : List UInt8) (n : ℕ) : Option (List UInt8) := strncpyCopyInto n src 0 dst

/-- `while ((*d++ = *src++));` with `d` at offset `i`. -/
def strcatLoop : List UInt8 → ℕ → List UInt8 → Option (List UInt8)
  | [], _, _ => none
  | c :: src, i, dst => do
      let dst ← store dst i c
      if c = 0 then some dst else strcatLoop src (i + 1) dst

/-- `luna_strcat` into an object. -/
def strcatInto (dst src : List UInt8) : Option (List UInt8) := do
  let len ← advance (· ≠ 0) dst
  strcatLoop src len dst

/-! ### What the loops write -/

section
variable {pre old cs rest : List UInt8} {x : UInt8} {n : ℕ}

theorem store_append (pre old : List UInt8) (x b : UInt8) :
    store (pre ++ x :: old) pre.length b = some (pre ++ b :: old) := by
  unfold store
  rw [if_pos (by simp), List.set_append_right _ _ le_rfl, Nat.sub_self]
  rfl

theorem strncpyPadInto_eq (h : n ≤ old.length) : strncpyPadInto n pre.length (pre ++ old) =
    some (pre ++ List.replicate n 0 ++ old.drop n) := by
  induction n generalizing pre old with
  | zero => simp [strncpyPadInto]
  | succ n ih =>
      obtain ⟨x, old, rfl⟩ := List.exists_cons_of_length_pos (by omega : 0 < old.length)
      have hnext := @ih (pre ++ [0]) old (by simpa using h)
      unfold strncpyPadInto
      rw [store_append, Option.bind_eq_bind, Option.bind_some]
      simpa [List.replicate_succ] using hnext

theorem strncpyCopyInto_eq (hcs : ∀ c ∈ cs, c ≠ 0) (h : n ≤ old.length) :
    strncpyCopyInto n (cs ++ 0 :: rest) pre.length (pre ++ old) =
      some (pre ++ (cs.take n ++ List.replicate (n - cs.length) 0) ++ old.drop n) := by
  induction n generalizing pre old cs with
  | zero => cases cs <;> simp [strncpyCopyInto]
  | succ n ih =>
      cases cs with
      | nil =>
          have hpad := @strncpyPadInto_eq pre old (n + 1) h
          simpa [strncpyCopyInto] using hpad
      | cons c cs =>
          obtain ⟨hc, hcs⟩ := List.forall_mem_cons.mp hcs
          obtain ⟨x, old, rfl⟩ := List.exists_cons_of_length_pos (by omega : 0 < old.length)
          have hnext := @ih (pre ++ [c]) old cs hcs (by simpa using h)
          rw [List.cons_append, strncpyCopyInto, if_pos hc, store_append, Option.bind_eq_bind,
            Option.bind_some]
          simpa using hnext

/-- **`luna_strncpy`** writes the first `n` bytes of the object: the string, cut off or padded. -/
theorem strncpyInto_eq (hcs : ∀ c ∈ cs, c ≠ 0) (h : n ≤ old.length) :
    strncpyInto old (cs ++ 0 :: rest) n =
      some (cs.take n ++ List.replicate (n - cs.length) 0 ++ old.drop n) :=
  @strncpyCopyInto_eq [] old cs rest n hcs h

theorem strcatLoop_eq (hcs : ∀ c ∈ cs, c ≠ 0) (h : cs.length < old.length) :
    strcatLoop (cs ++ 0 :: rest) pre.length (pre ++ old) = some (pre ++ (cs ++ 0 :: old.drop (cs.length + 1))) := by
  induction cs generalizing pre old with
  | nil =>
      obtain ⟨x, old, rfl⟩ := List.exists_cons_of_length_pos h
      rw [List.nil_append, strcatLoop, store_append]
      rfl
  | cons c cs ih =>
      obtain ⟨hc, hcs⟩ := List.forall_mem_cons.mp hcs
      obtain ⟨x, old, rfl⟩ := List.exists_cons_of_length_pos (Nat.zero_lt_of_lt h)
      have hnext := @ih (pre ++ [c]) old hcs (by simpa using h)
      rw [List.cons_append, strcatLoop, store_append, Option.bind_eq_bind, Option.bind_some, if_neg hc]
      simpa using hnext

/-- **`luna_strcat`** puts the string behind the one in the object, if there is room. -/
theorem strcatInto_eq {q : List UInt8} (hq : ∀ c ∈ q, c ≠ 0) (hcs : ∀ c ∈ cs, c ≠ 0)
    (h : cs.length ≤ old.length) :
    strcatInto (q ++ 0 :: old) (cs ++ 0 :: rest) = some (q ++ cs ++ 0 :: old.drop cs.length) := by
  have hlen : advance (· ≠ 0) (q ++ 0 :: old) = some q.length :=
    advance_eq_some (fun c hc => by simpa using hq c hc) (by simp)
  have hloop := @strcatLoop_eq q (0 :: old) cs rest hcs (Nat.lt_succ_of_le h)
  unfold strcatInto
  rw [hlen, Option.bind_eq_bind, Option.bind_some, hloop]
  simp

end

end LunaOs

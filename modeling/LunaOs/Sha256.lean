import LunaOs.Hash
import LunaOs.Lib.Fips180
import Mathlib.Tactic.IntervalCases

/-! # `sha256` computes FIPS 180-4

The refinement goes along the data.  A hash state of the code stands for the working variables of
the standard with the same words (`varsOf`).  Each C macro is the standard's function of the same
words, `loadWord` and the two schedule loops fill `w` with the message schedule, the 64 rounds
agree one by one, so `sha256Transform` is `compress` (`sha256Transform_eq`).  The loop over the
full blocks peels blocks off the padded message (`fullBlocks_spec`), and the one or two tail
blocks the code assembles are what is left of it (`finalBlocks_spec`). -/

namespace LunaOs.Hash

open Fips180 Endian

/-! ### Words -/

theorem rotr32_eq (x : UInt32) {n : ℕ} (h0 : 0 < n) (h : n < 32) :
    (rotr32 x (UInt32.ofNat n)).toBitVec = x.toBitVec.rotateRight n := by
  have hn : (UInt32.ofNat n).toNat = n := by simp; omega
  have hsub : (32 - UInt32.ofNat n).toNat = 32 - n := by
    rw [UInt32.toNat_sub_of_le]
    · rw [hn]; rfl
    · rw [UInt32.le_iff_toNat_le, hn]; exact h.le
  rw [BitVec.rotateRight_def, Nat.mod_eq_of_lt h]
  apply BitVec.eq_of_toNat_eq
  simp only [rotr32, UInt32.toNat_toBitVec, UInt32.toNat_or, UInt32.toNat_shiftRight,
    UInt32.toNat_shiftLeft, hn, hsub, BitVec.toNat_or, BitVec.toNat_ushiftRight,
    BitVec.toNat_shiftLeft, Nat.mod_eq_of_lt h, Nat.mod_eq_of_lt (show 32 - n < 32 by omega)]

theorem sha256Ch_eq (e f g : UInt32) :
    (sha256Ch e f g).toBitVec = ch e.toBitVec f.toBitVec g.toBitVec := by
  simp [sha256Ch, ch]

theorem sha256Maj_eq (a b c : UInt32) :
    (sha256Maj a b c).toBitVec = maj a.toBitVec b.toBitVec c.toBitVec := by
  simp [sha256Maj, maj]

theorem sha256Ep0_eq (a : UInt32) : (sha256Ep0 a).toBitVec = bigSigma0 a.toBitVec := by
  simp only [sha256Ep0, bigSigma0, UInt32.toBitVec_xor]
  rw [← rotr32_eq a (n := 2), ← rotr32_eq a (n := 13), ← rotr32_eq a (n := 22)] <;> first | rfl | omega

theorem sha256Ep1_eq (e : UInt32) : (sha256Ep1 e).toBitVec = bigSigma1 e.toBitVec := by
  simp only [sha256Ep1, bigSigma1, UInt32.toBitVec_xor]
  rw [← rotr32_eq e (n := 6), ← rotr32_eq e (n := 11), ← rotr32_eq e (n := 25)] <;> first | rfl | omega

theorem sha256Sig0_eq (x : UInt32) : (sha256Sig0 x).toBitVec = smallSigma0 x.toBitVec := by
  simp only [sha256Sig0, smallSigma0, UInt32.toBitVec_xor]
  rw [← rotr32_eq x (n := 7), ← rotr32_eq x (n := 18)] <;> first | rfl | omega

theorem sha256Sig1_eq (x : UInt32) : (sha256Sig1 x).toBitVec = smallSigma1 x.toBitVec := by
  simp only [sha256Sig1, smallSigma1, UInt32.toBitVec_xor]
  rw [← rotr32_eq x (n := 17), ← rotr32_eq x (n := 19)] <;> first | rfl | omega

theorem toNat_or_shiftLeft {a b : ℕ} (k : ℕ) (h : b < 2 ^ k) : (a <<< k) ||| b = a * 2 ^ k + b := by
  rw [Nat.shiftLeft_eq, Nat.mul_comm, Nat.two_pow_add_eq_or_of_lt h]

theorem loadWord_eq (p : ConstPtr) {t : ℕ} (ht : t < 16) :
    (loadWord p t).toBitVec = messageWord (bytesFrom p 64) t := by
  have hbytes : ((bytesFrom p 64).drop (4 * t)).take 4 =
      [p (t * 4 + 0), p (t * 4 + 1), p (t * 4 + 2), p (t * 4 + 3)] := by
    apply List.ext_getElem
    · simp; omega
    · intro i h1 h2
      simp only [List.length_cons, List.length_nil] at h2
      simp only [bytesFrom, List.getElem_take, List.getElem_drop, List.getElem_map,
        List.getElem_range]
      interval_cases i <;> simp [Nat.mul_comm]
  have h0 := (p (t * 4 + 0)).toNat_lt
  have h1 := (p (t * 4 + 1)).toNat_lt
  have h2 := (p (t * 4 + 2)).toNat_lt
  have h3 := (p (t * 4 + 3)).toNat_lt
  unfold messageWord
  rw [hbytes]
  apply BitVec.eq_of_toNat_eq
  simp only [loadWord, UInt32.toNat_toBitVec, UInt32.toNat_or, UInt32.toNat_shiftLeft,
    UInt8.toNat_toUInt32, beNat, List.foldl_cons, List.foldl_nil, BitVec.toNat_ofNat]
  generalize (p (t * 4 + 0)).toNat = a at h0 ⊢
  generalize (p (t * 4 + 1)).toNat = b at h1 ⊢
  generalize (p (t * 4 + 2)).toNat = c at h2 ⊢
  generalize (p (t * 4 + 3)).toNat = d at h3 ⊢
  have e1 : a <<< (UInt32.toNat 24 % 32) % 2 ^ 32 = ((a <<< 8) <<< 8) <<< 8 := by
    have : a <<< (UInt32.toNat 24 % 32) = a * 2 ^ 24 := Nat.shiftLeft_eq a 24
    rw [this, Nat.shiftLeft_eq, Nat.shiftLeft_eq, Nat.shiftLeft_eq]; omega
  have e2 : b <<< (UInt32.toNat 16 % 32) % 2 ^ 32 = (b <<< 8) <<< 8 := by
    have : b <<< (UInt32.toNat 16 % 32) = b * 2 ^ 16 := Nat.shiftLeft_eq b 16
    rw [this, Nat.shiftLeft_eq, Nat.shiftLeft_eq]; omega
  have e3 : c <<< (UInt32.toNat 8 % 32) % 2 ^ 32 = c <<< 8 := by
    have : c <<< (UInt32.toNat 8 % 32) = c * 2 ^ 8 := Nat.shiftLeft_eq c 8
    rw [this, Nat.shiftLeft_eq]; omega
  rw [e1, e2, e3, ← Nat.shiftLeft_or_distrib, ← Nat.shiftLeft_or_distrib,
    ← Nat.shiftLeft_or_distrib, toNat_or_shiftLeft 8 h1, toNat_or_shiftLeft 8 h2,
    toNat_or_shiftLeft 8 h3]
  omega

/-! ### Constants -/

theorem K_eq {t : ℕ} (ht : t < 64) : K[t]!.toBitVec = roundConstant t := by
  have h : ∀ t < 64,
      K[t]!.toBitVec = BitVec.ofNat 32 (Nat.nthRoot 3 (firstPrimes.getD t 0 * 2 ^ 96)) := by
    decide +kernel
  rw [roundConstant, prime_eq ht, h t ht]

theorem H0_eq {j : ℕ} (hj : j < 8) : H0[j]!.toBitVec = initialWord j := by
  have h : ∀ j < 8,
      H0[j]!.toBitVec = BitVec.ofNat 32 (Nat.nthRoot 2 (firstPrimes.getD j 0 * 2 ^ 64)) := by
    decide +kernel
  rw [initialWord, prime_eq (by omega), h j hj]

/-! ### The message schedule -/

theorem getElem!_setIfInBounds (w : Vector UInt32 64) (x : UInt32) {i j : ℕ} (hj : j < 64) :
    (w.setIfInBounds i x)[j]! = if i = j then x else w[j]! := by
  rw [getElem!_pos _ j hj, getElem!_pos _ j hj, Vector.getElem_setIfInBounds hj]

theorem loadLoop_getElem (p : ConstPtr) (w : Vector UInt32 64) {n : ℕ} (hn : n ≤ 16) {t : ℕ}
    (ht : t < n) : ((List.range n).foldl (loadStep p) w)[t]! = loadWord p t := by
  induction n with
  | zero => omega
  | succ n ih =>
      rw [List.range_succ, List.foldl_append, List.foldl_cons, List.foldl_nil, loadStep,
        getElem!_setIfInBounds _ _ (by omega)]
      split_ifs with h
      · rw [h]
      · exact ih (by omega) (by omega)

/-- After `n` turns the first `16 + n` entries are the standard's schedule. -/
theorem scheduleLoop_getElem {b : List UInt8} {w : Vector UInt32 64}
    (h16 : ∀ t < 16, w[t]!.toBitVec = messageWord b t) {n : ℕ} (hn : n ≤ 48) {t : ℕ}
    (ht : t < 16 + n) : ((List.range' 16 n).foldl scheduleStep w)[t]!.toBitVec = schedule b t := by
  induction n generalizing t with
  | zero => rw [schedule, if_pos (by omega)]; exact h16 t (by omega)
  | succ n ih =>
      rw [List.range'_concat, List.foldl_append, List.foldl_cons, List.foldl_nil, Nat.one_mul,
        scheduleStep, getElem!_setIfInBounds _ _ (by omega)]
      split_ifs with h
      · unfold schedule
        rw [if_neg (by omega), ← h]
        simp only [UInt32.toBitVec_add, sha256Sig1_eq, sha256Sig0_eq]
        rw [ih (by omega) (by omega), ih (by omega) (by omega), ih (by omega) (by omega),
          ih (by omega) (by omega)]
      · exact ih (by omega) (by omega)

/-! ### One block -/

/-- The standard's working variables with the words of the code's. -/
def varsOf (v : WorkVars) : Vars :=
  ⟨v.a.toBitVec, v.b.toBitVec, v.c.toBitVec, v.d.toBitVec,
    v.e.toBitVec, v.f.toBitVec, v.g.toBitVec, v.h.toBitVec⟩

/-- The words of a hash state as working variables. -/
def stateVars (s : Vector UInt32 8) : Vars := varsOf (initialVars s)

theorem roundStep_eq {b : List UInt8} {w : Vector UInt32 64}
    (hw : ∀ t < 64, w[t]!.toBitVec = schedule b t) (v : WorkVars) {t : ℕ} (ht : t < 64) :
    varsOf (roundStep w v t) = Fips180.round b (varsOf v) t := by
  simp only [roundStep, Fips180.round, varsOf, UInt32.toBitVec_add, sha256Ep1_eq, sha256Ch_eq,
    sha256Ep0_eq, sha256Maj_eq, K_eq ht, hw t ht]

theorem rounds_eq {b : List UInt8} {w : Vector UInt32 64}
    (hw : ∀ t < 64, w[t]!.toBitVec = schedule b t) (v : WorkVars) {n : ℕ} (hn : n ≤ 64) :
    varsOf ((List.range n).foldl (roundStep w) v) =
      (List.range n).foldl (Fips180.round b) (varsOf v) := by
  induction n with
  | zero => rfl
  | succ n ih =>
      simp only [List.range_succ, List.foldl_append, List.foldl_cons, List.foldl_nil]
      rw [roundStep_eq hw _ (by omega), ih (by omega)]

/-- **One block**: the transform is the standard's compression of the 64 bytes at `p`, whatever
the array `w` held before. -/
theorem sha256Transform_eq (w : Vector UInt32 64) (s : Vector UInt32 8) (p : ConstPtr) :
    stateVars (sha256Transform w s p) = compress (stateVars s) (bytesFrom p 64) := by
  have h16 : ∀ t < 16, ((List.range 16).foldl (loadStep p) w)[t]!.toBitVec =
      messageWord (bytesFrom p 64) t := by
    intro t ht
    rw [loadLoop_getElem p w le_rfl ht, loadWord_eq p ht]
  have hw : ∀ t < 64, ((List.range' 16 48).foldl scheduleStep
      ((List.range 16).foldl (loadStep p) w))[t]!.toBitVec = schedule (bytesFrom p 64) t :=
    fun t ht => scheduleLoop_getElem h16 le_rfl ht
  have hr : varsOf ((List.range 64).foldl (roundStep _) (initialVars s)) =
      (List.range 64).foldl (Fips180.round (bytesFrom p 64)) (stateVars s) := rounds_eq hw _ le_rfl
  rw [compress, ← hr]
  simp [sha256Transform, stateVars, varsOf, initialVars, BitVec.add_comm]

/-! ### The message -/

/-- A loop that stores `f i` at `i` for `n` consecutive indices from `a` on. -/
theorem arrayPtr_fill {k : ℕ} (f : ℕ → UInt8) (a n : ℕ) (v : Vector UInt8 k) {j : ℕ} (hj : j < k) :
    arrayPtr ((List.range' a n).foldl (fun b i => b.setIfInBounds i (f i)) v) j =
      if a ≤ j ∧ j < a + n then f j else arrayPtr v j := by
  induction n with
  | zero => rw [if_neg (by omega)]; rfl
  | succ n ih =>
      rw [List.range'_concat, List.foldl_append, List.foldl_cons, List.foldl_nil, Nat.one_mul,
        arrayPtr_setIfInBounds _ _ _ hj, ih]
      by_cases h : a + n = j
      · rw [if_pos h, if_pos (by omega), h]
      · rw [if_neg h]; split_ifs <;> first | rfl | omega

theorem shiftByte_eq (x : UInt64) {k : ℕ} (hk : k < 64) :
    (x >>> UInt64.ofNat k).toUInt8 = UInt8.ofNat (x.toNat / 2 ^ k) := by
  have hkn : (UInt64.ofNat k).toNat = k := by simp; omega
  apply UInt8.toNat_inj.mp
  rw [UInt64.toNat_toUInt8, UInt64.toNat_shiftRight, hkn, Nat.mod_eq_of_lt hk,
    Nat.shiftRight_eq_div_pow]
  simp

/-- The eight length bytes the code stores are the big-endian encoding of the bit length. -/
theorem arrayPtr_appendLength (bitLen : UInt64) (v : Vector UInt8 64) {j : ℕ} (hj : j < 64) :
    arrayPtr (appendLength bitLen v) j =
      if j < 56 then arrayPtr v j else listPtr (beBytes 8 bitLen.toNat) (j - 56) := by
  have hbytes : beBytes 8 bitLen.toNat = [(bitLen >>> 56).toUInt8, (bitLen >>> 48).toUInt8,
      (bitLen >>> 40).toUInt8, (bitLen >>> 32).toUInt8, (bitLen >>> 24).toUInt8,
      (bitLen >>> 16).toUInt8, (bitLen >>> 8).toUInt8, (bitLen >>> 0).toUInt8] := by
    simp only [beBytes, leBytes, Nat.div_div_eq_div_mul, List.reverse_cons, List.reverse_nil,
      List.nil_append, List.cons_append]
    rw [show bitLen >>> 56 = bitLen >>> UInt64.ofNat 56 from rfl, shiftByte_eq _ (by omega),
      show bitLen >>> 48 = bitLen >>> UInt64.ofNat 48 from rfl, shiftByte_eq _ (by omega),
      show bitLen >>> 40 = bitLen >>> UInt64.ofNat 40 from rfl, shiftByte_eq _ (by omega),
      show bitLen >>> 32 = bitLen >>> UInt64.ofNat 32 from rfl, shiftByte_eq _ (by omega),
      show bitLen >>> 24 = bitLen >>> UInt64.ofNat 24 from rfl, shiftByte_eq _ (by omega),
      show bitLen >>> 16 = bitLen >>> UInt64.ofNat 16 from rfl, shiftByte_eq _ (by omega),
      show bitLen >>> 8 = bitLen >>> UInt64.ofNat 8 from rfl, shiftByte_eq _ (by omega),
      show bitLen >>> 0 = bitLen >>> UInt64.ofNat 0 from rfl, shiftByte_eq _ (by omega)]
    simp
  simp only [appendLength, arrayPtr_setIfInBounds _ _ _ hj]
  by_cases h : j < 56
  · rw [if_pos h]
    repeat rw [if_neg (by omega)]
  · rw [if_neg h, hbytes]
    interval_cases j <;> rfl

/-- The blocks of a padded message start with the full blocks of the message. -/
theorem blocks_cons {p : ConstPtr} {r : ℕ} (h : 64 ≤ r) (T : List UInt8) (n : ℕ) :
    blocks (n + 1) (bytesFrom p r ++ T) =
      bytesFrom p 64 :: blocks n (bytesFrom (fun i => p (64 + i)) (r - 64) ++ T) := by
  obtain ⟨m, rfl⟩ : ∃ m, r = 64 + m := ⟨r - 64, by omega⟩
  rw [blocks, bytesFrom_add, List.append_assoc, List.take_left' (by simp), List.drop_left' (by simp),
    Nat.add_sub_cancel_left]

/-- The loop over the full blocks has hashed what it took off the padded message. -/
theorem fullBlocks_spec (w : Vector UInt32 64) (T : List UInt8) (n fuel : ℕ)
    (s : Vector UInt32 8) (p : ConstPtr) {r : ℕ} (hr : r ≤ fuel) :
    ∃ s' p', fullBlocks w fuel s p r = (s', p', r % 64) ∧
      (blocks (r / 64 + n) (bytesFrom p r ++ T)).foldl compress (stateVars s) =
        (blocks n (bytesFrom p' (r % 64) ++ T)).foldl compress (stateVars s') := by
  induction fuel generalizing s p r with
  | zero =>
      obtain rfl : r = 0 := by omega
      exact ⟨s, p, rfl, by simp⟩
  | succ fuel ih =>
      unfold fullBlocks
      split_ifs with h
      · obtain ⟨s', p', he, hf⟩ :=
          ih (sha256Transform w s p) (fun i => p (64 + i)) (r := r - 64) (by omega)
        have hmod : (r - 64) % 64 = r % 64 := by omega
        have hdiv : r / 64 + n = ((r - 64) / 64 + n) + 1 := by omega
        rw [hmod] at he hf
        refine ⟨s', p', he, ?_⟩
        rw [hdiv, blocks_cons h, List.foldl_cons, ← sha256Transform_eq w, hf]
      · rw [Nat.mod_eq_of_lt (by omega), Nat.div_eq_of_lt (by omega), Nat.zero_add]
        exact ⟨s, p, rfl, rfl⟩

/-- What is left of a padded message: `n` bytes, then the padding of a message of `L` bytes. -/
def rest (p : ConstPtr) (n L : ℕ) : List UInt8 :=
  bytesFrom p n ++ ((0x80 :: List.replicate (zeroCount n) 0) ++ beBytes 8 (8 * L))

theorem rest_length (p : ConstPtr) (n L : ℕ) : (rest p n L).length = n + 1 + zeroCount n + 8 := by
  simp [rest]; omega

theorem listPtr_rest (p : ConstPtr) (n L i : ℕ) : listPtr (rest p n L) i =
    if i < n then p i else if i = n then 0x80 else if i < n + 1 + zeroCount n then 0
      else listPtr (beBytes 8 (8 * L)) (i - (n + 1 + zeroCount n)) := by
  unfold rest
  rw [listPtr_append, bytesFrom_length]
  by_cases h1 : i < n
  · rw [if_pos h1, if_pos h1, listPtr_bytesFrom p h1]
  · rw [if_neg h1, if_neg h1, listPtr_append, List.length_cons, List.length_replicate]
    by_cases h2 : i = n
    · subst h2; rw [if_pos (by omega), if_pos rfl, Nat.sub_self, listPtr_cons_zero]
    · obtain ⟨m, hm⟩ : ∃ m, i - n = m + 1 := ⟨i - n - 1, by omega⟩
      rw [if_neg h2, hm, listPtr_cons_succ, listPtr_zeros]
      by_cases h3 : i < n + 1 + zeroCount n
      · rw [if_pos h3, if_pos (by omega)]
      · rw [if_neg h3, if_neg (by omega)]
        congr 1
        omega

theorem zeroCount_short {n : ℕ} (h : n ≤ 55) : zeroCount n = 55 - n :=
  zeroCount_eq (by omega) (by omega)

theorem zeroCount_long {n : ℕ} (h : 56 ≤ n) (h' : n < 64) : zeroCount n = 119 - n :=
  zeroCount_eq (by omega) (by omega)

/-- The local array after the message bytes and the `0x80` have been stored. -/
def markedBlock (stk : Sha256Stack) (p : ConstPtr) (r : ℕ) : Vector UInt8 64 :=
  ((List.range r).foldl (fun b i => b.setIfInBounds i (p i)) stk.block).setIfInBounds r 0x80

theorem arrayPtr_markedBlock (stk : Sha256Stack) (p : ConstPtr) (r : ℕ) {j : ℕ} (hj : j < 64) :
    arrayPtr (markedBlock stk p r) j =
      if j < r then p j else if j = r then 0x80 else arrayPtr stk.block j := by
  unfold markedBlock
  rw [arrayPtr_setIfInBounds _ _ _ hj, List.range_eq_range', arrayPtr_fill p 0 r _ hj]
  split_ifs <;> first | rfl | omega

theorem arrayPtr_zeroFill (upTo r : ℕ) (v : Vector UInt8 64) {j : ℕ} (hj : j < 64) :
    arrayPtr (zeroFill upTo r v) j = if r ≤ j ∧ j < upTo then 0 else arrayPtr v j := by
  unfold zeroFill
  rw [arrayPtr_fill (fun _ => 0) _ _ _ hj]
  split_ifs <;> first | rfl | omega

/-- Up to 55 bytes, `0x80` and the length fit into the block. -/
theorem finalBlocks_short (stk : Sha256Stack) (bitLen : UInt64) {L : ℕ} (hL : bitLen.toNat = 8 * L)
    (s : Vector UInt32 8) (p : ConstPtr) {r : ℕ} (h : r ≤ 55) :
    stateVars (finalBlocks stk bitLen s p r) =
      (blocks ((rest p r L).length / 64) (rest p r L)).foldl compress (stateVars s) := by
  have hz := zeroCount_short h
  have hlen : (rest p r L).length = 64 := by rw [rest_length]; omega
  have hblock : bytesFrom (arrayPtr (appendLength bitLen
      (zeroFill 56 (r + 1) (markedBlock stk p r)))) 64 = rest p r L := by
    apply bytesFrom_eq hlen
    intro i hi
    rw [arrayPtr_appendLength _ _ hi, arrayPtr_zeroFill _ _ _ hi, arrayPtr_markedBlock _ _ _ hi,
      listPtr_rest, hL, hz, show r + 1 + (55 - r) = 56 by omega]
    split_ifs <;> first | rfl | omega
  have hfinal : finalBlocks stk bitLen s p r = sha256Transform stk.w s (arrayPtr
      (appendLength bitLen (zeroFill 56 (r + 1) (markedBlock stk p r)))) := by
    dsimp only [finalBlocks]
    rw [if_neg (by omega)]
    rfl
  rw [hfinal, sha256Transform_eq, hblock, hlen]
  simp [blocks, List.take_of_length_le hlen.le]

/-- From 56 bytes on they do not, and a second block holds the length. -/
theorem finalBlocks_long (stk : Sha256Stack) (bitLen : UInt64) {L : ℕ} (hL : bitLen.toNat = 8 * L)
    (s : Vector UInt32 8) (p : ConstPtr) {r : ℕ} (h : 55 < r) (hr : r < 64) :
    stateVars (finalBlocks stk bitLen s p r) =
      (blocks ((rest p r L).length / 64) (rest p r L)).foldl compress (stateVars s) := by
  have hz := zeroCount_long (n := r) (by omega) hr
  have hlen : (rest p r L).length = 128 := by rw [rest_length]; omega
  have hfirst : bytesFrom (arrayPtr (zeroFill 64 (r + 1) (markedBlock stk p r))) 64 =
      (rest p r L).take 64 := by
    apply bytesFrom_eq (by rw [List.length_take]; omega)
    intro i hi
    rw [arrayPtr_zeroFill _ _ _ hi, arrayPtr_markedBlock _ _ _ hi, listPtr_take _ hi,
      listPtr_rest, hz]
    split_ifs <;> first | rfl | omega
  have hsecond : bytesFrom (arrayPtr (appendLength bitLen
      (zeroFill 56 0 (zeroFill 64 (r + 1) (markedBlock stk p r))))) 64 =
      (rest p r L).drop 64 := by
    apply bytesFrom_eq (by rw [List.length_drop]; omega)
    intro i hi
    rw [arrayPtr_appendLength _ _ hi, arrayPtr_zeroFill _ _ _ hi, listPtr_drop, listPtr_rest, hL,
      hz, show 64 + i - (r + 1 + (119 - r)) = i - 56 by omega]
    split_ifs <;> first | rfl | omega
  have hfinal : finalBlocks stk bitLen s p r = sha256Transform stk.w
      (sha256Transform stk.w s (arrayPtr (zeroFill 64 (r + 1) (markedBlock stk p r))))
      (arrayPtr (appendLength bitLen
        (zeroFill 56 0 (zeroFill 64 (r + 1) (markedBlock stk p r))))) := by
    dsimp only [finalBlocks]
    rw [if_pos (by omega)]
    rfl
  rw [hfinal, sha256Transform_eq, sha256Transform_eq, hfirst, hsecond, hlen]
  simp [blocks, List.take_of_length_le (show ((rest p r L).drop 64).length ≤ 64 by simp; omega)]

/-- **The tail**: the one or two blocks the code assembles are what is left of the padded
message. -/
theorem finalBlocks_spec (stk : Sha256Stack) (bitLen : UInt64) {L : ℕ}
    (hL : bitLen.toNat = 8 * L) (s : Vector UInt32 8) (p : ConstPtr) {r : ℕ} (hr : r < 64) :
    stateVars (finalBlocks stk bitLen s p r) =
      (blocks ((rest p r L).length / 64) (rest p r L)).foldl compress (stateVars s) := by
  by_cases h : r ≤ 55
  · exact finalBlocks_short stk bitLen hL s p h
  · exact finalBlocks_long stk bitLen hL s p (by omega) hr

/-! ### The digest -/

theorem beBytes_word (x : UInt32) : beBytes 4 x.toBitVec.toNat =
    [(x >>> 24).toUInt8, (x >>> 16).toUInt8, (x >>> 8).toUInt8, (x >>> 0).toUInt8] := by
  have hbyte : ∀ k < 32, (x >>> UInt32.ofNat k).toUInt8 = UInt8.ofNat (x.toNat / 2 ^ k) := by
    intro k hk
    have hkn : (UInt32.ofNat k).toNat = k := by simp; omega
    apply UInt8.toNat_inj.mp
    rw [UInt32.toNat_toUInt8, UInt32.toNat_shiftRight, hkn, Nat.mod_eq_of_lt hk,
      Nat.shiftRight_eq_div_pow]
    simp
  simp only [beBytes, leBytes, Nat.div_div_eq_div_mul, List.reverse_cons, List.reverse_nil,
    List.nil_append, List.cons_append, UInt32.toNat_toBitVec]
  rw [show x >>> 24 = x >>> UInt32.ofNat 24 from rfl, hbyte 24 (by omega),
    show x >>> 16 = x >>> UInt32.ofNat 16 from rfl, hbyte 16 (by omega),
    show x >>> 8 = x >>> UInt32.ofNat 8 from rfl, hbyte 8 (by omega),
    show x >>> 0 = x >>> UInt32.ofNat 0 from rfl, hbyte 0 (by omega)]
  simp

theorem digestBytes_toList (s : Vector UInt32 8) : (digestBytes s).toList = digest (stateVars s) := by
  simp only [digest, stateVars, varsOf, initialVars, List.flatMap_cons, List.flatMap_nil, beBytes_word,
    List.cons_append, List.nil_append]
  apply List.ext_getElem (by simp)
  intro i h1 _
  rw [Vector.length_toList] at h1
  simp only [digestBytes, Vector.getElem_toList, Vector.getElem_ofFn]
  interval_cases i <;> rfl

/-- **`sha256` is FIPS 180-4 SHA-256** of the `len` bytes at `data`, for every 32-bit length and
whatever the uninitialised local arrays hold. -/
theorem sha256_eq_fips (stk : Sha256Stack) (data : ConstPtr) (len : UInt32) :
    (sha256 stk data len).toList = Fips180.sha256 (bytesFrom data len.toNat) := by
  have hlt := len.toNat_lt
  have hbits : (len.toUInt64 * 8).toNat = 8 * len.toNat := by
    have h8 : UInt64.toNat 8 = 8 := rfl
    rw [UInt64.toNat_mul, UInt32.toNat_toUInt64, h8]; omega
  have hinit : stateVars H0 = initial := by
    have hH := fun j (hj : j < 8) => H0_eq hj
    simp only [initial, ← hH 0 (by omega), ← hH 1 (by omega), ← hH 2 (by omega), ← hH 3 (by omega),
      ← hH 4 (by omega), ← hH 5 (by omega), ← hH 6 (by omega), ← hH 7 (by omega)]
    rfl
  obtain ⟨s', p', hloop, hfold⟩ := fullBlocks_spec stk.w
    ((0x80 :: List.replicate (zeroCount len.toNat) 0) ++ beBytes 8 (8 * len.toNat))
    ((rest data (len.toNat % 64) len.toNat).length / 64) len.toNat H0 data le_rfl
  have hpad : pad (bytesFrom data len.toNat) = bytesFrom data len.toNat ++
      ((0x80 :: List.replicate (zeroCount len.toNat) 0) ++ beBytes 8 (8 * len.toNat)) := by
    unfold pad
    rw [bytesFrom_length, List.append_assoc]
  have hrest : rest p' (len.toNat % 64) len.toNat = bytesFrom p' (len.toNat % 64) ++
      ((0x80 :: List.replicate (zeroCount len.toNat) 0) ++ beBytes 8 (8 * len.toNat)) := by
    unfold rest
    rw [zeroCount_mod]
  have hcount : (pad (bytesFrom data len.toNat)).length / 64 =
      len.toNat / 64 + (rest data (len.toNat % 64) len.toNat).length / 64 := by
    rw [pad_length, bytesFrom_length, rest_length, zeroCount_mod]; omega
  have hsame : (rest p' (len.toNat % 64) len.toNat).length =
      (rest data (len.toNat % 64) len.toNat).length := by rw [rest_length, rest_length]
  have hlast := finalBlocks_spec stk _ hbits s' p' (Nat.mod_lt len.toNat (by omega : 64 > 0))
  dsimp only [sha256]
  rw [hloop, digestBytes_toList, hlast, hsame, hrest, ← hfold, hinit, Fips180.sha256, hcount, hpad]

end LunaOs.Hash

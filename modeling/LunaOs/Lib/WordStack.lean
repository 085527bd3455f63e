import Mathlib.Algebra.Group.Nat.Defs
import Mathlib.Data.List.Basic
import Mathlib.Data.Nat.Notation

/-! # Words on a stack that grows downwards

The memory of a 32-bit machine is a function from the addresses of words.  `Words mem p ws` says that
the words `ws` stand at `p`, `p + 4` and so on, as a stack with its top at `p` holds them.  Addresses
wrap around at 2^32, so 2^30 words are the most that do not meet themselves. -/

namespace WordStack

variable {α : Type*} {mem : UInt32 → α} {p q : UInt32} {w : α} {us ws rest : List α}

/-- The words at `p`, from the lowest address up. -/
def Words (mem : UInt32 → α) : UInt32 → List α → Prop
  | _, [] => True
  | p, w :: ws => mem p = w ∧ Words mem (p + 4) ws

/-- Writing `ws` at `p` and above. -/
def writeWords (mem : UInt32 → α) : UInt32 → List α → UInt32 → α
  | _, [] => mem
  | p, w :: ws => writeWords (Function.update mem p w) (p + 4) ws

/-- `q` is not the address of one of `n` words at `p`. -/
def Outside (q p : UInt32) (n : ℕ) : Prop := ∀ k < n, q ≠ p + 4 * UInt32.ofNat k

theorem Outside.ne {n : ℕ} (h : Outside q p (n + 1)) : q ≠ p := by
  have h0 := h 0 (Nat.succ_pos n)
  rwa [show 4 * UInt32.ofNat 0 = 0 from rfl, UInt32.add_zero] at h0

theorem Outside.tail {n : ℕ} (h : Outside q p (n + 1)) : Outside q (p + 4) n := by
  intro k hk heq
  refine h (k + 1) (Nat.succ_lt_succ hk) (heq.trans ?_)
  rw [UInt32.ofNat_add, UInt32.mul_add, UInt32.add_assoc, UInt32.add_comm 4]
  rfl

theorem outside_above {n : ℕ} (hn : n < 2 ^ 30) (p : UInt32) : Outside p (p + 4) n := by
  intro k hk heq
  have hzero : 4 + 4 * UInt32.ofNat k = 0 := by
    rw [UInt32.add_assoc] at heq
    exact UInt32.left_eq_add.mp heq
  have hnat := congrArg UInt32.toNat hzero
  rw [UInt32.toNat_add, UInt32.toNat_mul, UInt32.toNat_ofNat'] at hnat
  have h4 : (4 : UInt32).toNat = 4 := rfl
  have h0 : (0 : UInt32).toNat = 0 := rfl
  rw [h4, h0] at hnat
  omega

/-! ### Writing one word -/

theorem Words.update (h : Words mem p ws) (hq : Outside q p ws.length) :
    Words (Function.update mem q w) p ws := by
  induction ws generalizing p with
  | nil => trivial
  | cons v vs ih => exact ⟨(Function.update_of_ne hq.ne.symm w mem).trans h.1, ih h.2 hq.tail⟩

/-- **Pushing** puts a word on top. -/
theorem Words.push (h : Words mem p ws) (hlen : ws.length < 2 ^ 30) :
    Words (Function.update mem (p - 4) w) (p - 4) (w :: ws) := by
  have htop : p - 4 + 4 = p := UInt32.sub_add_cancel p 4
  refine ⟨Function.update_self _ _ _, ?_⟩
  have hout := outside_above hlen (p - 4)
  rw [htop] at hout ⊢
  exact h.update hout

/-! ### Writing several words -/

theorem writeWords_of_outside (hq : Outside q p ws.length) : writeWords mem p ws q = mem q := by
  induction ws generalizing mem p with
  | nil => rfl
  | cons v vs ih => exact (ih hq.tail).trans (Function.update_of_ne hq.ne v mem)

/-- Words are written over as many others, and the words above stay. -/
theorem Words.write (h : Words mem p (us ++ rest)) (heq : us.length = ws.length)
    (hlen : ws.length + rest.length ≤ 2 ^ 30) : Words (writeWords mem p ws) p (ws ++ rest) := by
  induction ws generalizing mem p us with
  | nil =>
      obtain rfl := List.length_eq_zero_iff.mp heq
      exact h
  | cons w ws ih =>
      cases us with
      | nil => cases heq
      | cons u us =>
          rw [List.length_cons] at hlen
          have hlen' : us.length = ws.length := Nat.succ_inj.mp heq
          have hout : Outside p (p + 4) (us ++ rest).length := by
            refine outside_above ?_ p
            rw [List.length_append]
            omega
          refine ⟨?_, ih (h.2.update hout) hlen' (by omega)⟩
          have hself : Outside p (p + 4) ws.length := outside_above (by omega) p
          exact (writeWords_of_outside hself).trans (Function.update_self _ _ _)

end WordStack

/-!
# Alignment

An address is aligned when it is a multiple of an alignment, and alignments are
powers of two. These are the computations that layout rests on. They are made
with natural numbers; whether a word holds the results is another question.

* `roundUpTo`: the next aligned number, that is, an aligned number
  (`dvd_roundUpTo`), not below the given one (`le_roundUpTo`), and the least of
  those (`roundUpTo_le`);
* `blocksFor`: as many blocks as it takes, and no more (`blocksFor_le_iff`);
* `lowestBit`: the largest power of two that divides a number (`lowestBit_dvd`,
  `pow_dvd_lowestBit`).
-/

namespace HashEq

/-- The least multiple of `align` not below `n`; an alignment of zero counts as one. -/
def roundUpTo (align n : Nat) : Nat :=
  (n + (max align 1 - 1)) / max align 1 * max align 1

/-- The number of blocks of `size` bytes that cover `n` bytes. -/
def blocksFor (size n : Nat) : Nat :=
  (n + (size - 1)) / size

/-- Whether `n` is a power of two. -/
def isPowerOfTwo (n : Nat) : Bool :=
  Nat.pow 2 n.log2 == n

/-- The largest power of two that divides `n`, zero for zero. -/
def lowestBit (n : Nat) : Nat :=
  if n = 0 then 0 else if n % 2 = 1 then 1 else 2 * lowestBit (n / 2)
termination_by n
decreasing_by omega

/-! ### Blocks and multiples -/

variable {align size n m : Nat}

theorem blocksFor_le_iff (h : 0 < size) : blocksFor size n ≤ m ↔ n ≤ m * size := by
  unfold blocksFor
  rw [← Nat.lt_succ_iff, Nat.div_lt_iff_lt_mul h, Nat.succ_mul]
  omega

theorem roundUpTo_eq (align n : Nat) :
    roundUpTo align n = blocksFor (max align 1) n * max align 1 :=
  rfl

theorem one_le_max_one (align : Nat) : 1 ≤ max align 1 :=
  Nat.le_max_right align 1

theorem le_roundUpTo (align n : Nat) : n ≤ roundUpTo align n :=
  (blocksFor_le_iff (one_le_max_one align)).1 (Nat.le_refl _)

theorem dvd_roundUpTo (align n : Nat) : max align 1 ∣ roundUpTo align n :=
  Nat.dvd_mul_left _ _

/-- No aligned number lies between `n` and the one that it is rounded up to. -/
theorem roundUpTo_le (hdvd : max align 1 ∣ m) (hle : n ≤ m) : roundUpTo align n ≤ m := by
  obtain ⟨k, rfl⟩ := hdvd
  rw [Nat.mul_comm] at hle
  rw [roundUpTo_eq, Nat.mul_comm (max align 1)]
  exact Nat.mul_le_mul_right _ ((blocksFor_le_iff (one_le_max_one align)).2 hle)

/-! ### Powers of two -/

theorem isPowerOfTwo_iff : isPowerOfTwo n = true ↔ ∃ k, n = Nat.pow 2 k := by
  constructor
  · intro h
    exact ⟨n.log2, (eq_of_beq h).symm⟩
  · rintro ⟨k, rfl⟩
    have hlog : (Nat.pow 2 k).log2 = k := Nat.log2_two_pow
    rw [isPowerOfTwo, hlog, beq_self_eq_true]

theorem pos_of_isPowerOfTwo (h : isPowerOfTwo n = true) : 0 < n := by
  obtain ⟨k, rfl⟩ := isPowerOfTwo_iff.1 h
  exact Nat.two_pow_pos k

theorem pow_two_succ (k : Nat) : Nat.pow 2 (k + 1) = 2 * Nat.pow 2 k :=
  Nat.mul_comm (Nat.pow 2 k) 2

theorem lowestBit_dvd (n : Nat) : lowestBit n ∣ n := by
  fun_induction lowestBit n with
  | case1 => exact Nat.dvd_refl 0
  | case2 n => exact Nat.one_dvd n
  | case3 n hn hodd ih =>
    have heven : 2 * (n / 2) = n := by omega
    have hdvd := Nat.mul_dvd_mul_left 2 ih
    rwa [heven] at hdvd

/-- Every power of two that divides a number divides the largest one. -/
theorem pow_dvd_lowestBit {k : Nat} (h : Nat.pow 2 k ∣ n) : Nat.pow 2 k ∣ lowestBit n := by
  fun_induction lowestBit n generalizing k with
  | case1 => exact Nat.dvd_zero _
  | case2 n hn hodd =>
    cases k with
    | zero => exact Nat.dvd_refl 1
    | succ k =>
      -- An odd number has no even divisor.
      have htwo : 2 ∣ n := Nat.dvd_trans (Nat.dvd_mul_left 2 (Nat.pow 2 k)) h
      omega
  | case3 n hn hodd ih =>
    cases k with
    | zero => exact Nat.one_dvd _
    | succ k =>
      obtain ⟨c, rfl⟩ := h
      have hhalf : Nat.pow 2 (k + 1) * c / 2 = Nat.pow 2 k * c := by
        rw [pow_two_succ, Nat.mul_assoc, Nat.mul_div_cancel_left _ Nat.two_pos]
      rw [hhalf] at ih ⊢
      rw [pow_two_succ]
      exact Nat.mul_dvd_mul_left 2 (ih (Nat.dvd_mul_right _ _))

theorem exists_lowestBit_eq (h : 0 < n) : ∃ k, lowestBit n = Nat.pow 2 k := by
  fun_induction lowestBit n with
  | case1 => exact absurd h (Nat.lt_irrefl 0)
  | case2 => exact ⟨0, rfl⟩
  | case3 n hn hodd ih =>
    obtain ⟨k, hk⟩ := ih (by omega)
    exact ⟨k + 1, by rw [hk, pow_two_succ]⟩

end HashEq

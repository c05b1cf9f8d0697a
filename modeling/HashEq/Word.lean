import HashEq.Alignment

/-!
# Machine words

Sizes, offsets, addresses and hash states are 64-bit words. The operations here
compute in the natural numbers and refuse a result that no word holds, so a sum
or product that is returned is the exact one.

* `Word.checked_eq_ok_iff`: a number is accepted exactly when a word holds it;
* `Word.toNat_of_add`, `Word.toNat_of_mul`, `Word.toNat_of_roundUp`: what the
  checked operations return is the exact value.
-/

namespace HashEq

/-- A 64-bit machine word. -/
abbrev Word := UInt64

/-- Why a computation stops that asks for something outside its domain. -/
inductive Fault
  /-- A number left the range of its type. -/
  | overflow
  /-- There is nothing at the given position. -/
  | index
  /-- More bytes were asked for than the destination holds. -/
  | range
  /-- A stated precondition does not hold. -/
  | assertion
  /-- The computation would go on forever. -/
  | unending
  deriving DecidableEq, Repr

/-- The one word that names a fault. -/
def Fault.message : Fault → String
  | overflow => "overflow"
  | index => "index"
  | range => "range"
  | assertion => "assert"
  | unending => "unending"

/-- A computation in two steps succeeds when both steps do. -/
theorem bind_eq_ok_iff {ε α β : Type} {first : Except ε α} {next : α → Except ε β} {b : β} :
    first >>= next = .ok b ↔ ∃ a, first = .ok a ∧ next a = .ok b := by
  constructor
  · intro h
    cases first with
    | error e => cases h
    | ok a => exact ⟨a, rfl, h⟩
  · rintro ⟨a, rfl, h⟩
    exact h

namespace Word

/-- The word that holds `n`, if there is one. -/
def checked (n : Nat) : Except Fault Word :=
  if n < UInt64.size then .ok (UInt64.ofNat n) else .error .overflow

/-- The exact sum. -/
def add (a b : Word) : Except Fault Word :=
  checked (a.toNat + b.toNat)

/-- The exact product. -/
def mul (a b : Word) : Except Fault Word :=
  checked (a.toNat * b.toNat)

/-- The least multiple of `align` not below `a`. -/
def roundUp (align a : Word) : Except Fault Word :=
  checked (roundUpTo align.toNat a.toNat)

/-- The product, or the largest word where no word holds it. -/
def saturatingMul (a b : Word) : Word :=
  UInt64.ofNat (min (a.toNat * b.toNat) (UInt64.size - 1))

theorem checked_eq_ok_iff {n : Nat} {w : Word} : checked n = .ok w ↔ w.toNat = n := by
  unfold checked
  constructor
  · intro h
    split at h
    · next hn =>
      cases h
      exact UInt64.toNat_ofNat_of_lt' hn
    · cases h
  · rintro rfl
    rw [if_pos w.toNat_lt_size, UInt64.ofNat_toNat]

theorem checked_eq_error_iff {n : Nat} {f : Fault} :
    checked n = .error f ↔ UInt64.size ≤ n ∧ f = .overflow := by
  unfold checked
  constructor
  · intro h
    split at h
    · cases h
    · next hn =>
      cases h
      exact ⟨Nat.not_lt.1 hn, rfl⟩
  · rintro ⟨hn, rfl⟩
    rw [if_neg (Nat.not_lt.2 hn)]

theorem toNat_of_add {a b c : Word} (h : add a b = .ok c) : c.toNat = a.toNat + b.toNat :=
  checked_eq_ok_iff.1 h

theorem toNat_of_mul {a b c : Word} (h : mul a b = .ok c) : c.toNat = a.toNat * b.toNat :=
  checked_eq_ok_iff.1 h

theorem toNat_of_roundUp {a align c : Word} (h : roundUp align a = .ok c) :
    c.toNat = roundUpTo align.toNat a.toNat :=
  checked_eq_ok_iff.1 h

end Word

end HashEq

import HashEq.Word

/-!
# Floating-point numbers by their bits

Binary floating-point numbers are words whose highest bit is the sign and whose
other bits are the magnitude. Above the magnitude of infinity come the words that
are no numbers. Comparing numbers takes no arithmetic: two are equal when they
have the same bits or are both zero, and what is no number equals nothing.

* `FloatFormat.equal`: the numerical comparison;
* `FloatFormat.equal_self_iff`: only numbers equal themselves.
-/

namespace HashEq

/-- A binary floating-point format of at most 64 bits. -/
structure FloatFormat where
  /-- The bytes of a number. -/
  width : Word
  /-- All bits but the sign. -/
  magnitudeMask : Word
  /-- The magnitude of infinity. -/
  infinity : Word

namespace FloatFormat

/-- The format of 32 bits. -/
def single : FloatFormat := ⟨4, 0x7FFFFFFF, 0x7F800000⟩

/-- The format of 64 bits. -/
def double : FloatFormat := ⟨8, 0x7FFFFFFFFFFFFFFF, 0x7FF0000000000000⟩

variable (format : FloatFormat)

/-- Whether the bits stand for zero, of either sign. -/
def isZero (bits : Word) : Bool :=
  bits &&& format.magnitudeMask == 0

/-- Whether the bits stand for no number. -/
def isNaN (bits : Word) : Bool :=
  format.infinity < bits &&& format.magnitudeMask

/-- Whether two words stand for equal numbers. -/
def equal (a b : Word) : Bool :=
  !format.isNaN a && !format.isNaN b && (a == b || format.isZero a && format.isZero b)

variable {format}

theorem equal_comm (a b : Word) : format.equal a b = format.equal b a := by
  unfold equal
  rw [Bool.beq_comm, Bool.and_comm (format.isZero a), Bool.and_comm (!format.isNaN a)]

theorem equal_self_iff (a : Word) : format.equal a a = true ↔ format.isNaN a = false := by
  simp [equal]

end FloatFormat

end HashEq

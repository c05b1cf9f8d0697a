import HashEq.Word

/-!
# Targets

A target is what layout and generated code have to know about a machine: how wide
its pointers and registers are, how it wants multi-byte loads aligned, and
whether neighbouring loads can be merged into one.
-/

namespace HashEq

/-- The parameters of a machine. -/
structure Target where
  name : String
  /-- Bytes in a pointer. -/
  pointerSize : Word
  /-- Bytes in a general-purpose register, the unit of comparison costs. -/
  registerSize : Word
  /-- The alignment that a multi-byte load needs; one if any address will do. -/
  minAlignment : Word
  /-- Whether adjacent narrow loads can be combined into a wide one. -/
  mergesLoads : Bool
  deriving DecidableEq, Repr

namespace Target

/-- Sixty-four bits, unaligned loads allowed. -/
def amd64 : Target :=
  { name := "amd64", pointerSize := 8, registerSize := 8, minAlignment := 1, mergesLoads := true }

/-- Sixty-four bits, unaligned loads allowed. -/
def arm64 : Target :=
  { name := "arm64", pointerSize := 8, registerSize := 8, minAlignment := 1, mergesLoads := true }

/-- Thirty-two bits, unaligned loads allowed. -/
def i386 : Target :=
  { name := "386", pointerSize := 4, registerSize := 4, minAlignment := 1, mergesLoads := true }

/-- Thirty-two bits, aligned loads only. -/
def mips : Target :=
  { name := "mips", pointerSize := 4, registerSize := 4, minAlignment := 4, mergesLoads := false }

/-- The targets known by name. -/
def presets : List Target := [amd64, arm64, i386, mips]

/-- Whether the parameters make sense: all are powers of two, and a register holds
    at most eight bytes. -/
def isValid (target : Target) : Bool :=
  isPowerOfTwo target.pointerSize.toNat && isPowerOfTwo target.registerSize.toNat &&
    target.registerSize ≤ 8 && isPowerOfTwo target.minAlignment.toNat

/-- The alignment of eight-byte scalars: a register's width, but never more than eight. -/
def wideAlign (target : Target) : Word :=
  if target.registerSize < 8 then target.registerSize else 8

theorem isValid_of_mem_presets {target : Target} (h : target ∈ presets) :
    target.isValid = true := by
  have hall : ∀ target ∈ presets, target.isValid = true := by decide
  exact hall target h

end Target

end HashEq

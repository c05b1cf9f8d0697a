import HashEq.Proofs.Machine.Image
import HashEq.Proofs.Machine.Symbols
import HashEq.Proofs.Machine.Evaluation

/-!
# Calls

A call of a generated function runs the function that the session knows under the
symbol, and a closure calls the function or the primitive that its type asks for. A
function calls those of smaller types, and a primitive for interfaces goes on with a
value in which interfaces nest less deep, so calls nest no deeper than types and
interfaces together.

* `need`: how deep calls nest;
* `ends_generated`: what a call of a generated function comes to;
* `Builds.of_primitive`, `Builds.of_memory`, `Builds.of_special`: what a closure calls.
-/

namespace HashEq

open Session TypeTable

variable {table : TypeTable} {arena : Arena} {s : Session} {ty : TypeId} {purpose : Purpose}
  {f : Function} {c : Closure}

namespace Evaluation

/-! ### How deep calls nest -/

/-- By how much deeper calls nest for one more level of interfaces: there are fewer types, and two
    primitives in between. -/
def perLevel : Nat := UInt32.size + 2

/-- How deep calls nest that hash or compare values of a type in which interfaces nest less than `n`
    deep. -/
def need (n : Nat) (ty : TypeId) : Nat :=
  n * perLevel + ty.raw.toNat + 2

variable {n : Nat}

theorem need_of_lt {part : TypeId} (h : part.raw < ty.raw) : need n part + 1 ≤ need n ty := by
  have hlt := UInt32.lt_iff_toNat_lt.1 h
  unfold need
  omega

theorem need_of_inner (n : Nat) (inner : TypeId) : need n inner ≤ (n + 1) * perLevel := by
  have hlt := inner.raw.toNat_lt
  rw [Nat.succ_mul, need, perLevel, Nat.add_assoc]
  refine Nat.add_le_add_left ?_ _
  unfold UInt32.size
  omega

theorem need_le_callLimit (ty : TypeId) : need (2 ^ 96) ty ≤ callLimit := by
  have hraw : ty.raw.toNat + 2 ≤ UInt32.size + 2 := Nat.add_le_add_right (Nat.le_of_lt ty.raw.toNat_lt) 2
  have hlimit : 2 ^ 96 * perLevel + (UInt32.size + 2) ≤ callLimit := by decide
  rw [need, Nat.add_assoc]
  exact Nat.le_trans (Nat.add_le_add_left hraw _) hlimit

theorem limit_le_callLimit : 2 ^ 96 ≤ callLimit := by
  decide

/-! ### Generated functions -/

/-- The function that a symbol stands for is run. -/
theorem invoke_generated {symbol : String} (hf : s.function? symbol = some f) (depth : Nat)
    (args : List Word) : invoke table arena (depth + 1) (.generated symbol) args s =
      Interpreter.run table arena (invoke table arena depth) f args s := by
  have hget : (get : EvalM Session) s = (.ok s, s) := rfl
  rw [invoke, bind_apply, hget]
  dsimp only
  rw [hf]

theorem ends_generated {depth : Nat} {args : List Word} {post : Except EvalError Word → Prop}
    (h : Lawful table) (hdistinct : table.TextsDistinct)
    (hf : s.functions.get? (ty, purpose) = some f)
    (hrun : Ends table s (Interpreter.run table arena (invoke table arena depth) f args) post) :
    Ends table s (invoke table arena (depth + 1) (.generated f.symbol) args) post := by
  intro s' hs' hextends
  obtain ⟨hsound, hgrows, hpost⟩ := hrun s' hs' hextends
  rw [← invoke_generated (hs'.function?_symbol h hdistinct (hextends.functions hf))]
    at hsound hgrows hpost
  exact ⟨hsound, hgrows, hpost⟩

end Evaluation

namespace Session

/-- A function that was generated is the one for its type, which has one. -/
theorem Sound.of_get? (h : Lawful table) (hs : Sound table s)
    (hf : s.functions.get? (ty, purpose) = some f) :
    table.Has ty ∧ table.base ty = .special ∧ table.synthesize purpose ty = .ok f ∧
      f.symbol = functionSymbol purpose (table.shape ty).text := by
  obtain ⟨hcustom, hsynthesize⟩ := hs.generated hf
  obtain ⟨hty, hspecial⟩ := h.requireCustom_eq_ok_iff.1 hcustom
  obtain ⟨_, _, hsymbol⟩ := of_synthesize_eq_ok hsynthesize
  rw [h.symbolOf_eq hty] at hsymbol
  exact ⟨hty, hspecial, hsynthesize, (Except.ok.inj hsymbol).symm⟩

/-! ### Closures -/

theorem of_make_eq_ok {pointerSize : Word} {symbol : String} {target : Callee} {payload : Option Word}
    (h : Closure.make pointerSize symbol target payload = .ok c) :
    c.target = target ∧ c.payload = payload := by
  obtain ⟨size, _, h⟩ := bind_eq_ok_iff.1 h
  cases h
  exact ⟨rfl, rfl⟩

theorem make_of_wrap_eq_ok (h : wrap table ty f = .ok c) :
    ∃ text, table.text ty = .ok text ∧
      Closure.make table.target.pointerSize (Closure.symbolOfText f.purpose text)
        (.generated f.symbol) none = .ok c := by
  rw [wrap] at h
  cases htext : table.text ty with
  | error e =>
    rw [htext] at h
    cases h
  | ok text =>
    rw [htext] at h
    change (liftM (Closure.make _ _ _ _) : Except RequestError Closure) = _ at h
    cases hmake : Closure.make table.target.pointerSize (Closure.symbolOfText f.purpose text)
      (.generated f.symbol) none with
    | error e =>
      rw [hmake] at h
      cases h
    | ok c' =>
      rw [hmake] at h
      cases h
      exact ⟨text, rfl, hmake⟩

/-- The closure over a generated function. -/
theorem of_wrap_eq_ok (h : wrap table ty f = .ok c) :
    c.target = .generated f.symbol ∧ c.payload = none := by
  obtain ⟨_, _, hmake⟩ := make_of_wrap_eq_ok h
  exact of_make_eq_ok hmake

section Builds

variable (hc : Builds table s (closureKey table purpose ty) c)
include hc

theorem Builds.of_primitive {operation : Operation}
    (h : Operation.ofAlgorithm? (table.algorithm ty) = some operation) (hne : operation ≠ .varMemory) :
    c.target = .primitive ⟨purpose, operation⟩ ∧ c.payload = none := by
  rw [closureKey, h] at hc
  cases operation with
  | varMemory => exact absurd rfl hne
  | _ => exact of_make_eq_ok hc.2

theorem Builds.of_memory (h : table.base ty = .memory) :
    (∃ width : MemoryWidth, width.bytes = table.sizeOf ty ∧
      c.target = .primitive ⟨purpose, .fixedMemory width⟩ ∧ c.payload = none) ∨
    c.target = .primitive ⟨purpose, .varMemory⟩ ∧ c.payload = some (table.sizeOf ty) := by
  have halgorithm : table.algorithm ty =
      table.memoryAlgorithm (table.sizeOf ty) (table.alignOf ty) := by
    rw [algorithm, h]
  rcases table.memoryAlgorithm_cases (table.sizeOf ty) (table.alignOf ty) with hvar | ⟨width, hwidth, hfixed⟩
  · rw [closureKey, halgorithm, hvar] at hc
    exact .inr (of_make_eq_ok hc)
  · exact .inl ⟨width, hwidth, hc.of_primitive (by rw [halgorithm, hfixed]; rfl) (by simp)⟩

theorem Builds.of_special (h : table.base ty = .special) :
    ∃ f, s.functions.get? (ty, purpose) = some f ∧ c.target = .generated f.symbol ∧
      c.payload = none := by
  rw [closureKey, algorithm_eq_custom_iff.2 h] at hc
  obtain ⟨f, hf, hwrap⟩ := hc
  exact ⟨f, hf, of_wrap_eq_ok hwrap⟩

end Builds

end Session

theorem Evaluation.callClosure_none (invoke : Callee → List Word → EvalM Word) (target : Callee)
    (args : List Word) : callClosure invoke target none args = invoke target args := by
  cases target <;> rfl

/-! ### A machine with pairs -/

/-- A machine that holds pairs and has not been asked anything. -/
def pairMachine : Machine :=
  { Machine.ofTable pairTable with arena := pairArena }

theorem reachable_pairMachine : Machine.Reachable pairTable pairMachine :=
  .memory pairArena .refl

theorem opaqueWhole_pairTable : pairTable.OpaqueWhole := by
  intro ty size align hty hkind
  have hmem := hty.kind_mem
  rw [hkind, kinds_pairTable] at hmem
  simp [Kind.primitives, pairKinds] at hmem

theorem textsDistinct_pairTable : pairTable.TextsDistinct :=
  built_pairTable.textsDistinct wellNamed_pairTable unmistakable_pairTable

end HashEq

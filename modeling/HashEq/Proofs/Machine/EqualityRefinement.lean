import HashEq.Proofs.Machine.Calls
import HashEq.Proofs.Machine.EqualityCode

/-!
# Comparing images

Comparing two images by the closure of their type comes to the comparison along the
type, whatever has been generated before, and ends with a truth value or a panic.

* `ends_interfaceEqual`: the primitive for interfaces, given closures for their values;
* `ends_equalityCall`: functions, given the closures of the values in interfaces;
* `ends_equalityClosure`: closures;
* `Machine.equal_eq_structuralEqual`: machines.
-/

namespace HashEq

open Session TypeTable

variable {table : TypeTable} {arena : Arena} {s : Session} {ty : TypeId} {n : Nat} {p q : Word}

namespace Evaluation

/-- Closures compare images in which interfaces nest less than `n` deep. -/
def ComparesClosures (table : TypeTable) (arena : Arena) (call : Primitives.Caller) (n : Nat) : Prop :=
  ∀ {s : Session} {ty : TypeId} {c : Closure} {p q : Word}, table.Has ty →
    table.base ty ≠ .noEquality → Builds table s (closureKey table .equality ty) c →
    ImageWithin table arena n ty p → ImageWithin table arena n ty q →
    Ends table s (call c.target c.payload [p, q])
      (· = (wordOfBool <$> Leaves.equalWithin table arena n ty p q))

/-- The closure that compares values of a type is asked for, and there is one if the type has
    equality. -/
theorem ends_equalityRequest {next : Option Closure → EvalM Bool} {post : Except EvalError Bool → Prop}
    (h : Built table) (hty : table.Has ty)
    (hsome : ∀ {s : Session} {c : Closure}, table.base ty ≠ .noEquality →
      Builds table s (closureKey table .equality ty) c → Ends table s (next (some c)) post)
    (hnone : table.base ty = .noEquality → Ends table s (next none) post) :
    Ends table s (EvalM.ofRequest (equalityClosure table ty) >>= next) post := by
  intro s₁ hs₁ hextends
  have hclosure : Runs table s₁ (EvalM.ofRequest (equalityClosure table ty)) fun answer s₂ =>
      (∃ c, answer = .ok (some c) ∧ table.base ty ≠ .noEquality ∧
        Builds table s₂ (closureKey table .equality ty) c) ∨
      answer = .ok none ∧ table.base ty = .noEquality :=
    (runs_equalityClosure h hs₁).ofRequest fun answer s₂ hanswer => by
      cases answer with
      | ok closure =>
        cases closure with
        | some c => exact .inl ⟨c, rfl, hanswer⟩
        | none => exact .inr ⟨rfl, hanswer⟩
      | error e => exact absurd hty hanswer
  refine hclosure.bind (fun closure s₂ hs₂ hextends' hanswer => ?_) fun e s₂ _ _ hanswer => ?_
  · rcases hanswer with ⟨c, hclosure, hne, hbuilds⟩ | ⟨hclosure, hbase⟩
    · cases hclosure
      exact hsome hne hbuilds s₂ hs₂ (.refl s₂)
    · cases hclosure
      exact hnone hbase s₂ hs₂ (hextends'.trans hextends)
  · rcases hanswer with ⟨_, hclosure, _⟩ | ⟨hclosure, _⟩
    · cases hclosure
    · cases hclosure

/-- Comparing two interfaces once their words have been loaded. -/
theorem interfaceEqual_eq {call : Primitives.Caller} {pWord pData qWord qData : Word}
    (hp : Primitives.loadPair table arena p = .ok (pWord, pData))
    (hq : Primitives.loadPair table arena q = .ok (qWord, qData)) :
    Primitives.interfaceEqual table arena call p q =
      if pWord ≠ qWord then pure false
      else if pWord = 0 then pure true
      else liftM (typeOfWord pWord) >>= fun inner =>
        EvalM.ofRequest (equalityClosure table inner) >>= fun answer =>
          match answer with
          | none => liftM (table.text inner) >>= fun text => throw (.uncomparable text)
          | some closure => call closure.target closure.payload [pData, qData] >>= fun word =>
            pure (word != 0) := by
  rw [Primitives.interfaceEqual, hp, hq]
  rfl

/-- Interfaces are compared by the closures of the values in them. -/
theorem ends_interfaceEqual {call : Primitives.Caller} (h : Built table)
    (hpointer : table.target.pointerSize.toNat ≤ 8) (hcall : ComparesClosures table arena call n)
    (hty : table.Has ty) (hbase : table.base ty = .interface ∨ table.base ty = .nilInterface)
    (hp : ImageWithin table arena (n + 1) ty p) (hq : ImageWithin table arena (n + 1) ty q) :
    Ends table s (Primitives.interfaceEqual table arena call p q)
      (· = Leaves.equalWithin table arena (n + 1) ty p q) := by
  have hleaves := leaves_interface h.lawful hty hbase
  have hleaf : (0, Leaf.interface) ∈ table.leaves ty := hleaves ▸ List.mem_singleton_self _
  obtain ⟨pWord, pData, hpLoad⟩ := hp.readable.loadPair_isOk h.lawful hpointer hleaf (.inr rfl)
  obtain ⟨qWord, qData, hqLoad⟩ := hq.readable.loadPair_isOk h.lawful hpointer hleaf (.inr rfl)
  have hpInner := fun hne => hp.readable.interfaces hleaf hpLoad hne
  have hpHolds := fun inner => hp.2 inner pData
  have hqHolds := fun inner => hq.2 inner qData
  rw [Leaves.equalWithin, Leaves.equalVia, hleaves, List.map_singleton, conj_singleton,
    Leaf.equal_interface hpLoad hqLoad]
  have hpLoad' := hpLoad
  have hqLoad' := hqLoad
  rw [UInt64.add_zero] at hpLoad hqLoad
  rw [interfaceEqual_eq hpLoad hqLoad]
  -- Different types are told apart, and nil is equal to nil, without a look at the values.
  split
  · exact .pure rfl
  split
  · exact .pure rfl
  next hsame hzero =>
  have hsame := Decidable.not_not.1 hsame
  obtain ⟨inner, htold, hhas⟩ := hpInner hzero
  rw [dynamicType_eq h.lawful _ htold hhas, htold]
  refine ends_equalityRequest h hhas (fun hne hc => ?_) fun hnone => ?_
  · rw [if_neg hne]
    have hpHolds := hpHolds inner ⟨0, pWord, hleaf, hpLoad', hzero, htold, hne⟩
    have hqHolds := hqHolds inner ⟨0, qWord, hleaf, hqLoad', hsame ▸ hzero, hsame ▸ htold, hne⟩
    exact (hcall hhas hne hc hpHolds hqHolds).truth
  · rw [h.lawful.text_eq hhas, if_pos hnone]
    exact .throw rfl

section Calls

variable (h : Built table) (hpointer : table.target.pointerSize.toNat ≤ 8)
  (hclosures : ∀ depth, (n + 1) * perLevel ≤ depth →
    ComparesClosures table arena (callClosure (invoke table arena depth)) n)
include h hpointer hclosures

/-- A call of a primitive for interfaces. -/
theorem ends_interfaceCall {operation : Operation} {depth : Nat} (hty : table.Has ty)
    (hbase : table.base ty = .interface ∧ operation = .interface ∨
      table.base ty = .nilInterface ∧ operation = .nilInterface)
    (hdepth : (n + 1) * perLevel < depth)
    (hp : ImageWithin table arena (n + 1) ty p) (hq : ImageWithin table arena (n + 1) ty q) :
    Ends table s (invoke table arena depth (.primitive ⟨.equality, operation⟩) [p, q])
      (· = (wordOfBool <$> Leaves.equalWithin table arena (n + 1) ty p q)) := by
  obtain ⟨depth, rfl⟩ := Nat.exists_eq_add_of_lt hdepth
  rw [invoke]
  rcases hbase with ⟨hbase, rfl⟩ | ⟨hbase, rfl⟩
  · exact .map_eq _ (ends_interfaceEqual h hpointer (hclosures _ (by omega)) hty (.inl hbase) hp hq)
  · exact .map_eq _ (ends_interfaceEqual h hpointer (hclosures _ (by omega)) hty (.inr hbase) hp hq)

/-- A call of the function of a type, which calls those of smaller types. -/
theorem ends_equalityCall (hdistinct : table.TextsDistinct) {ty : TypeId} {s : Session} {f : Function}
    {p q : Word} {depth : Nat} (hf : s.functions.get? (ty, .equality) = some f)
    (hdepth : need (n + 1) ty ≤ depth)
    (hp : ImageWithin table arena (n + 1) ty p) (hq : ImageWithin table arena (n + 1) ty q) :
    Ends table s (invoke table arena depth (.generated f.symbol) [p, q])
      (· = (wordOfBool <$> Leaves.equalWithin table arena (n + 1) ty p q)) := by
  have hpositive : (n + 1) * perLevel + 2 ≤ depth := by
    unfold need at hdepth
    omega
  obtain ⟨depth, rfl⟩ := Nat.exists_eq_add_of_le' (Nat.le_trans (Nat.le_add_left 2 _) hpositive)
  intro s' hs' hextends
  have hf' := hextends.functions hf
  obtain ⟨hty, hspecial, hsynthesize, _⟩ := hs'.of_get? h.lawful hf'
  refine ends_generated h.lawful hdistinct hf' ?_ s' hs' (.refl s')
  refine Interpreter.ends_equalityFunction h.lawful hpointer ⟨fun p q size => ?_, ?_⟩ hty hspecial hp
    hq hsynthesize
  · rw [invoke]
    exact .map_eq _ (.lift rfl)
  · intro part callee p q hhas hknown hcallee hp hq
    unfold equalCallee? at hcallee
    split at hcallee
    · next hbase =>
      cases hcallee
      exact ends_interfaceCall h hpointer hclosures hhas (.inl ⟨hbase, rfl⟩) (by omega) hp hq
    · next hbase =>
      cases hcallee
      exact ends_interfaceCall h hpointer hclosures hhas (.inr ⟨hbase, rfl⟩) (by omega) hp hq
    · next hbase =>
      cases hcallee
      -- The function of the part is known, and the part comes before the type.
      have hcallees := hknown hbase
      have hlt := callees_lt hcallees
      obtain ⟨g, hg⟩ := hs'.callees hf' part hcallees
      obtain ⟨_, _, _, hsymbol⟩ := hs'.of_get? h.lawful hg
      have hneed := need_of_lt (n := n + 1) hlt
      rw [← hsymbol]
      exact ends_equalityCall hdistinct hg (by omega) hp hq
    · cases hcallee
termination_by ty.raw.toNat
decreasing_by exact UInt32.lt_iff_toNat_lt.1 hlt

end Calls

/-- Numbers and strings are compared by primitives. -/
theorem ends_leafEqual (h : Lawful table) {operation : Operation} {depth : Nat} (hty : table.Has ty)
    (hbase : table.base ty ∈ [.string, .float32, .float64, .complex64, .complex128])
    (hoperation : Operation.ofAlgorithm? (table.algorithm ty) = some operation)
    (dynamic : TypeId → Word → Word → Except EvalError Bool) :
    Ends table s (invoke table arena (depth + 1) (.primitive ⟨.equality, operation⟩) [p, q])
      (· = (wordOfBool <$> Leaves.equalVia table arena dynamic ty p q)) := by
  obtain ⟨e, hget⟩ := hty
  rw [algorithm] at hoperation
  rw [base_of_get hget] at hbase hoperation
  simp only [List.mem_cons, List.not_mem_nil, or_false] at hbase
  rw [Leaves.equalVia_lone h hget, leafOf, invoke]
  · rcases hbase with hbase | hbase | hbase | hbase | hbase
    all_goals
      rw [hbase] at hoperation
      cases hoperation
      rw [hbase]
      exact .map_eq _ (.lift rfl)
  all_goals rcases hbase with hbase | hbase | hbase | hbase | hbase <;> rw [hbase] <;> decide

/-- Plain memory is compared by primitives, of a fixed width or for the size in the closure. -/
theorem ends_memoryEqual {c : Closure} {depth : Nat} (hty : table.Has ty)
    (hbase : table.base ty = .memory) (hc : Builds table s (closureKey table .equality ty) c)
    (dynamic : TypeId → Word → Word → Except EvalError Bool) :
    Ends table s (callClosure (invoke table arena (depth + 1)) c.target c.payload [p, q])
      (· = (wordOfBool <$> Leaves.equalVia table arena dynamic ty p q)) := by
  have hcompare : Leaves.equalVia table arena dynamic ty p q =
      Primitives.memoryEqual arena p q (table.sizeOf ty) := by
    obtain ⟨e, hget⟩ := hty
    rw [base_of_get hget] at hbase
    rw [Leaves.equalVia_memory hget hbase, sizeOf_of_get hget]
  rcases hc.of_memory hbase with ⟨width, hwidth, htarget, hpayload⟩ | ⟨htarget, hpayload⟩
  · rw [htarget, hpayload, callClosure_none, invoke, hcompare, ← hwidth]
    exact .map_eq _ (.lift rfl)
  · rw [htarget, hpayload, hcompare]
    change Ends table s (invoke table arena (depth + 1) (.primitive ⟨.equality, .varMemory⟩)
      [p, q, table.sizeOf ty]) _
    rw [invoke]
    exact .map_eq _ (.lift rfl)

/-- The closure of a type compares two images leaf by leaf. -/
theorem ends_equalityClosure (h : Built table) (hpointer : table.target.pointerSize.toNat ≤ 8)
    (hdistinct : table.TextsDistinct) {c : Closure} {depth : Nat} (hty : table.Has ty)
    (hne : table.base ty ≠ .noEquality) (hc : Builds table s (closureKey table .equality ty) c)
    (hdepth : need n ty ≤ depth) (hp : ImageWithin table arena n ty p)
    (hq : ImageWithin table arena n ty q) :
    Ends table s (callClosure (invoke table arena depth) c.target c.payload [p, q])
      (· = (wordOfBool <$> Leaves.equalWithin table arena n ty p q)) := by
  induction n generalizing ty s c p q depth with
  | zero => exact hp.elim
  | succ n ih =>
    -- Values in interfaces are images one level less deep.
    have hclosures : ∀ depth, (n + 1) * perLevel ≤ depth →
        ComparesClosures table arena (callClosure (invoke table arena depth)) n :=
      fun depth hdepth _ inner _ _ _ hty hne hc hp hq =>
        ih hty hne hc (Nat.le_trans (need_of_inner n inner) hdepth) hp hq
    have hpositive : (n + 1) * perLevel < depth := by
      unfold need at hdepth
      omega
    obtain ⟨depth', rfl⟩ := Nat.exists_eq_add_of_lt hpositive
    have hprimitive : ∀ operation, Operation.ofAlgorithm? (table.algorithm ty) = some operation →
        operation ≠ .varMemory →
        Ends table s (invoke table arena ((n + 1) * perLevel + depth' + 1)
            (.primitive ⟨.equality, operation⟩) [p, q])
          (· = (wordOfBool <$> Leaves.equalWithin table arena (n + 1) ty p q)) →
        Ends table s (callClosure (invoke table arena ((n + 1) * perLevel + depth' + 1)) c.target
            c.payload [p, q])
          (· = (wordOfBool <$> Leaves.equalWithin table arena (n + 1) ty p q)) := by
      intro operation hoperation hfixed hends
      obtain ⟨htarget, hpayload⟩ := hc.of_primitive hoperation hfixed
      rwa [htarget, hpayload, callClosure_none]
    cases hbase : table.base ty with
    | memory => exact ends_memoryEqual hty hbase hc _
    | string | float32 | float64 | complex64 | complex128 =>
      have hoperation : ∃ operation, Operation.ofAlgorithm? (table.algorithm ty) = some operation ∧
          operation ≠ .varMemory := by
        rw [algorithm, hbase]
        exact ⟨_, rfl, by decide⟩
      obtain ⟨operation, hoperation, hfixed⟩ := hoperation
      exact hprimitive operation hoperation hfixed
        (ends_leafEqual h.lawful hty (by rw [hbase]; decide) hoperation _)
    | interface =>
      exact hprimitive .interface (by rw [algorithm, hbase]; rfl) (by decide)
        (ends_interfaceCall h hpointer hclosures hty (.inl ⟨hbase, rfl⟩) hpositive hp hq)
    | nilInterface =>
      exact hprimitive .nilInterface (by rw [algorithm, hbase]; rfl) (by decide)
        (ends_interfaceCall h hpointer hclosures hty (.inr ⟨hbase, rfl⟩) hpositive hp hq)
    | special =>
      obtain ⟨f, hf, htarget, hpayload⟩ := hc.of_special hbase
      rw [htarget, hpayload, callClosure_none]
      exact ends_equalityCall h hpointer hclosures hdistinct hf hdepth hp hq
    | noEquality => exact absurd hbase hne

end Evaluation

namespace Machine

/-- Whatever has been asked of a machine, comparing two images by the closure of their type comes to
    comparing them along the type: with the same truth value, or with the same panic. -/
theorem equal_eq_structuralEqual {machine : Machine} (hbuilt : Built table)
    (hpointer : table.target.pointerSize.toNat ≤ 8) (hwhole : table.OpaqueWhole)
    (hdistinct : table.TextsDistinct) (hmachine : Reachable table machine) (hty : table.Has ty)
    (halgorithm : table.algorithm ty ≠ .noEquality) (hp : Image table machine.arena ty p)
    (hq : Image table machine.arena ty q) :
    (equal ty p q machine).1 = (structuralEqual ty p q machine).1 ∧
      ((∃ b, (equal ty p q machine).1 = .ok b) ∨
        ∃ text, (equal ty p q machine).1 = .error (.panic text)) := by
  obtain ⟨htable, hsound⟩ := hmachine.sound hbuilt
  have h := hbuilt.lawful
  have hne : table.base ty ≠ .noEquality := fun hbase =>
    halgorithm (algorithm_eq_noEquality_iff.2 hbase)
  have hneed := Evaluation.need_le_callLimit ty
  have hlimit := Evaluation.limit_le_callLimit
  have hplaces := placeNumber_lt
  generalize 2 ^ 96 = n at hneed hlimit hplaces
  have hp := hp.within hplaces
  have hq := hq.within hplaces
  have hends : Ends table machine.session
      (EvalM.ofRequest (equalityClosure table ty) >>= fun answer =>
        compareBy ty p q answer table machine.arena)
      (· = Leaves.equalWithin table machine.arena n ty p q) :=
    Evaluation.ends_equalityRequest hbuilt hty
      (fun _ hc => (Evaluation.ends_equalityClosure hbuilt hpointer hdistinct hty hne hc hneed hp
        hq).truth)
      fun hnone => absurd hnone hne
  -- Both go leaf by leaf: the closures, and the walk along the type.
  have hequal : (equal ty p q machine).1 = Leaves.equalWithin table machine.arena n ty p q := by
    rw [equal_eq, evaluate_apply, htable]
    exact (hends machine.session hsound (.refl _)).post
  have hstructural : (structuralEqual ty p q machine).1 =
      Leaves.equalWithin table machine.arena n ty p q := by
    change Structural.equal machine.table machine.arena ty p q = _
    rw [htable]
    exact Structural.equalWithin_eq_leaves h hwhole hlimit hty hne hp hq
  rw [hequal, hstructural]
  exact ⟨rfl, Leaves.equalWithin_answers h hpointer hp hq⟩

/-- Two pairs of pairs that differ in a blank byte only. -/
theorem equal_eq_structuralEqual_pairs :
    (equal ⟨33⟩ 4096 4168 pairMachine).1 = (structuralEqual ⟨33⟩ 4096 4168 pairMachine).1 ∧
      ((∃ b, (equal ⟨33⟩ 4096 4168 pairMachine).1 = .ok b) ∨
        ∃ text, (equal ⟨33⟩ 4096 4168 pairMachine).1 = .error (.panic text)) :=
  equal_eq_structuralEqual built_pairTable (by decide +kernel) opaqueWhole_pairTable
    textsDistinct_pairTable reachable_pairMachine (by decide +kernel) (by decide +kernel)
    image_pairArena.1 image_pairArena.2

end Machine

end HashEq

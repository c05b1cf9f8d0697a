import HashEq.Proofs.Machine.Calls
import HashEq.Proofs.Machine.HashCode
import HashEq.Proofs.Machine.Reading

/-!
# Hashing images

Hashing an image by the closure of its type comes to hashing it along the type, from
any state on and whatever has been generated before, and ends with a state or a panic.

* `ends_interfaceHash`: the primitive for interfaces, given closures for their values;
* `ends_hashCall`: functions, given the closures of the values in interfaces;
* `ends_hashClosure`: closures;
* `Machine.hash_eq_structuralHash`: machines.
-/

namespace HashEq

open Session TypeTable

variable {table : TypeTable} {arena : Arena} {s : Session} {ty : TypeId} {n : Nat} {p seed : Word}

namespace Evaluation

/-- Closures hash images in which interfaces nest less than `n` deep. -/
def HashesClosures (table : TypeTable) (arena : Arena) (call : Primitives.Caller) (n : Nat) : Prop :=
  ∀ {s : Session} {ty : TypeId} {c : Closure} {p : Word}, table.Has ty →
    table.base ty ≠ .noEquality → Builds table s (closureKey table .hash ty) c →
    ImageWithin table arena n ty p → ∀ seed,
    Ends table s (call c.target c.payload [p, seed])
      (· = Leaves.hashWithin table arena n ty p seed)

/-- The closure that hashes values of a type is asked for, and there is one if the type has
    equality. -/
theorem ends_hashRequest {next : Closure → EvalM Word} {post : Except EvalError Word → Prop}
    (h : Built table) (hty : table.Has ty) (hne : table.base ty ≠ .noEquality)
    (hnext : ∀ {s : Session} {c : Closure}, Builds table s (closureKey table .hash ty) c →
      Ends table s (next c) post) :
    Ends table s (EvalM.ofRequest (hashClosure table ty) >>= next) post := by
  intro s₁ hs₁ _
  have hclosure : Runs table s₁ (EvalM.ofRequest (hashClosure table ty)) fun answer s₂ =>
      ∃ c, answer = .ok c ∧ Builds table s₂ (closureKey table .hash ty) c :=
    (runs_hashClosure h hs₁).ofRequest fun answer s₂ hanswer => by
      cases answer with
      | ok c => exact ⟨c, rfl, hanswer⟩
      | error e => exact absurd ⟨hty, hne⟩ hanswer
  refine hclosure.bind (fun c s₂ hs₂ _ hanswer => ?_) fun e s₂ _ _ hanswer => ?_
  · obtain ⟨_, hclosure, hc⟩ := hanswer
    cases hclosure
    exact hnext hc s₂ hs₂ (.refl s₂)
  · obtain ⟨_, hclosure, _⟩ := hanswer
    cases hclosure

/-- Interfaces are hashed by the closures of the values in them. -/
theorem ends_interfaceHash {call : Primitives.Caller} (h : Built table)
    (hpointer : table.target.pointerSize.toNat ≤ 8) (hcall : HashesClosures table arena call n)
    (hty : table.Has ty) (hbase : table.base ty = .interface ∨ table.base ty = .nilInterface)
    (hp : ImageWithin table arena (n + 1) ty p) (seed : Word) :
    Ends table s (Primitives.interfaceHash table arena call p seed)
      (· = Leaves.hashWithin table arena (n + 1) ty p seed) := by
  have hleaves := leaves_interface h.lawful hty hbase
  have hleaf : (0, Leaf.interface) ∈ table.leaves ty := hleaves ▸ List.mem_singleton_self _
  obtain ⟨word, data, hload⟩ := hp.readable.loadPair_isOk h.lawful hpointer hleaf (.inr rfl)
  have hashed : Leaves.hashWithin table arena (n + 1) ty p seed =
      Leaf.interface.hash table arena (Leaves.hashWithin table arena n) (p + 0) seed := by
    rw [Leaves.hashWithin, Leaves.hashVia, hleaves, List.foldlM_cons]
    exact bind_pure _
  rw [hashed, Leaf.hash_interface hload]
  have hload' := hload
  rw [UInt64.add_zero] at hload'
  have hloaded : Primitives.interfaceHash table arena call p seed =
      if word = 0 then pure seed
      else liftM (typeOfWord word) >>= fun inner =>
        (liftM (table.get inner) : EvalM Entry) >>= fun _ =>
        if table.algorithm inner = .noEquality then
          liftM (table.text inner) >>= fun text => (throw (.unhashable text) : EvalM Unit) >>=
            fun _ => EvalM.ofRequest (hashClosure table inner) >>= fun closure =>
              call closure.target closure.payload [data, seed ^^^ mixIn] >>= fun answer =>
                pure (mixOut * answer)
        else EvalM.ofRequest (hashClosure table inner) >>= fun closure =>
          call closure.target closure.payload [data, seed ^^^ mixIn] >>= fun answer =>
            pure (mixOut * answer) := by
    rw [Primitives.interfaceHash, hload']
    rfl
  rw [hloaded]
  -- Nil leaves the state as it is.
  split
  · exact .pure rfl
  next hzero =>
  obtain ⟨inner, htold, hhas⟩ := hp.readable.interfaces hleaf hload hzero
  rw [dynamicType_eq h.lawful _ htold hhas, htold]
  change Ends table s (liftM (table.get inner) >>= fun _ => _) _
  rw [hhas.get_eq]
  change Ends table s (if table.algorithm inner = .noEquality then _ else _) _
  -- A type without equality panics with its text before its closure is asked for.
  by_cases hne : table.base inner = .noEquality
  · rw [if_pos hne, if_pos (algorithm_eq_noEquality_iff.2 hne), h.lawful.text_eq hhas]
    exact .throw rfl
  · rw [if_neg hne, if_neg fun halgorithm => hne (algorithm_eq_noEquality_iff.1 halgorithm)]
    have hholds := hp.2 inner data ⟨0, word, hleaf, hload, hzero, htold, hne⟩
    exact ends_hashRequest h hhas hne fun hc =>
      (hcall hhas hne hc hholds _).bind_eq fun _ _ => .pure rfl

/-- Numbers and strings are hashed by primitives. -/
theorem ends_leafHash (h : Lawful table) {operation : Operation} {depth : Nat} (hty : table.Has ty)
    (hbase : table.base ty ∈ [.string, .float32, .float64, .complex64, .complex128])
    (hoperation : Operation.ofAlgorithm? (table.algorithm ty) = some operation)
    (dynamic : TypeId → Word → Word → Except EvalError Word) (seed : Word) :
    Ends table s (invoke table arena (depth + 1) (.primitive ⟨.hash, operation⟩) [p, seed])
      (· = Leaves.hashVia table arena dynamic ty p seed) := by
  obtain ⟨e, hget⟩ := hty
  rw [algorithm] at hoperation
  rw [base_of_get hget] at hbase hoperation
  simp only [List.mem_cons, List.not_mem_nil, or_false] at hbase
  rw [Leaves.hashVia_lone h hget, leafOf, invoke]
  · rcases hbase with hbase | hbase | hbase | hbase | hbase
    all_goals
      rw [hbase] at hoperation
      cases hoperation
      rw [hbase]
      exact .lift rfl
  all_goals rcases hbase with hbase | hbase | hbase | hbase | hbase <;> rw [hbase] <;> decide

/-- Plain memory is hashed by primitives, of a fixed width or for the size in the closure. -/
theorem ends_memoryHash {c : Closure} {depth : Nat} (hty : table.Has ty)
    (hbase : table.base ty = .memory) (hc : Builds table s (closureKey table .hash ty) c)
    (dynamic : TypeId → Word → Word → Except EvalError Word) (seed : Word) :
    Ends table s (callClosure (invoke table arena (depth + 1)) c.target c.payload [p, seed])
      (· = Leaves.hashVia table arena dynamic ty p seed) := by
  have hhash : Leaves.hashVia table arena dynamic ty p seed =
      Primitives.memoryHash arena p (table.sizeOf ty) seed := by
    obtain ⟨e, hget⟩ := hty
    rw [base_of_get hget] at hbase
    rw [Leaves.hashVia_memory hget hbase, sizeOf_of_get hget]
  rcases hc.of_memory hbase with ⟨width, hwidth, htarget, hpayload⟩ | ⟨htarget, hpayload⟩
  · rw [htarget, hpayload, callClosure_none, invoke, hhash, ← hwidth]
    exact .lift rfl
  · rw [htarget, hpayload, hhash]
    change Ends table s (invoke table arena (depth + 1) (.primitive ⟨.hash, .varMemory⟩)
      [p, table.sizeOf ty, seed]) _
    rw [invoke]
    exact .lift rfl

section Calls

variable (h : Built table) (hpointer : table.target.pointerSize.toNat ≤ 8)
  (hclosures : ∀ depth, (n + 1) * perLevel ≤ depth →
    HashesClosures table arena (callClosure (invoke table arena depth)) n)
include h hpointer hclosures

/-- A call of a primitive for interfaces. -/
theorem ends_interfaceHashCall {operation : Operation} {depth : Nat} (hty : table.Has ty)
    (hbase : table.base ty = .interface ∧ operation = .interface ∨
      table.base ty = .nilInterface ∧ operation = .nilInterface)
    (hdepth : (n + 1) * perLevel < depth) (hp : ImageWithin table arena (n + 1) ty p) (seed : Word) :
    Ends table s (invoke table arena depth (.primitive ⟨.hash, operation⟩) [p, seed])
      (· = Leaves.hashWithin table arena (n + 1) ty p seed) := by
  obtain ⟨depth, rfl⟩ := Nat.exists_eq_add_of_lt hdepth
  rw [invoke]
  rcases hbase with ⟨hbase, rfl⟩ | ⟨hbase, rfl⟩
  · exact ends_interfaceHash h hpointer (hclosures _ (by omega)) hty (.inl hbase) hp seed
  · exact ends_interfaceHash h hpointer (hclosures _ (by omega)) hty (.inr hbase) hp seed

/-- A call of the function of a type, which calls those of smaller types. -/
theorem ends_hashCall (hdistinct : table.TextsDistinct) {ty : TypeId} {s : Session} {f : Function}
    {p : Word} {depth : Nat} (hf : s.functions.get? (ty, .hash) = some f)
    (hdepth : need (n + 1) ty ≤ depth) (hp : ImageWithin table arena (n + 1) ty p) (seed : Word) :
    Ends table s (invoke table arena depth (.generated f.symbol) [p, seed])
      (· = Leaves.hashWithin table arena (n + 1) ty p seed) := by
  have hpositive : (n + 1) * perLevel + 2 ≤ depth := by
    unfold need at hdepth
    omega
  obtain ⟨depth, rfl⟩ := Nat.exists_eq_add_of_le' (Nat.le_trans (Nat.le_add_left 2 _) hpositive)
  intro s' hs' hextends
  have hf' := hextends.functions hf
  obtain ⟨hty, hspecial, hsynthesize, _⟩ := hs'.of_get? h.lawful hf'
  refine ends_generated h.lawful hdistinct hf' ?_ s' hs' (.refl s')
  refine Interpreter.ends_hashFunction h.lawful ⟨fun p size seed => ?_, ?_⟩ hty hspecial hp
    hsynthesize seed
  · rw [invoke]
    exact .lift rfl
  · intro part callee p hhas hknown hcallee hp seed
    have hleaf : ∀ operation, table.base part ∈ [.string, .float32, .float64, .complex64, .complex128] →
        Operation.ofAlgorithm? (table.algorithm part) = some operation →
        Ends table s' (invoke table arena (depth + 1) (.primitive ⟨.hash, operation⟩) [p, seed])
          (· = Leaves.hashWithin table arena (n + 1) part p seed) :=
      fun operation hbase hoperation => ends_leafHash h.lawful hhas hbase hoperation _ seed
    unfold TypeTable.hashCallee at hcallee
    cases hbase : table.base part with
    | memory | noEquality =>
      rw [hbase] at hcallee
      obtain ⟨_, _, hcallee⟩ := bind_eq_ok_iff.1 hcallee
      cases hcallee
    | string | float32 | float64 | complex64 | complex128 =>
      rw [hbase] at hcallee
      cases hcallee
      exact hleaf _ (by rw [hbase]; decide) (by rw [algorithm, hbase]; rfl)
    | interface =>
      rw [hbase] at hcallee
      cases hcallee
      exact ends_interfaceHashCall h hpointer hclosures hhas (.inl ⟨hbase, rfl⟩) (by omega) hp seed
    | nilInterface =>
      rw [hbase] at hcallee
      cases hcallee
      exact ends_interfaceHashCall h hpointer hclosures hhas (.inr ⟨hbase, rfl⟩) (by omega) hp seed
    | special =>
      rw [hbase] at hcallee
      obtain ⟨symbol, hknownSymbol, hcallee⟩ := bind_eq_ok_iff.1 hcallee
      cases hcallee
      -- The function of the part is known, and the part comes before the type.
      have hcallees := hknown hbase
      have hlt := callees_lt hcallees
      obtain ⟨g, hg⟩ := hs'.callees hf' part hcallees
      obtain ⟨_, _, _, hsymbol⟩ := hs'.of_get? h.lawful hg
      rw [h.lawful.symbolOf_eq hhas, Except.ok.injEq, ← hsymbol] at hknownSymbol
      have hneed := need_of_lt (n := n + 1) hlt
      rw [← hknownSymbol]
      exact ends_hashCall hdistinct hg (by omega) hp seed
termination_by ty.raw.toNat
decreasing_by exact UInt32.lt_iff_toNat_lt.1 hlt

end Calls

/-- The closure of a type hashes an image leaf by leaf. -/
theorem ends_hashClosure (h : Built table) (hpointer : table.target.pointerSize.toNat ≤ 8)
    (hdistinct : table.TextsDistinct) {c : Closure} {depth : Nat} (hty : table.Has ty)
    (hne : table.base ty ≠ .noEquality) (hc : Builds table s (closureKey table .hash ty) c)
    (hdepth : need n ty ≤ depth) (hp : ImageWithin table arena n ty p) (seed : Word) :
    Ends table s (callClosure (invoke table arena depth) c.target c.payload [p, seed])
      (· = Leaves.hashWithin table arena n ty p seed) := by
  induction n generalizing ty s c p depth seed with
  | zero => exact hp.elim
  | succ n ih =>
    -- Values in interfaces are images one level less deep.
    have hclosures : ∀ depth, (n + 1) * perLevel ≤ depth →
        HashesClosures table arena (callClosure (invoke table arena depth)) n :=
      fun depth hdepth _ inner _ _ hty hne hc hp seed =>
        ih hty hne hc (Nat.le_trans (need_of_inner n inner) hdepth) hp seed
    have hpositive : (n + 1) * perLevel < depth := by
      unfold need at hdepth
      omega
    obtain ⟨depth', rfl⟩ := Nat.exists_eq_add_of_lt hpositive
    have hprimitive : ∀ operation, Operation.ofAlgorithm? (table.algorithm ty) = some operation →
        operation ≠ .varMemory →
        Ends table s (invoke table arena ((n + 1) * perLevel + depth' + 1)
            (.primitive ⟨.hash, operation⟩) [p, seed])
          (· = Leaves.hashWithin table arena (n + 1) ty p seed) →
        Ends table s (callClosure (invoke table arena ((n + 1) * perLevel + depth' + 1)) c.target
            c.payload [p, seed])
          (· = Leaves.hashWithin table arena (n + 1) ty p seed) := by
      intro operation hoperation hfixed hends
      obtain ⟨htarget, hpayload⟩ := hc.of_primitive hoperation hfixed
      rwa [htarget, hpayload, callClosure_none]
    cases hbase : table.base ty with
    | memory => exact ends_memoryHash hty hbase hc _ seed
    | string | float32 | float64 | complex64 | complex128 =>
      have hoperation : ∃ operation, Operation.ofAlgorithm? (table.algorithm ty) = some operation ∧
          operation ≠ .varMemory := by
        rw [algorithm, hbase]
        exact ⟨_, rfl, by decide⟩
      obtain ⟨operation, hoperation, hfixed⟩ := hoperation
      exact hprimitive operation hoperation hfixed
        (ends_leafHash h.lawful hty (by rw [hbase]; decide) hoperation _ seed)
    | interface =>
      exact hprimitive .interface (by rw [algorithm, hbase]; rfl) (by decide)
        (ends_interfaceHashCall h hpointer hclosures hty (.inl ⟨hbase, rfl⟩) hpositive hp seed)
    | nilInterface =>
      exact hprimitive .nilInterface (by rw [algorithm, hbase]; rfl) (by decide)
        (ends_interfaceHashCall h hpointer hclosures hty (.inr ⟨hbase, rfl⟩) hpositive hp seed)
    | special =>
      obtain ⟨f, hf, htarget, hpayload⟩ := hc.of_special hbase
      rw [htarget, hpayload, callClosure_none]
      exact ends_hashCall h hpointer hclosures hdistinct hf hdepth hp seed
    | noEquality => exact absurd hbase hne

end Evaluation

namespace Machine

/-- Whatever has been asked of a machine, hashing an image by the closure of its type comes to hashing
    it along the type: with the same state, or with the same panic. -/
theorem hash_eq_structuralHash {machine : Machine} (hbuilt : Built table)
    (hpointer : table.target.pointerSize.toNat ≤ 8) (hwhole : table.OpaqueWhole)
    (hdistinct : table.TextsDistinct) (hmachine : Reachable table machine) (hty : table.Has ty)
    (halgorithm : table.algorithm ty ≠ .noEquality) (hp : Image table machine.arena ty p)
    (seed : Word) :
    (hash ty p seed machine).1 = (structuralHash ty p seed machine).1 ∧
      ((∃ state, (hash ty p seed machine).1 = .ok state) ∨
        ∃ text, (hash ty p seed machine).1 = .error (.panic text)) := by
  obtain ⟨htable, hsound⟩ := hmachine.sound hbuilt
  have h := hbuilt.lawful
  have hne : table.base ty ≠ .noEquality := fun hbase =>
    halgorithm (algorithm_eq_noEquality_iff.2 hbase)
  have hneed := Evaluation.need_le_callLimit ty
  have hlimit := Evaluation.limit_le_callLimit
  have hplaces := placeNumber_lt
  generalize 2 ^ 96 = n at hneed hlimit hplaces
  have hp := hp.within hplaces
  have hends : Ends table machine.session
      (EvalM.ofRequest (hashClosure table ty) >>= fun closure =>
        Evaluation.callClosure (Evaluation.invoke table machine.arena Evaluation.callLimit)
          closure.target closure.payload [p, seed])
      (· = Leaves.hashWithin table machine.arena n ty p seed) :=
    Evaluation.ends_hashRequest hbuilt hty hne fun hc =>
      Evaluation.ends_hashClosure hbuilt hpointer hdistinct hty hne hc hneed hp seed
  have hhash : (hash ty p seed machine).1 = Leaves.hashWithin table machine.arena n ty p seed := by
    rw [hash_eq, evaluate_apply, htable]
    exact (hends machine.session hsound (.refl _)).post
  have hstructural : (structuralHash ty p seed machine).1 =
      Leaves.hashWithin table machine.arena n ty p seed := by
    change Structural.hash machine.table machine.arena ty p seed = _
    rw [htable]
    exact Structural.hashWithin_eq_leaves h hwhole hlimit hty hne hp seed
  rw [hhash, hstructural]
  exact ⟨rfl, Leaves.hashWithin_answers h hpointer hp seed⟩

/-- A pair of pairs, hashed from a state that is not zero. -/
theorem hash_eq_structuralHash_pairs :
    (hash ⟨33⟩ 4168 7 pairMachine).1 = (structuralHash ⟨33⟩ 4168 7 pairMachine).1 ∧
      ((∃ state, (hash ⟨33⟩ 4168 7 pairMachine).1 = .ok state) ∨
        ∃ text, (hash ⟨33⟩ 4168 7 pairMachine).1 = .error (.panic text)) :=
  hash_eq_structuralHash built_pairTable (by decide +kernel) opaqueWhole_pairTable
    textsDistinct_pairTable reachable_pairMachine (by decide +kernel) (by decide +kernel)
    image_pairArena.2 7

end Machine

end HashEq

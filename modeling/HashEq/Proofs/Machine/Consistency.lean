import HashEq.Proofs.Machine.EqualityRefinement
import HashEq.Proofs.Machine.HashRefinement

/-!
# Equal values hash alike

Leaves that are equal hash alike from any state on: blocks and strings because their
bytes are the same, numbers because their bits are, unless both are zero, and
interfaces because they hold values of the same type that hash alike in turn. So values
that are found equal have the same hash, whatever code finds it.

* `Agree`: evaluations that end with the same result;
* `Leaf.hash_agree`: equal leaves hash alike;
* `Leaves.hashWithin_agree`: so do values that are equal leaf by leaf;
* `Machine.equal_eq_leaves`, `Machine.hash_eq_leaves`: what machines answer;
* `Machine.hash_eq_of_equal`: equal values hash alike.
-/

namespace HashEq

open Session TypeTable

/-! ### Evaluations that agree -/

/-- Two evaluations end with the same result. -/
def Agree {ε α : Type} (x y : Except ε α) : Prop :=
  ∃ a, x = .ok a ∧ y = .ok a

namespace Agree

variable {ε α β : Type} {x y : Except ε α}

theorem ok (a : α) : Agree (.ok a : Except ε α) (.ok a) :=
  ⟨a, rfl, rfl⟩

theorem bind {next next' : α → Except ε β} (h : Agree x y) (hnext : ∀ a, Agree (next a) (next' a)) :
    Agree (x >>= next) (y >>= next') := by
  obtain ⟨a, rfl, rfl⟩ := h
  exact hnext a

theorem foldlM {l : List α} {f g : β → α → Except ε β} (h : ∀ b, ∀ a ∈ l, Agree (f b a) (g b a))
    (b : β) : Agree (l.foldlM f b) (l.foldlM g b) := by
  induction l generalizing b with
  | nil => exact .ok b
  | cons a l ih =>
    rw [List.foldlM_cons, List.foldlM_cons]
    exact (h b a List.mem_cons_self).bind fun b' => ih (fun b a ha => h b a (.tail _ ha)) b'

end Agree

variable {table : TypeTable} {arena : Arena} {ty : TypeId} {p q : Word} {n : Nat}

/-! ### Leaves -/

namespace Primitives

theorem memoryHash_agree {size : Word} (h : memoryEqual arena p q size = .ok true) (seed : Word) :
    Agree (memoryHash arena p size seed) (memoryHash arena q size seed) := by
  obtain ⟨a, ha, h⟩ := bind_eq_ok_iff.1 h
  obtain ⟨b, hb, h⟩ := bind_eq_ok_iff.1 h
  have hab : a = b := eq_of_beq (Except.ok.inj h)
  rw [memoryHash, memoryHash, ha, hb, hab]
  exact .ok _

theorem stringHash_agree (h : stringEqual table arena p q = .ok true) (seed : Word) :
    Agree (stringHash table arena p seed) (stringHash table arena q seed) := by
  obtain ⟨⟨pData, pLen⟩, hp, h⟩ := bind_eq_ok_iff.1 h
  obtain ⟨⟨qData, qLen⟩, hq, h⟩ := bind_eq_ok_iff.1 h
  dsimp only at h
  split at h
  · next hlen =>
    rw [stringHash, stringHash, hp, hq, ← hlen]
    exact memoryHash_agree h seed
  · cases h

/-- Numbers are the same only if their bytes are. -/
theorem read_of_readWord {width word : Word} (hp : arena.readWord p width = .ok word)
    (hq : arena.readWord q width = .ok word) :
    memoryEqual arena p q width = .ok true := by
  have hread : ∀ {p : Word}, arena.readWord p width = .ok word →
      arena.read p width = .ok (Arena.bytesOfWord width.toNat word) := by
    intro p hp
    obtain ⟨bytes, hread, hp⟩ := bind_eq_ok_iff.1 hp
    obtain ⟨hbounds, hbytes⟩ := Arena.of_read_eq_ok hread
    have hlength : bytes.length = width.toNat := hbytes ▸ Arena.length_bytesAt hbounds
    split at hp
    · next hwidth =>
      rw [hread, ← Except.ok.inj hp, ← hlength, Arena.bytesOfWord_wordOfBytes hwidth]
    · cases hp
  rw [memoryEqual, hread hp, hread hq]
  exact congrArg Except.ok (beq_self_eq_true _)

theorem floatHash_agree {format : FloatFormat} (h : floatEqual arena format p q = .ok true)
    (seed : Word) : Agree (floatHash arena format p seed) (floatHash arena format q seed) := by
  obtain ⟨a, ha, h⟩ := bind_eq_ok_iff.1 h
  obtain ⟨b, hb, h⟩ := bind_eq_ok_iff.1 h
  have hequal : format.equal a b = true := Except.ok.inj h
  rw [floatHash, floatHash, ha, hb]
  simp only [FloatFormat.equal, Bool.and_eq_true, Bool.or_eq_true, beq_iff_eq] at hequal
  rcases hequal.2 with rfl | ⟨haZero, hbZero⟩
  · change Agree (if format.isZero a = true then _ else _) (if format.isZero a = true then _ else _)
    split
    · exact .ok _
    · exact memoryHash_agree (read_of_readWord ha hb) seed
  · change Agree (if format.isZero a = true then _ else _) (if format.isZero b = true then _ else _)
    rw [if_pos haZero, if_pos hbZero]
    exact .ok _

theorem complexHash_agree {format : FloatFormat} (h : complexEqual arena format p q = .ok true)
    (seed : Word) : Agree (complexHash arena format p seed) (complexHash arena format q seed) := by
  obtain ⟨real, hreal, h⟩ := bind_eq_ok_iff.1 h
  cases real with
  | false => cases h
  | true =>
    obtain ⟨p', hp', h⟩ := bind_eq_ok_iff.1 h
    obtain ⟨q', hq', h⟩ := bind_eq_ok_iff.1 h
    rw [complexHash, complexHash]
    refine (floatHash_agree hreal seed).bind fun state => ?_
    rw [hp', hq']
    exact floatHash_agree h state

end Primitives

/-- Leaves that are equal hash alike if values that interfaces hold do. -/
theorem Leaf.hash_agree (h : Lawful table) {leaf : Leaf}
    {dynamic : TypeId → Word → Word → Except EvalError Bool}
    {dynamicHash : TypeId → Word → Word → Except EvalError Word}
    (hdynamic : ∀ inner pData qData, dynamic inner pData qData = .ok true → ∀ seed,
      Agree (dynamicHash inner pData seed) (dynamicHash inner qData seed))
    (hequal : leaf.equal table arena dynamic p q = .ok true) (seed : Word) :
    Agree (leaf.hash table arena dynamicHash p seed) (leaf.hash table arena dynamicHash q seed) := by
  cases leaf with
  | block size => exact Primitives.memoryHash_agree hequal seed
  | float format => exact Primitives.floatHash_agree hequal seed
  | complex format => exact Primitives.complexHash_agree hequal seed
  | string => exact Primitives.stringHash_agree hequal seed
  | interface =>
    obtain ⟨⟨pWord, pData⟩, hp, hrest⟩ := bind_eq_ok_iff.1 hequal
    obtain ⟨⟨qWord, qData⟩, hq, _⟩ := bind_eq_ok_iff.1 hrest
    rw [Leaf.equal_interface hp hq] at hequal
    rw [Leaf.hash_interface hp, Leaf.hash_interface hq]
    split at hequal
    · cases hequal
    next hsame =>
    rw [← Decidable.not_not.1 hsame]
    split at hequal
    · next hzero =>
      rw [if_pos hzero, if_pos hzero]
      exact .ok seed
    · next hzero =>
      obtain ⟨inner, htype, hinner⟩ := bind_eq_ok_iff.1 hequal
      obtain ⟨htold, hhas, hne⟩ := of_dynamicType htype
      rw [if_neg hzero, if_neg hzero, dynamicType_eq h _ htold hhas, if_neg hne]
      exact (hdynamic inner pData qData hinner _).bind fun state => .ok _

namespace Leaves

theorem hashVia_agree (h : Lawful table) {dynamic : TypeId → Word → Word → Except EvalError Bool}
    {dynamicHash : TypeId → Word → Word → Except EvalError Word}
    (hdynamic : ∀ inner pData qData, dynamic inner pData qData = .ok true → ∀ seed,
      Agree (dynamicHash inner pData seed) (dynamicHash inner qData seed))
    (hequal : equalVia table arena dynamic ty p q = .ok true) (seed : Word) :
    Agree (hashVia table arena dynamicHash ty p seed) (hashVia table arena dynamicHash ty q seed) :=
  .foldlM (fun state _ hmem => Leaf.hash_agree h hdynamic
    (conj_eq_true_iff.1 hequal _ (List.mem_map_of_mem hmem)) state) seed

/-- Values that are equal leaf by leaf hash alike, as deep as interfaces nest. -/
theorem hashWithin_agree (h : Lawful table) (hequal : equalWithin table arena n ty p q = .ok true)
    (seed : Word) :
    Agree (hashWithin table arena n ty p seed) (hashWithin table arena n ty q seed) := by
  induction n generalizing ty p q seed with
  | zero => cases hequal
  | succ n ih =>
    rw [equalWithin] at hequal
    refine hashVia_agree h (fun inner pData qData hinner => ?_) hequal seed
    exact ih hinner

end Leaves

/-! ### Machines -/

namespace Machine

variable {machine : Machine}

section Leaves

variable (hbuilt : Built table) (hpointer : table.target.pointerSize.toNat ≤ 8)
  (hdistinct : table.TextsDistinct) (hmachine : Reachable table machine) (hty : table.Has ty)
  (hne : table.base ty ≠ .noEquality) (hp : Image table machine.arena ty p)
include hbuilt hpointer hdistinct hmachine hty hne hp

/-- A machine compares images leaf by leaf. -/
theorem equal_eq_leaves (hq : Image table machine.arena ty q) :
    (equal ty p q machine).1 = Leaves.equalWithin table machine.arena (2 ^ 96) ty p q := by
  obtain ⟨htable, hsound⟩ := hmachine.sound hbuilt
  have hneed := Evaluation.need_le_callLimit ty
  have hplaces := placeNumber_lt
  generalize 2 ^ 96 = n at hneed hplaces ⊢
  have hends : Ends table machine.session
      (EvalM.ofRequest (equalityClosure table ty) >>= fun answer =>
        compareBy ty p q answer table machine.arena)
      (· = Leaves.equalWithin table machine.arena n ty p q) :=
    Evaluation.ends_equalityRequest hbuilt hty
      (fun _ hc => (Evaluation.ends_equalityClosure hbuilt hpointer hdistinct hty hne hc hneed
        (hp.within hplaces) (hq.within hplaces)).truth)
      fun hnone => absurd hnone hne
  rw [equal_eq, evaluate_apply, htable]
  exact (hends machine.session hsound (.refl _)).post

/-- A machine hashes images leaf by leaf. -/
theorem hash_eq_leaves (seed : Word) :
    (hash ty p seed machine).1 = Leaves.hashWithin table machine.arena (2 ^ 96) ty p seed := by
  obtain ⟨htable, hsound⟩ := hmachine.sound hbuilt
  have hneed := Evaluation.need_le_callLimit ty
  have hplaces := placeNumber_lt
  generalize 2 ^ 96 = n at hneed hplaces ⊢
  have hends : Ends table machine.session
      (EvalM.ofRequest (hashClosure table ty) >>= fun closure =>
        Evaluation.callClosure (Evaluation.invoke table machine.arena Evaluation.callLimit)
          closure.target closure.payload [p, seed])
      (· = Leaves.hashWithin table machine.arena n ty p seed) :=
    Evaluation.ends_hashRequest hbuilt hty hne fun hc =>
      Evaluation.ends_hashClosure hbuilt hpointer hdistinct hty hne hc hneed (hp.within hplaces) seed
  rw [hash_eq, evaluate_apply, htable]
  exact (hends machine.session hsound (.refl _)).post

end Leaves

/-- Values of a type without equality are never compared. -/
theorem equal_of_noEquality (hbuilt : Built table) (hmachine : Reachable table machine)
    (hty : table.Has ty) (hbase : table.base ty = .noEquality) :
    (equal ty p q machine).1 = .error (.uncomparable (table.shape ty).text) := by
  obtain ⟨htable, hsound⟩ := hmachine.sound hbuilt
  have hends : Ends table machine.session
      (EvalM.ofRequest (equalityClosure table ty) >>= fun answer =>
        compareBy ty p q answer table machine.arena)
      (· = .error (.uncomparable (table.shape ty).text)) := by
    refine Evaluation.ends_equalityRequest hbuilt hty (fun hne => absurd hbase hne) fun _ => ?_
    rw [compareBy, hbuilt.lawful.text_eq hty]
    exact .throw rfl
  rw [equal_eq, evaluate_apply, htable]
  exact (hends machine.session hsound (.refl _)).post

/-- Values that a machine finds equal hash alike, from any state on and whatever is asked before
    they are hashed. -/
theorem hash_eq_of_equal (hbuilt : Built table) (hpointer : table.target.pointerSize.toNat ≤ 8)
    (hdistinct : table.TextsDistinct) (hmachine : Reachable table machine) (hty : table.Has ty)
    (hp : Image table machine.arena ty p) (hq : Image table machine.arena ty q)
    (hequal : (equal ty p q machine).1 = .ok true) (seed : Word) :
    ∃ state, ∀ machine', Reachable table machine' → machine'.arena = machine.arena →
      (hash ty p seed machine').1 = .ok state ∧ (hash ty q seed machine').1 = .ok state := by
  have hne : table.base ty ≠ .noEquality := by
    intro hbase
    rw [equal_of_noEquality hbuilt hmachine hty hbase] at hequal
    cases hequal
  rw [equal_eq_leaves hbuilt hpointer hdistinct hmachine hty hne hp hq] at hequal
  obtain ⟨state, hpState, hqState⟩ := Leaves.hashWithin_agree hbuilt.lawful hequal seed
  refine ⟨state, fun machine' hmachine' harena => ?_⟩
  rw [← harena] at hp hq hpState hqState
  rw [hash_eq_leaves hbuilt hpointer hdistinct hmachine' hty hne hp,
    hash_eq_leaves hbuilt hpointer hdistinct hmachine' hty hne hq]
  exact ⟨hpState, hqState⟩

theorem eq_ok_of_toOption {α : Type} {answer : Except EvalError α} {a : α}
    (h : answer.toOption = some a) : answer = .ok a := by
  cases answer with
  | error _ => cases h
  | ok _ => exact congrArg Except.ok (Option.some.inj h)

theorem equal_pairMachine : (equal ⟨33⟩ 4096 4168 pairMachine).1 = .ok true := by
  rw [equal_eq_leaves built_pairTable (by decide +kernel) textsDistinct_pairTable
    reachable_pairMachine (by decide +kernel) (by decide +kernel) image_pairArena.1 image_pairArena.2]
  exact eq_ok_of_toOption (by decide +kernel)

/-- Two pairs of pairs that differ in a blank byte only. -/
theorem hash_eq_of_equal_pairs :
    ∃ state, (hash ⟨33⟩ 4096 7 pairMachine).1 = .ok state ∧
      (hash ⟨33⟩ 4168 7 pairMachine).1 = .ok state :=
  (hash_eq_of_equal built_pairTable (by decide +kernel) textsDistinct_pairTable
    reachable_pairMachine (by decide +kernel) image_pairArena.1 image_pairArena.2 equal_pairMachine
    7).imp fun _ hstate => hstate pairMachine reachable_pairMachine rfl

end Machine

end HashEq

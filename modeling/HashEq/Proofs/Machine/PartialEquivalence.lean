import HashEq.Proofs.Machine.Consistency
import HashEq.Proofs.Machine.Reached

/-!
# Comparison is a partial equivalence

It makes no difference which of two images comes first, not even for the panics, and
images that are equal to the same image are equal. An image is equal to itself exactly
if all that counts in it is: everything is but what is no number, and interfaces whose
values cannot be compared.

* `Leaf.equal_comm`, `Leaf.equal_trans`, `Leaf.equal_self_iff`: leaves;
* `Leaves.equalWithin_comm`, `Leaves.equalWithin_trans`, `Leaves.equalWithin_self_iff`:
  images leaf by leaf;
* `Machine.equal_partial_equivalence`: what machines answer.
-/

namespace HashEq

open Session TypeTable

theorem FloatFormat.equal_trans {format : FloatFormat} {a b c : Word}
    (hab : format.equal a b = true) (hbc : format.equal b c = true) : format.equal a c = true := by
  simp only [equal, Bool.and_eq_true, Bool.or_eq_true, beq_iff_eq] at hab hbc ⊢
  obtain ⟨⟨haNumber, _⟩, hab⟩ := hab
  obtain ⟨⟨_, hcNumber⟩, hbc⟩ := hbc
  refine ⟨⟨haNumber, hcNumber⟩, ?_⟩
  -- Zeros are equal whatever their signs, and nothing else is equal to them.
  rcases hab with rfl | ⟨haZero, hbZero⟩
  · exact hbc
  · rcases hbc with rfl | ⟨_, hcZero⟩
    · exact .inr ⟨haZero, hbZero⟩
    · exact .inr ⟨haZero, hcZero⟩

variable {table : TypeTable} {arena : Arena} {ty : TypeId} {p q r : Word} {n : Nat}

/-! ### Primitives -/

namespace Primitives

variable {size width : Word} {format : FloatFormat}

theorem memoryEqual_comm (hp : arena.inBounds p size.toNat = true)
    (hq : arena.inBounds q size.toNat = true) :
    memoryEqual arena p q size = memoryEqual arena q p size := by
  rw [memoryEqual_eq hp hq rfl, memoryEqual_eq hq hp rfl, Bool.beq_comm]

theorem memoryEqual_trans (hpq : memoryEqual arena p q size = .ok true)
    (hqr : memoryEqual arena q r size = .ok true) : memoryEqual arena p r size = .ok true := by
  obtain ⟨a, ha, hpq⟩ := bind_eq_ok_iff.1 hpq
  obtain ⟨b, hb, hpq⟩ := bind_eq_ok_iff.1 hpq
  obtain ⟨b', hb', hqr⟩ := bind_eq_ok_iff.1 hqr
  obtain ⟨c, hc, hqr⟩ := bind_eq_ok_iff.1 hqr
  rw [hb] at hb'
  cases hb'
  have hab : a = b := eq_of_beq (Except.ok.inj hpq)
  rw [memoryEqual, ha, hc, hab]
  exact hqr

theorem memoryEqual_self (hp : arena.inBounds p size.toNat = true) :
    memoryEqual arena p p size = .ok true := by
  rw [memoryEqual_eq hp hp rfl, beq_self_eq_true]

theorem floatEqual_comm (hwidth : format.width.toNat ≤ 8)
    (hp : arena.inBounds p format.width.toNat = true)
    (hq : arena.inBounds q format.width.toNat = true) :
    floatEqual arena format p q = floatEqual arena format q p := by
  obtain ⟨a, ha⟩ := readWord_isOk hp hwidth
  obtain ⟨b, hb⟩ := readWord_isOk hq hwidth
  rw [floatEqual, floatEqual, ha, hb]
  exact congrArg Except.ok (FloatFormat.equal_comm a b)

theorem floatEqual_trans (hpq : floatEqual arena format p q = .ok true)
    (hqr : floatEqual arena format q r = .ok true) : floatEqual arena format p r = .ok true := by
  obtain ⟨a, ha, hpq⟩ := bind_eq_ok_iff.1 hpq
  obtain ⟨b, hb, hpq⟩ := bind_eq_ok_iff.1 hpq
  obtain ⟨b', hb', hqr⟩ := bind_eq_ok_iff.1 hqr
  obtain ⟨c, hc, hqr⟩ := bind_eq_ok_iff.1 hqr
  rw [hb] at hb'
  cases hb'
  rw [floatEqual, ha, hc]
  exact congrArg Except.ok (FloatFormat.equal_trans (Except.ok.inj hpq) (Except.ok.inj hqr))

/-- Complex numbers are equal part by part. -/
theorem complexEqual_eq_true_iff : complexEqual arena format p q = .ok true ↔
    floatEqual arena format p q = .ok true ∧
      ∃ p' q', Word.add p format.width = .ok p' ∧ Word.add q format.width = .ok q' ∧
        floatEqual arena format p' q' = .ok true := by
  rw [complexEqual, bind_eq_ok_iff]
  constructor
  · rintro ⟨real, hreal, h⟩
    cases real with
    | false => cases h
    | true =>
      refine ⟨hreal, ?_⟩
      cases hp : Word.add p format.width with
      | error _ => rw [hp] at h; cases h
      | ok p' =>
        cases hq : Word.add q format.width with
        | error _ => rw [hp, hq] at h; cases h
        | ok q' =>
          rw [hp, hq] at h
          exact ⟨p', q', rfl, rfl, h⟩
  · rintro ⟨hreal, p', q', hp, hq, himaginary⟩
    refine ⟨true, hreal, ?_⟩
    rw [hp, hq]
    exact himaginary

theorem complexEqual_comm (hwidth : format.width.toNat ≤ 8)
    (hp : arena.inBounds p (2 * format.width.toNat) = true)
    (hq : arena.inBounds q (2 * format.width.toNat) = true) :
    complexEqual arena format p q = complexEqual arena format q p := by
  have hreal : ∀ {p : Word}, arena.inBounds p (2 * format.width.toNat) = true →
      arena.inBounds p format.width.toNat = true := fun hp => Arena.inBounds_mono hp (by omega)
  have himaginary : ∀ {p : Word}, arena.inBounds p (2 * format.width.toNat) = true →
      arena.inBounds (p + format.width) format.width.toNat = true :=
    fun hp => Arena.inBounds_add hp (by omega)
  rw [complexEqual, complexEqual, floatEqual_comm hwidth (hreal hp) (hreal hq),
    Arena.add_eq_ok hp (by omega), Arena.add_eq_ok hq (by omega)]
  refine bind_congr_ok fun real _ => ?_
  split
  · exact floatEqual_comm hwidth (himaginary hp) (himaginary hq)
  · rfl

theorem complexEqual_trans (hpq : complexEqual arena format p q = .ok true)
    (hqr : complexEqual arena format q r = .ok true) : complexEqual arena format p r = .ok true := by
  obtain ⟨hreal, p', q', hp, hq, himaginary⟩ := complexEqual_eq_true_iff.1 hpq
  obtain ⟨hreal', q'', r', hq', hr, himaginary'⟩ := complexEqual_eq_true_iff.1 hqr
  rw [hq] at hq'
  cases hq'
  exact complexEqual_eq_true_iff.2
    ⟨floatEqual_trans hreal hreal', p', r', hp, hr, floatEqual_trans himaginary himaginary'⟩

theorem stringEqual_trans (hpq : stringEqual table arena p q = .ok true)
    (hqr : stringEqual table arena q r = .ok true) : stringEqual table arena p r = .ok true := by
  obtain ⟨⟨pData, pLen⟩, hp, hpq⟩ := bind_eq_ok_iff.1 hpq
  obtain ⟨⟨qData, qLen⟩, hq, hpq⟩ := bind_eq_ok_iff.1 hpq
  obtain ⟨_, hq', hqr⟩ := bind_eq_ok_iff.1 hqr
  obtain ⟨⟨rData, rLen⟩, hr, hqr⟩ := bind_eq_ok_iff.1 hqr
  rw [hq] at hq'
  cases hq'
  dsimp only at hpq hqr
  split at hpq
  · next hlen =>
    subst hlen
    split at hqr
    · next hlen =>
      rw [stringEqual, hp, hr]
      change (if pLen = rLen then _ else _) = _
      rw [if_pos hlen]
      exact memoryEqual_trans hpq hqr
    · cases hqr
  · cases hpq

/-- Whether the bits at an address stand for no number. -/
def isNaN (arena : Arena) (format : FloatFormat) (p : Word) : Bool :=
  (arena.readWord p format.width).toOption.any format.isNaN

theorem floatEqual_self_iff (hwidth : format.width.toNat ≤ 8)
    (hp : arena.inBounds p format.width.toNat = true) :
    floatEqual arena format p p = .ok true ↔ isNaN arena format p = false := by
  obtain ⟨bits, hbits⟩ := readWord_isOk hp hwidth
  rw [floatEqual, isNaN, hbits]
  change (.ok (format.equal bits bits) : Except EvalError Bool) = .ok true ↔ _
  rw [Except.ok.injEq]
  exact FloatFormat.equal_self_iff bits

theorem complexEqual_self_iff (hwidth : format.width.toNat ≤ 8)
    (hp : arena.inBounds p (2 * format.width.toNat) = true) :
    complexEqual arena format p p = .ok true ↔
      isNaN arena format p = false ∧ isNaN arena format (p + format.width) = false := by
  have himaginary : arena.inBounds (p + format.width) format.width.toNat = true :=
    Arena.inBounds_add hp (by omega)
  rw [complexEqual_eq_true_iff, floatEqual_self_iff hwidth (Arena.inBounds_mono hp (by omega)),
    ← floatEqual_self_iff hwidth himaginary, Arena.add_eq_ok hp (by omega)]
  refine and_congr_right fun _ => ⟨?_, fun h => ⟨_, _, rfl, rfl, h⟩⟩
  rintro ⟨p', q', ⟨⟩, ⟨⟩, h⟩
  exact h

end Primitives

/-! ### Leaves -/

namespace Leaf

/-- Whether a leaf is a number whose bits stand for none. -/
def isNaN (arena : Arena) (p : Word) : Leaf → Bool
  | float format => Primitives.isNaN arena format p
  | complex format =>
    Primitives.isNaN arena format p || Primitives.isNaN arena format (p + format.width)
  | _ => false

/-- Whether a leaf is an interface that holds a value of a type without equality. -/
def isUncomparable (table : TypeTable) (arena : Arena) (p : Word) : Leaf → Bool
  | interface => (Primitives.loadPair table arena p).toOption.any fun pair =>
      pair.1 != 0 && (typeOfWord pair.1).toOption.any fun dynamic => table.base dynamic == .noEquality
  | _ => false

variable {leaf : Leaf} {offset : Word}
  {dynamic dynamic' : TypeId → Word → Word → Except EvalError Bool}

/-- It makes no difference which of two leaves comes first, if it makes none for the values in
    interfaces. -/
theorem equal_comm (h : Lawful table) (hpointer : table.target.pointerSize.toNat ≤ 8)
    (hp : Readable table arena ty p) (hq : Readable table arena ty q)
    (hmem : (offset, leaf) ∈ table.leaves ty)
    (hdynamic : ∀ inner pData qData, Holds table arena ty p inner pData →
      Holds table arena ty q inner qData → dynamic inner pData qData = dynamic inner qData pData) :
    leaf.equal table arena dynamic (p + offset) (q + offset) =
      leaf.equal table arena dynamic (q + offset) (p + offset) := by
  have hpFits := hp.fits h hmem
  have hqFits := hq.fits h hmem
  cases leaf with
  | block size => exact Primitives.memoryEqual_comm hpFits hqFits
  | float format => exact Primitives.floatEqual_comm hpFits.1 hpFits.2 hqFits.2
  | complex format => exact Primitives.complexEqual_comm hpFits.1 hpFits.2 hqFits.2
  | string =>
    obtain ⟨pData, pLen, hpLoad⟩ := hp.loadPair_isOk h hpointer hmem (.inl rfl)
    obtain ⟨qData, qLen, hqLoad⟩ := hq.loadPair_isOk h hpointer hmem (.inl rfl)
    have hpBytes := hp.strings hmem hpLoad
    have hqBytes := hq.strings hmem hqLoad
    rw [Leaf.equal, Leaf.equal, Primitives.stringEqual, Primitives.stringEqual, hpLoad, hqLoad]
    change (if pLen = qLen then _ else _) = (if qLen = pLen then _ else _)
    -- As many bytes are compared as the first string has, but only of strings of one length.
    by_cases hlen : pLen = qLen
    · rw [if_pos hlen, if_pos hlen.symm, ← hlen]
      exact Primitives.memoryEqual_comm hpBytes (hlen ▸ hqBytes)
    · rw [if_neg hlen, if_neg (Ne.symm hlen)]
  | interface =>
    obtain ⟨pWord, pData, hpLoad⟩ := hp.loadPair_isOk h hpointer hmem (.inr rfl)
    obtain ⟨qWord, qData, hqLoad⟩ := hq.loadPair_isOk h hpointer hmem (.inr rfl)
    rw [equal_interface hpLoad hqLoad, equal_interface hqLoad hpLoad]
    by_cases hword : pWord = qWord
    · subst hword
      rw [if_neg (not_not_intro rfl), if_neg (not_not_intro rfl)]
      split
      · rfl
      · next hzero =>
        refine bind_congr_ok fun inner htype => ?_
        obtain ⟨htold, _, hne⟩ := of_dynamicType htype
        exact hdynamic inner pData qData ⟨offset, pWord, hmem, hpLoad, hzero, htold, hne⟩
          ⟨offset, pWord, hmem, hqLoad, hzero, htold, hne⟩
    · rw [if_pos hword, if_pos (Ne.symm hword)]

/-- Interfaces are equal if both are nil or if they hold equal values of the same type. -/
theorem equal_interface_iff : interface.equal table arena dynamic p q = .ok true ↔
    ∃ word pData qData, Primitives.loadPair table arena p = .ok (word, pData) ∧
      Primitives.loadPair table arena q = .ok (word, qData) ∧
      (word ≠ 0 → ∃ inner, Structural.dynamicType table .uncomparable word = .ok inner ∧
        dynamic inner pData qData = .ok true) := by
  constructor
  · intro hequal
    obtain ⟨⟨pWord, pData⟩, hp, hrest⟩ := bind_eq_ok_iff.1 hequal
    obtain ⟨⟨qWord, qData⟩, hq, _⟩ := bind_eq_ok_iff.1 hrest
    rw [equal_interface hp hq] at hequal
    split at hequal
    · cases hequal
    next hword =>
    cases Decidable.not_not.1 hword
    refine ⟨pWord, pData, qData, hp, hq, fun hzero => ?_⟩
    rw [if_neg hzero] at hequal
    exact bind_eq_ok_iff.1 hequal
  · rintro ⟨word, pData, qData, hp, hq, hinner⟩
    rw [equal_interface hp hq, if_neg (not_not_intro rfl)]
    split
    · rfl
    · next hzero => exact bind_eq_ok_iff.2 (hinner hzero)

/-- Leaves that are equal to the same leaf are equal, if values in interfaces are. -/
theorem equal_trans
    (hdynamic : ∀ inner p q r, dynamic inner p q = .ok true → dynamic inner q r = .ok true →
      dynamic inner p r = .ok true)
    (hpq : leaf.equal table arena dynamic p q = .ok true)
    (hqr : leaf.equal table arena dynamic q r = .ok true) :
    leaf.equal table arena dynamic p r = .ok true := by
  cases leaf with
  | block size => exact Primitives.memoryEqual_trans hpq hqr
  | float format => exact Primitives.floatEqual_trans hpq hqr
  | complex format => exact Primitives.complexEqual_trans hpq hqr
  | string => exact Primitives.stringEqual_trans hpq hqr
  | interface =>
    obtain ⟨word, pData, qData, hp, hq, hpqInner⟩ := equal_interface_iff.1 hpq
    obtain ⟨word', qData', rData, hq', hr, hqrInner⟩ := equal_interface_iff.1 hqr
    rw [hq] at hq'
    cases hq'
    refine equal_interface_iff.2 ⟨word, pData, rData, hp, hr, fun hzero => ?_⟩
    obtain ⟨inner, htype, hpqInner⟩ := hpqInner hzero
    obtain ⟨inner', htype', hqrInner⟩ := hqrInner hzero
    rw [htype] at htype'
    cases htype'
    exact ⟨inner, htype, hdynamic inner pData qData rData hpqInner hqrInner⟩

theorem isUncomparable_eq_false_iff {word data : Word}
    (hload : Primitives.loadPair table arena p = .ok (word, data)) :
    interface.isUncomparable table arena p = false ↔
      (word ≠ 0 → ∀ inner, typeOfWord word = .ok inner → table.base inner ≠ .noEquality) := by
  have hread : interface.isUncomparable table arena p =
      (word != 0 && (typeOfWord word).toOption.any fun inner =>
        table.base inner == .noEquality) := by
    rw [isUncomparable, hload]
    rfl
  rw [hread]
  cases typeOfWord word with
  | error f => simp [Except.toOption]
  | ok inner => simp [Except.toOption]

/-- An interface is equal to itself exactly if its value can be compared, and is equal to
    itself. -/
theorem equal_self_interface_iff (h : Lawful table) {word data : Word}
    (hload : Primitives.loadPair table arena p = .ok (word, data))
    (htypes : word ≠ 0 → ∃ inner, typeOfWord word = .ok inner ∧ table.Has inner) :
    interface.equal table arena dynamic p p = .ok true ↔
      interface.isUncomparable table arena p = false ∧ ∀ inner data,
        heldAt table arena p = some (inner, data) → dynamic inner data data = .ok true := by
  rw [isUncomparable_eq_false_iff hload, equal_interface_iff]
  constructor
  · -- Both sides load the same pair.
    rintro ⟨_, _, _, hload', hload'', hinner⟩
    rw [hload] at hload' hload''
    cases hload'
    cases hload''
    refine ⟨fun hzero inner htold => ?_, fun inner data' hheld => ?_⟩
    · obtain ⟨inner', htype, _⟩ := hinner hzero
      obtain ⟨htold', _, hne⟩ := of_dynamicType htype
      rw [htold] at htold'
      cases htold'
      exact hne
    · obtain ⟨_, hload', hzero, htold, _⟩ := heldAt_eq_some_iff.1 hheld
      rw [hload] at hload'
      cases hload'
      obtain ⟨inner', htype, hself⟩ := hinner hzero
      rw [(of_dynamicType htype).1] at htold
      cases htold
      exact hself
  · rintro ⟨hcomparable, hheld⟩
    refine ⟨word, data, data, hload, hload, fun hzero => ?_⟩
    obtain ⟨inner, htold, hhas⟩ := htypes hzero
    have hne := hcomparable hzero inner htold
    refine ⟨inner, by rw [dynamicType_eq h _ htold hhas, if_neg hne], hheld inner data ?_⟩
    exact heldAt_eq_some_iff.2 ⟨word, hload, hzero, htold, hne⟩

/-- A leaf is equal to itself exactly if it is neither a number whose bits stand for none nor an
    interface whose value cannot be compared, and if the value that it may hold is equal to
    itself. -/
theorem equal_self_iff (h : Lawful table) (hpointer : table.target.pointerSize.toNat ≤ 8)
    (hp : Readable table arena ty p) (hmem : (offset, leaf) ∈ table.leaves ty) :
    leaf.equal table arena dynamic (p + offset) (p + offset) = .ok true ↔
      (leaf.isNaN arena (p + offset) = false ∧ leaf.isUncomparable table arena (p + offset) = false) ∧
        (leaf = .interface → ∀ inner data,
          heldAt table arena (p + offset) = some (inner, data) → dynamic inner data data = .ok true) := by
  have hfits := hp.fits h hmem
  cases leaf with
  | block size =>
    exact iff_of_true (Primitives.memoryEqual_self hfits) ⟨⟨rfl, rfl⟩, Leaf.noConfusion⟩
  | float format =>
    rw [Leaf.equal, Primitives.floatEqual_self_iff hfits.1 hfits.2]
    exact ⟨fun hnumber => ⟨⟨hnumber, rfl⟩, Leaf.noConfusion⟩, fun hself => hself.1.1⟩
  | complex format =>
    rw [Leaf.equal, Primitives.complexEqual_self_iff hfits.1 hfits.2, ← Bool.or_eq_false_iff]
    exact ⟨fun hnumber => ⟨⟨hnumber, rfl⟩, Leaf.noConfusion⟩, fun hself => hself.1.1⟩
  | string =>
    obtain ⟨data, len, hload⟩ := hp.loadPair_isOk h hpointer hmem (.inl rfl)
    refine iff_of_true ?_ ⟨⟨rfl, rfl⟩, Leaf.noConfusion⟩
    rw [Leaf.equal, Primitives.stringEqual, hload]
    exact (if_pos rfl).trans (Primitives.memoryEqual_self (hp.strings hmem hload))
  | interface =>
    obtain ⟨word, data, hload⟩ := hp.loadPair_isOk h hpointer hmem (.inr rfl)
    rw [equal_self_interface_iff h hload (hp.interfaces hmem hload)]
    exact ⟨fun hself => ⟨⟨rfl, hself.1⟩, fun _ => hself.2⟩, fun hself => ⟨hself.1.2, hself.2 rfl⟩⟩

end Leaf

/-! ### Images -/

namespace Leaves

/-- It makes no difference which of two images comes first. -/
theorem equalWithin_comm (h : Lawful table) (hpointer : table.target.pointerSize.toNat ≤ 8)
    (hp : ImageWithin table arena n ty p) (hq : ImageWithin table arena n ty q) :
    equalWithin table arena n ty p q = equalWithin table arena n ty q p := by
  induction n generalizing ty p q with
  | zero => rfl
  | succ n ih =>
    refine conj_map_congr ?_
    rintro ⟨offset, leaf⟩ hmem
    refine Leaf.equal_comm h hpointer hp.readable hq.readable hmem ?_
    intro inner pData qData hpHolds hqHolds
    exact ih (hp.2 inner pData hpHolds) (hq.2 inner qData hqHolds)

/-- What is equal to the same is equal. -/
theorem equalWithin_trans (hpq : equalWithin table arena n ty p q = .ok true)
    (hqr : equalWithin table arena n ty q r = .ok true) :
    equalWithin table arena n ty p r = .ok true := by
  induction n generalizing ty p q r with
  | zero => cases hpq
  | succ n ih =>
    refine conj_eq_true_iff.2 fun check hcheck => ?_
    obtain ⟨leaf, hmem, rfl⟩ := List.mem_map.1 hcheck
    exact Leaf.equal_trans (fun inner p q r hpq hqr => ih hpq hqr)
      (conj_eq_true_iff.1 hpq _ (List.mem_map_of_mem hmem))
      (conj_eq_true_iff.1 hqr _ (List.mem_map_of_mem hmem))

/-- An image is equal to itself exactly if it holds no bits that stand for no number and nothing
    that cannot be compared. -/
theorem equalWithin_self_iff (h : Lawful table) (hpointer : table.target.pointerSize.toNat ≤ 8)
    (hp : ImageWithin table arena n ty p) :
    equalWithin table arena n ty p p = .ok true ↔ ∀ a leaf, Reaches table arena ty p a leaf →
      leaf.isNaN arena a = false ∧ leaf.isUncomparable table arena a = false := by
  induction n generalizing ty p with
  | zero => exact hp.elim
  | succ n ih =>
    rw [equalWithin, equalVia, conj_eq_true_iff, List.forall_mem_map]
    -- Blocks are equal to themselves, so it makes no difference how plain memory is taken apart.
    have hown := forall_mem_atoms_iff ty h (motive := fun offset leaf =>
      leaf.isNaN arena (p + offset) = false ∧ leaf.isUncomparable table arena (p + offset) = false)
      fun _ _ => ⟨rfl, rfl⟩
    constructor
    · intro hself
      have hleaf := fun offset leaf hmem =>
        (Leaf.equal_self_iff h hpointer hp.readable hmem).1 (hself (offset, leaf) hmem)
      rintro a leaf (hatom | ⟨⟨offset, word, hmem, hheld⟩, hreaches⟩)
      · exact hown.2 (fun offset leaf hmem => (hleaf offset leaf hmem).1) _ leaf hatom
      · have hinner := (hleaf offset .interface hmem).2 rfl _ _ (heldAt_eq_some_iff.2 ⟨word, hheld⟩)
        exact (ih (hp.2 _ _ ⟨offset, word, hmem, hheld⟩)).1 hinner a leaf hreaches
    · rintro hself ⟨offset, leaf⟩ hmem
      refine (Leaf.equal_self_iff h hpointer hp.readable hmem).2 ⟨?_, ?_⟩
      · exact hown.1 (fun _ leaf hatom => hself _ leaf (.own hatom)) offset leaf hmem
      · rintro rfl inner data hheld
        obtain ⟨word, hheld⟩ := heldAt_eq_some_iff.1 hheld
        have hholds : Holds table arena ty p inner data := ⟨offset, word, hmem, hheld⟩
        exact (ih (hp.2 inner data hholds)).2 fun a leaf hreaches =>
          hself a leaf (.inside hholds hreaches)

end Leaves

/-! ### Machines -/

namespace Machine

variable {machine machine' machine'' : Machine}

/-- Comparing images is symmetric, down to the panics, and transitive. Images are equal to
    themselves exactly if nothing that counts in them is no number or cannot be compared. It makes
    no difference what is asked in between. -/
theorem equal_partial_equivalence (hbuilt : Built table)
    (hpointer : table.target.pointerSize.toNat ≤ 8) (hdistinct : table.TextsDistinct)
    (hmachine : Reachable table machine) (hmachine' : Reachable table machine')
    (hmachine'' : Reachable table machine'') (harena' : machine'.arena = machine.arena)
    (harena'' : machine''.arena = machine.arena) (hty : table.Has ty)
    (hne : table.base ty ≠ .noEquality) (hp : Image table machine.arena ty p)
    (hq : Image table machine.arena ty q) (hr : Image table machine.arena ty r) :
    (equal ty p q machine).1 = (equal ty q p machine').1 ∧
      ((equal ty p q machine).1 = .ok true → (equal ty q r machine').1 = .ok true →
        (equal ty p r machine'').1 = .ok true) ∧
      ((equal ty p p machine).1 = .ok true ↔ ∀ a leaf, Reaches table machine.arena ty p a leaf →
        leaf.isNaN machine.arena a = false ∧
          leaf.isUncomparable table machine.arena a = false) := by
  have h := hbuilt.lawful
  have hplaces := placeNumber_lt
  have hanswer : ∀ {later : Machine} {p q : Word}, Reachable table later →
      later.arena = machine.arena → Image table machine.arena ty p →
      Image table machine.arena ty q →
      (equal ty p q later).1 = Leaves.equalWithin table machine.arena (2 ^ 96) ty p q := by
    intro later p q hlater harena hp hq
    rw [← harena] at hp hq ⊢
    exact equal_eq_leaves hbuilt hpointer hdistinct hlater hty hne hp hq
  rw [hanswer hmachine rfl hp hq, hanswer hmachine' harena' hq hp, hanswer hmachine' harena' hq hr,
    hanswer hmachine'' harena'' hp hr, hanswer hmachine rfl hp hp]
  refine ⟨?_, Leaves.equalWithin_trans, ?_⟩
  · exact Leaves.equalWithin_comm h hpointer (hp.within hplaces) (hq.within hplaces)
  · exact Leaves.equalWithin_self_iff h hpointer (hp.within hplaces)

/-- Two pairs of pairs are equal in either order. So the second is equal to itself, and so is the
    first, as it holds neither floating-point numbers nor values that cannot be compared. -/
theorem equal_partial_equivalence_pairs :
    (equal ⟨33⟩ 4096 4168 pairMachine).1 = (equal ⟨33⟩ 4168 4096 pairMachine).1 ∧
      (equal ⟨33⟩ 4168 4168 pairMachine).1 = .ok true ∧
      (equal ⟨33⟩ 4096 4096 pairMachine).1 = .ok true := by
  have hp : ImageWithin pairTable pairArena 2 ⟨33⟩ 4096 := by decide +kernel
  have hregular : ∀ atom ∈ reached pairTable pairArena 2 ⟨33⟩ 4096,
      atom.2.isNaN pairArena atom.1 = false ∧
        atom.2.isUncomparable pairTable pairArena atom.1 = false := by decide +kernel
  obtain ⟨hcomm, _, hself⟩ := equal_partial_equivalence built_pairTable (by decide +kernel)
    textsDistinct_pairTable reachable_pairMachine reachable_pairMachine reachable_pairMachine rfl rfl
    (by decide +kernel) (by decide +kernel) image_pairArena.1 image_pairArena.2 image_pairArena.1
  obtain ⟨_, htrans, _⟩ := equal_partial_equivalence built_pairTable (by decide +kernel)
    textsDistinct_pairTable reachable_pairMachine reachable_pairMachine reachable_pairMachine rfl rfl
    (by decide +kernel) (by decide +kernel) image_pairArena.2 image_pairArena.1 image_pairArena.2
  refine ⟨hcomm, htrans (hcomm ▸ equal_pairMachine) equal_pairMachine, hself.2 ?_⟩
  exact fun a leaf hreaches => hregular _ ((reaches_iff hp).1 hreaches)

end Machine

end HashEq

import HashEq.Proofs.TypeTable.Built
import Mathlib.Algebra.Group.Nat.Defs

/-!
# Declaring types

A program declares its types one after the other, each by a kind that names types
which the table has by then. A declaration that repeats an earlier one is answered by
the same type, and any other one puts a new type at the end. What the table knows
about a type never changes.

* `Built.refused`: which declarations are refused, and why;
* `add_cases`: what adding a type does otherwise;
* `exists_answers`: every added type was declared, and `Answers.get`: as what it is;
* `interning_canonical`: declarations are the same type exactly if they are the same.
-/

namespace HashEq

namespace Kind

/-- A kind as it is told apart from others: opaque memory without an alignment has the
    alignment one. -/
def normal : Kind → Kind
  | opaqueMemory size align => opaqueMemory size (max align 1)
  | kind => kind

theorem refs_normal (kind : Kind) : kind.normal.refs = kind.refs := by
  cases kind <;> rfl

theorem structName?_normal (kind : Kind) : kind.normal.structName? = kind.structName? := by
  cases kind <;> rfl

theorem normal_not_mem_primitives {kind : Kind} (h : kind ∉ primitives) :
    kind.normal ∉ primitives := by
  cases kind with
  | opaqueMemory size align => simp [normal, primitives]
  | _ => exact h

end Kind

/-- A computation in two steps fails in the first step or in the second. -/
theorem bind_eq_error_iff {ε α β : Type} {first : Except ε α} {next : α → Except ε β} {f : ε} :
    first >>= next = .error f ↔ first = .error f ∨ ∃ a, first = .ok a ∧ next a = .error f := by
  cases first with
  | error f' => exact ⟨fun h => .inl (by cases h; rfl), fun h => h.elim (by rintro ⟨⟩; rfl) nofun⟩
  | ok a => exact ⟨fun h => .inr ⟨a, rfl, h⟩, fun h => h.elim nofun fun ⟨_, ha, h⟩ => by cases ha; exact h⟩

namespace TypeTable

variable {table later start : TypeTable} {kind : Kind} {ty : TypeId} {e : Entry}

/-! ### Refusals -/

/-- Adding a type interns its kind, unless it is opaque memory without a proper alignment. -/
theorem add_of_isAligned (h : kind.normal.IsAligned) : table.add kind = table.intern kind.normal := by
  cases kind with
  | opaqueMemory size align =>
    rw [add, TableM.add, if_pos (isAligned_max_iff.1 h)]
    rfl
  | _ => rfl

theorem add_of_not_isAligned (h : ¬kind.normal.IsAligned) : table.add kind = .error .assertion := by
  cases kind with
  | opaqueMemory size align =>
    rw [add, TableM.add, if_neg fun halign => h (isAligned_max_iff.2 halign)]
    rfl
  | _ => exact absurd trivial h

/-- Fields are placed unless an offset does not fit into a word. -/
theorem eq_overflow_of_placeMembers {members : List Member} {stop : Word} {f : Fault}
    (hmembers : ∀ member ∈ members, table.Has member.ty)
    (h : table.placeMembers stop members = .error f) : f = .overflow := by
  induction members generalizing stop with
  | nil => cases h
  | cons member members ih =>
    obtain ⟨e, he⟩ := hmembers member List.mem_cons_self
    rw [placeMembers, he] at h
    rcases bind_eq_error_iff.1 h with h | ⟨_, ha, h⟩
    · cases h
    cases ha
    rcases bind_eq_error_iff.1 h with h | ⟨offset, _, h⟩
    · exact (Word.checked_eq_error_iff.1 h).2
    rcases bind_eq_error_iff.1 h with h | ⟨next, _, h⟩
    · exact (Word.checked_eq_error_iff.1 h).2
    rcases bind_eq_error_iff.1 h with h | ⟨_, _, h⟩
    · exact ih (fun m hm => hmembers m (List.mem_cons_of_mem _ hm)) h
    · cases h

namespace Built

variable (h : Built table)
include h

/-- Three pointers fit into a word: two do, and pointers are a power of two wide. -/
theorem mul_three_pointerSize_isOk : ∃ size, Word.mul 3 table.target.pointerSize = .ok size := by
  obtain ⟨two, htwo⟩ := h.mul_pointerSize_isOk
  have hvalid := h.lawful.valid
  rw [Target.isValid, Bool.and_eq_true, Bool.and_eq_true, Bool.and_eq_true] at hvalid
  obtain ⟨k, hk⟩ := isPowerOfTwo_iff.1 hvalid.1.1.1
  have hlt : 2 ^ (k + 1) < 2 ^ 64 := by
    have hsize := two.toNat_lt
    rw [Word.toNat_of_mul htwo, hk] at hsize
    rw [Nat.pow_succ']
    exact hsize
  have hle : 2 ^ k ≤ 2 ^ 62 := by
    rw [Nat.pow_lt_pow_iff_right (by decide)] at hlt
    exact Nat.pow_le_pow_right (by decide) (by omega)
  refine ⟨UInt64.ofNat (3 * 2 ^ k), Word.checked_eq_ok_iff.2 ?_⟩
  rw [hk, UInt64.toNat_ofNat_of_lt' (by unfold UInt64.size; omega)]
  rfl

/-- Whatever is no struct can be laid out. -/
theorem layout_isOk (hrefs : ∀ ref ∈ kind.refs, table.Has ref)
    (hkind : ∀ name members, kind ≠ .struct name members) :
    ∃ layout, table.layout kind = .ok layout := by
  cases kind with
  | struct name members => exact absurd rfl (hkind name members)
  | array elem len =>
    obtain ⟨e, he⟩ := hrefs elem (List.mem_singleton_self _)
    exact ⟨_, bind_eq_ok_iff.2 ⟨e, he, rfl⟩⟩
  | string | any | interface _ =>
    obtain ⟨size, hsize⟩ := h.mul_pointerSize_isOk
    exact ⟨_, bind_eq_ok_iff.2 ⟨size, hsize, rfl⟩⟩
  | slice elem =>
    obtain ⟨size, hsize⟩ := h.mul_three_pointerSize_isOk
    exact ⟨_, bind_eq_ok_iff.2 ⟨size, hsize, rfl⟩⟩
  | _ => exact ⟨_, rfl⟩

omit h in
/-- A kind that can be laid out is interned, as long as there are numbers. -/
theorem layout_of_intern_eq_error {f : Fault}
    (hsize : TypeId.numberOfSlot table.size < UInt32.size) (hintern : table.intern kind = .error f) :
    table.layout kind = .error f := by
  obtain ⟨later, hrun⟩ := outcome_eq_error_iff.1 hintern
  cases hfind : table.find? kind with
  | some ty =>
    rw [TableM.intern_of_find?_eq_some hfind] at hrun
    cases hrun
  | none =>
    rw [TableM.intern_of_find?_eq_none hfind] at hrun
    rcases TableM.append_cases hrun with ⟨_, _, _, heq, _⟩ | ⟨_, heq, _, hentry | hslot⟩
    · cases heq
    · cases heq
      rcases bind_eq_error_iff.1 hentry with hlayout | ⟨_, _, hentry⟩
      · exact hlayout
      · cases hentry
    · -- There is a number left.
      obtain ⟨ty, hty⟩ := ofSlot_of_lt hsize
      rw [hty] at hslot
      cases hslot

/-- A type is not added only if it is opaque memory without a proper alignment, or a struct that
    does not fit into words. -/
theorem refused (hsize : TypeId.numberOfSlot table.size < UInt32.size)
    (hrefs : ∀ ref ∈ kind.refs, table.Has ref) {f : Fault} (hadd : table.add kind = .error f) :
    f = .assertion ∧ ¬kind.normal.IsAligned ∨
      f = .overflow ∧ table.layout kind = .error .overflow ∧
        ∃ name members, kind = .struct name members := by
  by_cases haligned : kind.normal.IsAligned
  · rw [add_of_isAligned haligned] at hadd
    have hlayout := layout_of_intern_eq_error hsize hadd
    by_cases hstruct : ∃ name members, kind = .struct name members
    · obtain ⟨name, members, rfl⟩ := hstruct
      have hoverflow : f = .overflow := by
        rcases bind_eq_error_iff.1 hlayout with hplaced | ⟨⟨fields, stop⟩, _, hround⟩
        · refine eq_overflow_of_placeMembers (fun member hm => ?_) hplaced
          exact hrefs _ (List.mem_map_of_mem hm)
        · rcases bind_eq_error_iff.1 hround with hround | ⟨_, _, hround⟩
          · exact (Word.checked_eq_error_iff.1 hround).2
          · cases hround
      exact .inr ⟨hoverflow, hoverflow ▸ hlayout, name, members, rfl⟩
    · rw [← kind.refs_normal] at hrefs
      obtain ⟨layout, hok⟩ := h.layout_isOk hrefs fun name members hkind =>
        hstruct ⟨name, members, by cases kind <;> cases hkind; rfl⟩
      rw [hok] at hlayout
      cases hlayout
  · rw [add_of_not_isAligned haligned] at hadd
    cases hadd
    exact .inl ⟨rfl, haligned⟩

end Built

/-! ### Additions -/

/-- The number of structs declared under a name. -/
def countNamed (table : TypeTable) (name : String) : Nat :=
  table.entries.countP fun e => e.kind.structName? == some name

theorem countNamed_push (e : Entry) (hparts : ∀ ty ∈ e.parts, ∃ e', table.get ty = .ok e')
    (name : String) : (table.push e hparts).countNamed name =
      table.countNamed name + if e.kind.structName? = some name then 1 else 0 := by
  rw [countNamed, push, Array.countP_push]
  simp only [beq_iff_eq]
  rfl

/-- Adding a type finds its kind, or puts it at the end. -/
theorem add_cases (h : table.add kind = .ok (ty, later)) :
    kind.normal.IsAligned ∧ ((later = table ∧ table.find? kind.normal = some ty) ∨
      (table.find? kind.normal = none ∧ ∃ e hparts, table.entryOf kind.normal = .ok e ∧
        TypeId.ofSlot table.size = .ok ty ∧ later = table.push e hparts)) := by
  by_cases haligned : kind.normal.IsAligned
  · rw [add_of_isAligned haligned] at h
    exact ⟨haligned, intern_cases h⟩
  · rw [add_of_not_isAligned haligned] at h
    cases h

/-- A new type: the table did not have its kind, and has nothing else that is new. -/
structure Appended (table later : TypeTable) (e : Entry) (ty : TypeId) : Prop where
  fresh : ∀ {ty' e'}, table.get ty' = .ok e' → e'.kind ≠ e.kind ∧ ty' ≠ ty
  size : later.size = table.size + 1
  ordinal : ∀ {name}, e.kind.structName? = some name → e.ordinal = table.countNamed name
  countNamed : ∀ name, later.countNamed name =
    table.countNamed name + if e.kind.structName? = some name then 1 else 0
  get : ∀ {ty' e'}, later.get ty' = .ok e' → table.get ty' = .ok e' ∨ ty' = ty

/-- What is added is in the table, which extends the one before. -/
theorem Lawful.of_add (h : Lawful table) (hadd : table.add kind = .ok (ty, later)) :
    Extends later table ∧ ∃ e, later.get ty = .ok e ∧ e.kind = kind.normal ∧
      (later = table ∨ Appended table later e ty) := by
  obtain ⟨_, ⟨rfl, hfound⟩ | ⟨hnone, e, hparts, hentry, hslot, rfl⟩⟩ := add_cases hadd
  · obtain ⟨e, he, hkind⟩ := get_of_find? hfound
    exact ⟨.refl _, e, he, hkind, .inl rfl⟩
  · obtain ⟨hkind, _, hordinal⟩ := laidOut_of_entryOf hentry
    have hty := TypeId.slot_of_ofSlot hslot
    refine ⟨extends_push table e hparts, e, ?_, hkind, .inr ?_⟩
    · exact get_eq_ok_iff.2 ⟨table.size, hty, Array.getElem?_push_size⟩
    · exact {
        fresh := fun {ty' e'} he' => by
          obtain ⟨i, hi, hget⟩ := get_eq_ok_iff.1 he'
          refine ⟨hkind ▸ kind_ne_of_find?_eq_none h.numbered hnone hget, ?_⟩
          rintro rfl
          rw [hty] at hi
          cases hi
          exact Nat.lt_irrefl _ (Array.getElem?_eq_some_iff.1 hget).1
        size := size_push table e hparts
        ordinal := fun {name} hname => by
          rw [hordinal, ordinalOf, ← hkind, hname]
          rfl
        countNamed := countNamed_push e hparts
        get := fun {ty' e'} hget => (get_of_get_push hget).imp_right fun hnew =>
          eq_of_slot_eq hnew.1 hty }

theorem size_of_primitives (h : table.kinds = Kind.primitives) : table.size = TypeId.primitiveCount := by
  have hlength := congrArg List.length h
  rwa [kinds, List.length_map, Array.length_toList] at hlength

theorem structName?_of_mem_primitives (h : kind ∈ Kind.primitives) : kind.structName? = none := by
  have hall : ∀ kind ∈ Kind.primitives, kind.structName? = none := by decide
  exact hall kind h

theorem countNamed_of_primitives (h : table.kinds = Kind.primitives) (name : String) :
    table.countNamed name = 0 := by
  have hcount : table.countNamed name = table.kinds.countP fun kind => kind.structName? == some name := by
    rw [kinds, List.countP_map, countNamed, ← Array.countP_toList]
    rfl
  rw [hcount, h, List.countP_eq_zero]
  intro kind hkind
  rw [structName?_of_mem_primitives hkind]
  exact Bool.false_ne_true

theorem eraseDups_concat_of_mem {l : List TypeId} (h : ty ∈ l) :
    (l ++ [ty]).eraseDups = l.eraseDups := by
  rw [List.eraseDups_append]
  simp [List.removeAll, h]

theorem eraseDups_concat_of_not_mem {l : List TypeId} (h : ty ∉ l) :
    (l ++ [ty]).eraseDups = l.eraseDups ++ [ty] := by
  rw [List.eraseDups_append]
  simp [List.removeAll, h, List.eraseDups_cons]

/-! ### Declarations in order -/

/-- The table after the first `n` of some declarations. -/
def afterFirst (start : TypeTable) (kinds : List Kind) (n : Nat) : TypeTable :=
  (kinds.take n).foldl declare start

/-- The type by which declaration number `n` is answered. -/
def answer? (start : TypeTable) (kinds : List Kind) (n : Nat) : Option TypeId :=
  kinds[n]?.bind fun kind => ((start.afterFirst kinds n).add kind).toOption.map (·.1)

/-- Declaration number `n`, of a type of a given kind, is answered by the type `ty`. -/
def Answers (start : TypeTable) (kinds : List Kind) (n : Nat) (kind : Kind) (ty : TypeId) : Prop :=
  kinds[n]? = some kind ∧ start.answer? kinds n = some ty

/-- The types by which those of the first `n` declarations are answered that declare a struct under
    a given name. -/
def structsNamed (start : TypeTable) (kinds : List Kind) (name : String) (n : Nat) : List TypeId :=
  (List.range n).filterMap fun i =>
    if kinds[i]?.bind (·.structName?) = some name then start.answer? kinds i else none

/-- Declarations that can be made one after the other: of kinds that are not primitive and name
    types that the table has by then. -/
structure Declarable (start : TypeTable) (kinds : List Kind) : Prop where
  compound : ∀ kind ∈ kinds, kind ∉ Kind.primitives
  refs : ∀ n (hn : n < kinds.length), ∀ ref ∈ kinds[n].refs, (start.afterFirst kinds n).Has ref

variable {kinds : List Kind} {n m : Nat} {name : String}

theorem afterFirst_zero : start.afterFirst kinds 0 = start :=
  rfl

theorem afterFirst_succ (h : kinds[n]? = some kind) :
    start.afterFirst kinds (n + 1) = (start.afterFirst kinds n).declare kind := by
  rw [afterFirst, afterFirst, List.take_add_one, h, Option.toList_some, List.foldl_append]
  rfl

theorem afterFirst_succ_of_none (h : kinds[n]? = none) :
    start.afterFirst kinds (n + 1) = start.afterFirst kinds n := by
  rw [afterFirst, afterFirst, List.take_add_one, h, Option.toList_none, List.append_nil]

theorem answers_iff : start.Answers kinds n kind ty ↔ kinds[n]? = some kind ∧
    (start.afterFirst kinds n).add kind = .ok (ty, start.afterFirst kinds (n + 1)) := by
  refine and_congr_right fun hkind => ?_
  rw [answer?, hkind, Option.bind_some, afterFirst_succ hkind]
  cases hadd : (start.afterFirst kinds n).add kind with
  | error f => exact iff_of_false nofun nofun
  | ok answer =>
    obtain ⟨ty', later⟩ := answer
    rw [declare_of_add_eq_ok hadd]
    constructor
    · rintro ⟨⟩
      rfl
    · intro heq
      cases heq
      rfl

/-- A declaration is answered, or refused and changes nothing. -/
theorem answers_or (start : TypeTable) (h : kinds[n]? = some kind) :
    (∃ ty, start.Answers kinds n kind ty) ∨ start.answer? kinds n = none ∧
      start.afterFirst kinds (n + 1) = start.afterFirst kinds n ∧
        ∃ f, (start.afterFirst kinds n).add kind = .error f := by
  rw [answer?, h, Option.bind_some, afterFirst_succ h]
  cases hadd : (start.afterFirst kinds n).add kind with
  | error f => exact .inr ⟨rfl, declare_of_add_eq_error hadd, f, rfl⟩
  | ok answer =>
    refine .inl ⟨answer.1, answers_iff.2 ⟨h, ?_⟩⟩
    rw [afterFirst_succ h, hadd, declare_of_add_eq_ok hadd]

/-- A declaration that is not answered changes nothing. -/
theorem afterFirst_succ_of_answer?_eq_none (hnone : start.answer? kinds n = none) :
    start.afterFirst kinds (n + 1) = start.afterFirst kinds n := by
  cases hkind : kinds[n]? with
  | none => exact afterFirst_succ_of_none hkind
  | some kind =>
    rcases answers_or start hkind with ⟨ty, hanswer⟩ | ⟨_, hsame, _⟩
    · rw [hanswer.2] at hnone
      cases hnone
    · exact hsame

theorem structsNamed_succ : start.structsNamed kinds name (n + 1) =
    start.structsNamed kinds name n ++
      (if kinds[n]?.bind (·.structName?) = some name then start.answer? kinds n else none).toList := by
  rw [structsNamed, List.range_succ, List.filterMap_append, ← structsNamed]
  refine congrArg (start.structsNamed kinds name n ++ ·) ?_
  rw [List.filterMap_cons, List.filterMap_nil]
  split
  · next h => rw [h]; rfl
  · next h => rw [h]; rfl

theorem mem_structsNamed_iff : ty ∈ start.structsNamed kinds name n ↔
    ∃ i < n, ∃ kind, start.Answers kinds i kind ty ∧ kind.structName? = some name := by
  rw [structsNamed, List.mem_filterMap]
  refine exists_congr fun i => ?_
  rw [List.mem_range]
  refine and_congr_right fun _ => ⟨fun h => ?_, fun ⟨kind, ⟨hkind, hty⟩, hname⟩ => ?_⟩
  · split at h
    · next hname =>
      obtain ⟨kind, hkind, hname⟩ := Option.bind_eq_some_iff.1 hname
      exact ⟨kind, ⟨hkind, h⟩, hname⟩
    · cases h
  · rw [hkind, Option.bind_some, if_pos hname, hty]

section Course

variable (hbuilt : Built start) (h : Declarable start kinds)
include hbuilt h

theorem built_afterFirst (n : Nat) : Built (start.afterFirst kinds n) := by
  induction n with
  | zero => exact hbuilt
  | succ n ih =>
    cases hkind : kinds[n]? with
    | none => rwa [afterFirst_succ_of_none hkind]
    | some kind =>
      rcases answers_or start hkind with ⟨ty, hanswer⟩ | ⟨_, hsame, _⟩
      · obtain ⟨hlt, rfl⟩ := List.getElem?_eq_some_iff.1 hkind
        exact ih.add (h.refs n hlt) (answers_iff.1 hanswer).2
      · rwa [hsame]

/-- What a declaration does that is answered. -/
theorem Answers.spec (hanswer : start.Answers kinds n kind ty) :
    Extends (start.afterFirst kinds (n + 1)) (start.afterFirst kinds n) ∧
      ∃ e, (start.afterFirst kinds (n + 1)).get ty = .ok e ∧ e.kind = kind.normal ∧
        (start.afterFirst kinds (n + 1) = start.afterFirst kinds n ∨
          Appended (start.afterFirst kinds n) (start.afterFirst kinds (n + 1)) e ty) :=
  (built_afterFirst hbuilt h n).lawful.of_add (answers_iff.1 hanswer).2

theorem extends_succ (n : Nat) :
    Extends (start.afterFirst kinds (n + 1)) (start.afterFirst kinds n) := by
  cases hkind : kinds[n]? with
  | none =>
    rw [afterFirst_succ_of_none hkind]
    exact .refl _
  | some kind =>
    rcases answers_or start hkind with ⟨ty, hanswer⟩ | ⟨_, hsame, _⟩
    · exact (hanswer.spec hbuilt h).1
    · rw [hsame]
      exact .refl _

/-- Later tables extend earlier ones. -/
theorem extends_afterFirst (hm : m ≤ n) :
    Extends (start.afterFirst kinds n) (start.afterFirst kinds m) := by
  induction hm with
  | refl => exact .refl _
  | step _ ih => exact (extends_succ hbuilt h _).trans ih

/-- An answer is a type of the declared kind, from then on. -/
theorem Answers.get (hanswer : start.Answers kinds m kind ty) :
    ∃ e, e.kind = kind.normal ∧ ∀ n, m < n → (start.afterFirst kinds n).get ty = .ok e := by
  obtain ⟨_, e, he, hkind, _⟩ := hanswer.spec hbuilt h
  exact ⟨e, hkind, fun n hn => (extends_afterFirst hbuilt h hn).get he⟩

omit hbuilt in
theorem Answers.isCompound (hanswer : start.Answers kinds n kind ty) :
    kind.normal ∉ Kind.primitives :=
  Kind.normal_not_mem_primitives (h.compound kind (List.mem_of_getElem? hanswer.1))

/-- Every declaration adds one type at most. -/
theorem size_afterFirst_le (n : Nat) : (start.afterFirst kinds n).size ≤ start.size + n := by
  induction n with
  | zero => exact Nat.le_refl _
  | succ n ih =>
    cases hkind : kinds[n]? with
    | none =>
      rw [afterFirst_succ_of_none hkind]
      omega
    | some kind =>
      rcases answers_or start hkind with ⟨ty, hanswer⟩ | ⟨_, hsame, _⟩
      · obtain ⟨_, e, _, _, hsame | hnew⟩ := hanswer.spec hbuilt h
        · rw [hsame]
          omega
        · rw [hnew.size]
          omega
      · rw [hsame]
        omega

/-- Two declarations are answered by the same type exactly if they are the same. -/
theorem Answers.eq_iff {a b : Kind} {s t : TypeId} (hs : start.Answers kinds m a s)
    (ht : start.Answers kinds n b t) : s = t ↔ a.normal = b.normal := by
  obtain ⟨e, hkind, hget⟩ := hs.get hbuilt h
  obtain ⟨e', hkind', hget'⟩ := ht.get hbuilt h
  have hm := hget (max m n + 1) (by omega)
  have hn := hget' (max m n + 1) (by omega)
  rw [← hkind, ← hkind']
  refine ⟨?_, (built_afterFirst hbuilt h _).lawful.eq_of_kind_eq hm hn⟩
  rintro rfl
  rw [hm] at hn
  cases hn
  rfl

/-- A repeated declaration changes nothing. -/
theorem Answers.afterFirst_succ {a b : Kind} {s t : TypeId} (hs : start.Answers kinds m a s)
    (ht : start.Answers kinds n b t) (hlt : m < n) (heq : a.normal = b.normal) :
    start.afterFirst kinds (n + 1) = start.afterFirst kinds n := by
  obtain ⟨_, e, _, hkind, hsame | hnew⟩ := ht.spec hbuilt h
  · exact hsame
  · obtain ⟨e', hkind', hget'⟩ := hs.get hbuilt h
    exact absurd (by rw [hkind', heq, hkind]) (hnew.fresh (hget' n hlt)).1

/-- No answer is a primitive type, or has one of the numbers kept free. -/
theorem Answers.firstAdded_le (hanswer : start.Answers kinds n kind ty) :
    TypeId.firstAdded ≤ ty.raw.toNat := by
  obtain ⟨_, e, hget, hkind, _⟩ := hanswer.spec hbuilt h
  have hprimitive : ¬ty.isPrimitive = true := fun hprimitive =>
    hkind ▸ hanswer.isCompound h <| ((built_afterFirst hbuilt h _).isPrimitive_iff hget).1 hprimitive
  obtain ⟨i, hi, _⟩ := get_eq_ok_iff.1 hget
  rw [TypeId.isPrimitive, decide_eq_true_iff] at hprimitive
  rw [TypeId.slot, if_neg hprimitive] at hi
  split at hi
  · cases hi
  · omega

variable (hstart : start.kinds = Kind.primitives)
include hstart

/-- Less than `2 ^ 31` declarations leave a number for the next type. -/
theorem numberOfSlot_afterFirst_lt (hcount : kinds.length < 2 ^ 31) (hn : n < kinds.length) :
    TypeId.numberOfSlot (start.afterFirst kinds n).size < UInt32.size := by
  have hsize := size_afterFirst_le hbuilt h n
  rw [size_of_primitives hstart] at hsize
  unfold TypeId.numberOfSlot TypeId.firstAdded UInt32.size
  unfold TypeId.primitiveCount at *
  split <;> omega

/-- Every type that is not primitive was declared. -/
theorem exists_answers (hget : (start.afterFirst kinds n).get ty = .ok e)
    (hkind : e.kind ∉ Kind.primitives) : ∃ i < n, ∃ kind, start.Answers kinds i kind ty := by
  induction n with
  | zero =>
    have hmem := Has.kind_mem ⟨e, hget⟩
    rw [kind_of_get hget, afterFirst_zero, hstart] at hmem
    exact absurd hmem hkind
  | succ n ih =>
    have hearlier : (start.afterFirst kinds n).get ty = .ok e →
        ∃ i < n + 1, ∃ kind, start.Answers kinds i kind ty := fun hget =>
      let ⟨i, hi, hanswer⟩ := ih hget
      ⟨i, Nat.lt_succ_of_lt hi, hanswer⟩
    cases hdeclared : kinds[n]? with
    | none => exact hearlier (afterFirst_succ_of_none hdeclared ▸ hget)
    | some kind =>
      rcases answers_or start hdeclared with ⟨ty', hanswer⟩ | ⟨_, hsame, _⟩
      · obtain ⟨_, e', _, _, hsame | hnew⟩ := hanswer.spec hbuilt h
        · exact hearlier (hsame ▸ hget)
        · rcases hnew.get hget with hget | rfl
          · exact hearlier hget
          · exact ⟨n, Nat.lt_succ_self n, kind, hanswer⟩
      · exact hearlier (hsame ▸ hget)

/-- The first declaration of its kind adds one type. -/
theorem Answers.size_succ (hanswer : start.Answers kinds n kind ty)
    (hfirst : ∀ m < n, ∀ a s, start.Answers kinds m a s → a.normal ≠ kind.normal) :
    (start.afterFirst kinds (n + 1)).size = (start.afterFirst kinds n).size + 1 := by
  obtain ⟨_, e, hget, hkind, hsame | hnew⟩ := hanswer.spec hbuilt h
  · obtain ⟨i, hi, kind', hanswer'⟩ := exists_answers hbuilt h hstart (hsame ▸ hget)
      (hkind ▸ hanswer.isCompound h)
    obtain ⟨e', hkind', hget'⟩ := hanswer'.get hbuilt h
    have heq := (hget' (n + 1) (Nat.lt_succ_of_lt hi)).symm.trans hget
    cases heq
    exact absurd (hkind'.symm.trans hkind) (hfirst i hi kind' ty hanswer')
  · exact hnew.size

/-- The structs of the table that are declared under a name are those that such declarations are
    answered by. -/
theorem mem_structsNamed_iff_get : ty ∈ start.structsNamed kinds name n ↔
    ∃ e, (start.afterFirst kinds n).get ty = .ok e ∧ e.kind.structName? = some name := by
  rw [mem_structsNamed_iff]
  constructor
  · rintro ⟨i, hi, kind, hanswer, hname⟩
    obtain ⟨e, hkind, hget⟩ := hanswer.get hbuilt h
    exact ⟨e, hget n hi, by rw [hkind, kind.structName?_normal, hname]⟩
  · rintro ⟨e, hget, hname⟩
    have hcompound : e.kind ∉ Kind.primitives := fun hmem => by
      rw [structName?_of_mem_primitives hmem] at hname
      cases hname
    obtain ⟨i, hi, kind, hanswer⟩ := exists_answers hbuilt h hstart hget hcompound
    obtain ⟨e', hkind, hget'⟩ := hanswer.get hbuilt h
    have heq := (hget' n hi).symm.trans hget
    cases heq
    exact ⟨i, hi, kind, hanswer, by rw [← kind.structName?_normal, ← hkind, hname]⟩

/-- The structs declared under a name are numbered in the order of their first declarations. -/
theorem map_ordinal_structsNamed (name : String) (n : Nat) :
    (start.structsNamed kinds name n).eraseDups.map
        (fun ty => ((start.afterFirst kinds n).entry ty).ordinal) =
      List.range ((start.afterFirst kinds n).countNamed name) := by
  induction n with
  | zero => rw [afterFirst_zero, countNamed_of_primitives hstart]; rfl
  | succ n ih =>
    have hmem : ∀ {ty}, ty ∈ start.structsNamed kinds name n ↔ _ :=
      mem_structsNamed_iff_get hbuilt h hstart
    -- The structs that are listed so far keep their ordinals.
    have hordinals : (start.structsNamed kinds name n).eraseDups.map
        (fun ty => ((start.afterFirst kinds (n + 1)).entry ty).ordinal) =
          List.range ((start.afterFirst kinds n).countNamed name) := by
      rw [← ih]
      refine List.map_congr_left fun ty hty => ?_
      obtain ⟨e, hget, _⟩ := hmem.1 (List.mem_eraseDups.1 hty)
      rw [(extends_succ hbuilt h n).entry_eq ⟨e, hget⟩]
    rw [structsNamed_succ]
    cases hdeclared : kinds[n]? with
    | none =>
      rw [Option.bind_none, if_neg nofun, Option.toList_none, List.append_nil, hordinals,
        afterFirst_succ_of_none hdeclared]
    | some kind =>
      rw [Option.bind_some]
      rcases answers_or start hdeclared with ⟨ty, hanswer⟩ | ⟨hnone, hsame, _⟩
      · obtain ⟨_, e, hget, hkind, hcases⟩ := hanswer.spec hbuilt h
        rw [← kind.structName?_normal, ← hkind, hanswer.2]
        by_cases hname : e.kind.structName? = some name
        · rw [if_pos hname, Option.toList_some]
          rcases hcases with hsame | hnew
          · -- The struct was there before, so it is listed.
            rw [eraseDups_concat_of_mem (hmem.2 ⟨e, hsame ▸ hget, hname⟩), hordinals, hsame]
          · have hnotMem : ty ∉ start.structsNamed kinds name n := fun hty =>
              let ⟨_, hget', _⟩ := hmem.1 hty
              (hnew.fresh hget').2 rfl
            rw [eraseDups_concat_of_not_mem hnotMem, List.map_append, hordinals, hnew.countNamed,
              if_pos hname, List.range_succ, List.map_singleton, entry_of_get hget,
              hnew.ordinal hname]
        · rw [if_neg hname, Option.toList_none, List.append_nil, hordinals]
          rcases hcases with hsame | hnew
          · rw [hsame]
          · rw [hnew.countNamed, if_neg hname, Nat.add_zero]
      · rw [hnone, ite_self, Option.toList_none, List.append_nil, hordinals, hsame]

/-- The first of them has no ordinal, and the others have the ordinals from one on. -/
theorem map_ordinal?_structsNamed (name : String) (n : Nat) :
    (start.structsNamed kinds name n).eraseDups.map (start.afterFirst kinds n).ordinal? =
      (List.range (start.structsNamed kinds name n).eraseDups.length).map fun i =>
        if i = 0 then none else some i := by
  have hordinals := map_ordinal_structsNamed hbuilt h hstart name n
  have hlength := congrArg List.length hordinals
  rw [List.length_map, List.length_range] at hlength
  rw [hlength, ← hordinals, List.map_map]
  refine List.map_congr_left fun ty _ => ?_
  rw [Function.comp_apply, ordinal?]
  split
  · next heq => rw [heq, if_pos rfl]
  · next heq => rw [if_neg heq]

end Course

/-! ### One type for each kind -/

/-- What declarations made one after the other come to. -/
structure Canonical (start : TypeTable) (kinds : List Kind) : Prop where
  /-- Only opaque memory without a proper alignment and structs that do not fit into words are
      refused. -/
  refused : ∀ n kind f, kinds[n]? = some kind → (start.afterFirst kinds n).add kind = .error f →
    f = .assertion ∧ ¬kind.normal.IsAligned ∨
      f = .overflow ∧ (start.afterFirst kinds n).layout kind = .error .overflow ∧
        ∃ name members, kind = .struct name members
  /-- A declaration that is not answered changes nothing. -/
  unchanged : ∀ n, start.answer? kinds n = none →
    start.afterFirst kinds (n + 1) = start.afterFirst kinds n
  /-- Two declarations are answered by the same type exactly if they are the same. -/
  same : ∀ m n a b s t, start.Answers kinds m a s → start.Answers kinds n b t →
    (s = t ↔ a.normal = b.normal)
  /-- The first of its kind adds one type. -/
  first : ∀ n kind ty, start.Answers kinds n kind ty →
    (∀ m < n, ∀ a s, start.Answers kinds m a s → a.normal ≠ kind.normal) →
    (start.afterFirst kinds (n + 1)).size = (start.afterFirst kinds n).size + 1
  /-- A repeated one changes nothing. -/
  repeated : ∀ m n a b s t, start.Answers kinds m a s → start.Answers kinds n b t → m < n →
    a.normal = b.normal → start.afterFirst kinds (n + 1) = start.afterFirst kinds n
  /-- An answer is a type of the declared kind from then on. -/
  known : ∀ m kind ty, start.Answers kinds m kind ty →
    ∃ e, e.kind = kind.normal ∧ ∀ n, m < n → (start.afterFirst kinds n).get ty = .ok e
  /-- What is known about a type never changes. -/
  stays : ∀ m n ty e, m ≤ n → (start.afterFirst kinds m).get ty = .ok e →
    (start.afterFirst kinds n).get ty = .ok e
  /-- No answer is a primitive type, or has one of the numbers kept free. -/
  number : ∀ n kind ty, start.Answers kinds n kind ty → TypeId.firstAdded ≤ ty.raw.toNat
  /-- Of the structs declared under a name the first has no ordinal, and the others have the
      ordinals from one on. -/
  ordinals : ∀ name n, (start.structsNamed kinds name n).eraseDups.map
      (start.afterFirst kinds n).ordinal? =
    (List.range (start.structsNamed kinds name n).eraseDups.length).map fun i =>
      if i = 0 then none else some i

/-- Declarations are answered by the same type exactly if they are the same, and what is known
    about a type never changes. -/
theorem interning_canonical {target : Target} (hstart : ofTarget target = .ok start)
    (h : Declarable start kinds) (hcount : kinds.length < 2 ^ 31) : Canonical start kinds := by
  have hbuilt := Built.start hstart
  have hprimitives := (lawful_of_ofTarget hstart).2
  exact {
    refused := fun n kind f hkind hadd => by
      obtain ⟨hn, rfl⟩ := List.getElem?_eq_some_iff.1 hkind
      exact (built_afterFirst hbuilt h n).refused
        (numberOfSlot_afterFirst_lt hbuilt h hprimitives hcount hn) (h.refs n hn) hadd
    unchanged := fun n hnone => afterFirst_succ_of_answer?_eq_none hnone
    same := fun m n a b s t hs ht => hs.eq_iff hbuilt h ht
    first := fun n kind ty hanswer hfirst => hanswer.size_succ hbuilt h hprimitives hfirst
    repeated := fun m n a b s t hs ht hlt heq => hs.afterFirst_succ hbuilt h ht hlt heq
    known := fun m kind ty hanswer => hanswer.get hbuilt h
    stays := fun m n ty e hle hget => (extends_afterFirst hbuilt h hle).get hget
    number := fun n kind ty hanswer => hanswer.firstAdded_le hbuilt h
    ordinals := map_ordinal?_structsNamed hbuilt h hprimitives }

/-- Structs that are declared under one name and partly repeated, and opaque memory with different
    alignments. -/
def redeclared : List Kind :=
  [.struct (some "T") [⟨some "text", ⟨14⟩⟩], .opaqueMemory 8 0, .opaqueMemory 8 3,
    .struct (some "T") [⟨some "number", ⟨4⟩⟩], .opaqueMemory 8 1,
    .struct (some "T") [⟨some "text", ⟨14⟩⟩], .array ⟨34⟩ 2, .struct (some "T") []]

theorem ofTarget_amd64 : ofTarget .amd64 = .ok (ofKinds .amd64 []) := by
  have h : (ofTarget .amd64).toBool = true := by decide +kernel
  cases hstart : ofTarget .amd64 with
  | error f =>
    rw [hstart] at h
    cases h
  | ok start =>
    rw [ofKinds, hstart]
    rfl

/-- Of eight declarations one is refused and two are repeated. -/
theorem interning_canonical_redeclared :
    ofTarget .amd64 = .ok (ofKinds .amd64 []) ∧ Declarable (ofKinds .amd64 []) redeclared ∧
    redeclared.length < 2 ^ 31 ∧ Canonical (ofKinds .amd64 []) redeclared ∧
    (List.range 8).map ((ofKinds .amd64 []).answer? redeclared) =
      [some ⟨32⟩, some ⟨33⟩, none, some ⟨34⟩, some ⟨33⟩, some ⟨32⟩, some ⟨35⟩, some ⟨36⟩] ∧
    ((ofKinds .amd64 []).structsNamed redeclared "T" 8).eraseDups = [⟨32⟩, ⟨34⟩, ⟨36⟩] := by
  have hdeclarable : Declarable (ofKinds .amd64 []) redeclared :=
    ⟨by decide +kernel, by decide +kernel⟩
  have hlength : redeclared.length < 2 ^ 31 := by decide
  refine ⟨ofTarget_amd64, hdeclarable, hlength,
    interning_canonical ofTarget_amd64 hdeclarable hlength, ?_, ?_⟩
  · decide +kernel
  · decide +kernel

end TypeTable

end HashEq

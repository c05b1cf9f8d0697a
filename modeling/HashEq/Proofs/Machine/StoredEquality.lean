import HashEq.Proofs.Machine.Consistency
import HashEq.Proofs.Machine.Stored

/-!
# Comparing stored values

Two values that are stored and then compared by a machine are compared as values:
numbers modulo what their types can hold, floating-point numbers as numbers, strings
by their bytes, arrays element by element, structs field by field but for the blank
ones, and interfaces by the types and the values in them.

* `Value.equal`: the comparison of values;
* `Value.form?_eq`: a stored value has the form that its type asks for;
* `Value.image_of_liesAt`: where a value lies there is an image;
* `Value.equalVia_eq`: the walk along a type compares the values that lie there;
* `Machine.equal_eq_valueEqual`: machines compare what was stored.
-/

namespace HashEq

open TypeTable

namespace Value

section Definitions

variable (table : TypeTable)

mutual

/-- Compares values of type `ty`. Values of different forms, which no type has, differ. -/
def equal (ty : TypeId) : Value → Value → Except EvalError Bool
  | float32 a, float32 b => .ok (FloatFormat.single.equal a.toUInt64 b.toUInt64)
  | float64 a, float64 b => .ok (FloatFormat.double.equal a b)
  | complex64 re im, complex64 re' im' =>
    .ok (FloatFormat.single.equal re.toUInt64 re'.toUInt64 &&
      FloatFormat.single.equal im.toUInt64 im'.toUInt64)
  | complex128 re im, complex128 re' im' =>
    .ok (FloatFormat.double.equal re re' && FloatFormat.double.equal im im')
  | string a, string b => .ok (a.toUTF8.toList == b.toUTF8.toList)
  | bytes a, bytes b => .ok (a == b)
  | nil, nil => .ok true
  | interface dynamic a, interface dynamic' b =>
    if dynamic ≠ dynamic' then .ok false
    else if table.base dynamic = .noEquality then do
      throw (.uncomparable (← table.text dynamic))
    else equal dynamic a b
  | list as, list bs =>
    match table.kind ty with
    | .array elem _ => equalElements elem as bs
    | _ => equalFields (table.fields ty) as bs
  | a, b =>
    match a.number?, b.number? with
    | some m, some n =>
      .ok (m % 256 ^ (table.sizeOf ty).toNat == n % 256 ^ (table.sizeOf ty).toNat)
    | _, _ => .ok false

/-- Compares the elements of arrays, as far as the first ones that differ. -/
def equalElements (elem : TypeId) : List Value → List Value → Except EvalError Bool
  | a :: as, b :: bs => do
    if ← equal elem a b then equalElements elem as bs else return false
  | _, _ => .ok true

/-- Compares the fields of structs that are not blank, as far as the first ones that differ. -/
def equalFields : List Field → List Value → List Value → Except EvalError Bool
  | field :: fields, a :: as, b :: bs =>
    if field.isBlank then equalFields fields as bs
    else do
      if ← equal field.ty a b then equalFields fields as bs else return false
  | _, _, _ => .ok true

end

end Definitions

end Value

/-! ### Forms -/

/-- The forms of values. -/
inductive Form
  | number
  | float32
  | float64
  | complex64
  | complex128
  | string
  | interface
  | list
  | bytes
  deriving DecidableEq

/-- The form in which values are given, for the kinds whose values can be compared. -/
def Kind.form? (kind : Kind) : Option Form :=
  match kind with
  | .float32 => some .float32
  | .float64 => some .float64
  | .complex64 => some .complex64
  | .complex128 => some .complex128
  | .string => some .string
  | .any | .interface _ => some .interface
  | .array _ _ | .struct _ _ => some .list
  | .opaqueMemory _ _ => some .bytes
  | kind => if kind.isWordLike then some .number else none

namespace Value

variable {table : TypeTable} {arena : Arena} {ty : TypeId} {e : Entry} {p q : Word} {a b : Value}

/-- The form of a value. -/
def form : Value → Form
  | bool _ | int _ | uint _ => .number
  | float32 _ => .float32
  | float64 _ => .float64
  | complex64 _ _ => .complex64
  | complex128 _ _ => .complex128
  | string _ => .string
  | nil | interface _ _ => .interface
  | list _ => .list
  | bytes _ => .bytes

theorem number?_of_form (h : a.form = .number) : ∃ n, a.number? = some n := by
  cases a with
  | bool _ | int _ | uint _ => exact ⟨_, rfl⟩
  | _ => cases h

theorem form_of_number? {n : Int} (h : a.number? = some n) : a.form = .number := by
  cases a with
  | bool _ | int _ | uint _ => rfl
  | _ => cases h

theorem form?_of_isWordLike {kind : Kind} (h : kind.isWordLike = true) : kind.form? = some .number := by
  cases kind <;> first | rfl | cases h

theorem form?_of_isInterface {kind : Kind} (h : kind.isInterface = true) :
    kind.form? = some .interface := by
  cases kind <;> first | rfl | cases h

/-- A value that lies somewhere has the form that its type asks for. -/
theorem form?_eq (hne : table.base ty ≠ .noEquality) (hfaithful : a.Faithful table ty)
    (hlies : a.LiesAt table arena ty p) : (table.kind ty).form? = some a.form := by
  cases a with
  | bool _ | int _ | uint _ =>
    obtain ⟨hkind, _⟩ := (liesAt_number rfl).1 hlies
    exact form?_of_isWordLike hkind
  | float32 _ | float64 _ | complex64 _ _ | complex128 _ _ | string _ => rw [hlies.1]; rfl
  | nil | interface _ _ => exact form?_of_isInterface hlies.1
  | list _ =>
    rw [LiesAt] at hlies
    split at hlies
    · next hkind => rw [hkind]; rfl
    · next hkind => rw [hkind]; rfl
    · exact hlies.elim
  | bytes _ =>
    obtain ⟨size, align, hkind⟩ := hfaithful.resolve_right hne
    rw [hkind]
    rfl

end Value

/-! ### Words for types -/

theorem toNat_typeWord (ty : TypeId) : (typeWord ty).toNat = ty.raw.toNat + 1 := by
  have hlt := ty.raw.toNat_lt
  rw [typeWord, UInt64.toNat_add, UInt32.toNat_toUInt64, show (1 : UInt64).toNat = 1 from rfl]
  omega

theorem typeWord_ne_zero (ty : TypeId) : typeWord ty ≠ 0 := by
  rw [ne_eq, ← UInt64.toNat_inj, toNat_typeWord]
  exact Nat.succ_ne_zero _

theorem typeWord_inj {a b : TypeId} : typeWord a = typeWord b ↔ a = b := by
  rw [← UInt64.toNat_inj, toNat_typeWord, toNat_typeWord, Nat.succ_inj, UInt32.toNat_inj]
  exact ⟨fun h => by cases a; cases b; cases h; rfl, fun h => h ▸ rfl⟩

variable {table : TypeTable} {arena : Arena} {ty : TypeId} {e : Entry} {p q : Word}

/-- The word for a type of a table tells that type. -/
theorem typeOfWord_typeWord (hty : table.Has ty) : typeOfWord (typeWord ty) = .ok ty := by
  obtain ⟨e, hget⟩ := hty
  obtain ⟨i, hslot, _⟩ := get_eq_ok_iff.1 hget
  have hlt := ty.raw.toNat_lt
  have hnumber : TypeId.ofNumber? ty.raw.toNat = some ty := by
    rw [TypeId.ofNumber?, UInt32.ofNat_toNat, if_pos]
    unfold TypeId.slot at hslot
    unfold UInt32.size
    split at hslot
    · exact .inl ‹_›
    split at hslot
    · cases hslot
    · omega
  rw [typeOfWord, toNat_typeWord]
  simp only [hnumber]

/-! ### Images of values -/

/-- What consists of images is an image. -/
theorem Image.of_parts (hbounds : arena.inBounds p (table.sizeOf ty).toNat = true)
    (hparts : ∀ leaf ∈ table.leaves ty, ∃ part offset, leaf ∈ shift offset (table.leaves part) ∧
      Image table arena part (p + offset)) : Image table arena ty p := by
  have hinner : ∀ {offset leaf}, (offset, leaf) ∈ table.leaves ty → ∃ part start inner,
      offset = start + inner ∧ (inner, leaf) ∈ table.leaves part ∧
      Image table arena part (p + start) := by
    intro offset leaf hmem
    obtain ⟨part, start, hmem, himage⟩ := hparts _ hmem
    obtain ⟨⟨inner, _⟩, hinner, heq⟩ := List.mem_map.1 hmem
    cases heq
    exact ⟨part, start, inner, rfl, hinner, himage⟩
  refine .intro ⟨hbounds, fun hmem hload => ?_, fun hmem hload hword => ?_⟩ ?_
  · obtain ⟨part, start, inner, rfl, hmem, ⟨hreadable, _⟩⟩ := hinner hmem
    rw [← UInt64.add_assoc] at hload
    exact hreadable.strings hmem hload
  · obtain ⟨part, start, inner, rfl, hmem, ⟨hreadable, _⟩⟩ := hinner hmem
    rw [← UInt64.add_assoc] at hload
    exact hreadable.interfaces hmem hload hword
  · rintro dynamic data ⟨offset, word, hmem, hload, hword, htold, hne⟩
    obtain ⟨part, start, inner, rfl, hmem, ⟨_, himages⟩⟩ := hinner hmem
    rw [← UInt64.add_assoc] at hload
    exact himages dynamic data ⟨inner, word, hmem, hload, hword, htold, hne⟩

/-- What is a single leaf is an image if the string can be read that it is, or the value in the
    interface that it is. -/
theorem Image.of_leaf {leaf : Leaf} (hbounds : arena.inBounds p (table.sizeOf ty).toNat = true)
    (hleaves : table.leaves ty = [(0, leaf)])
    (hstring : leaf = .string → ∀ data len, Primitives.loadPair table arena p = .ok (data, len) →
      arena.inBounds data len.toNat = true)
    (hinterface : leaf = .interface → ∀ word data,
      Primitives.loadPair table arena p = .ok (word, data) → word ≠ 0 →
      ∃ dynamic, typeOfWord word = .ok dynamic ∧ table.Has dynamic ∧
        (table.base dynamic ≠ .noEquality → Image table arena dynamic data)) :
    Image table arena ty p := by
  have hlone : ∀ {offset leaf'}, (offset, leaf') ∈ table.leaves ty → p + offset = p ∧ leaf = leaf' := by
    intro offset leaf' hmem
    rw [hleaves, List.mem_singleton, Prod.mk.injEq] at hmem
    exact ⟨by rw [hmem.1, UInt64.add_zero], hmem.2.symm⟩
  refine .intro ⟨hbounds, fun hmem hload => ?_, fun hmem hload hword => ?_⟩ ?_
  · obtain ⟨haddr, hleaf⟩ := hlone hmem
    rw [haddr] at hload
    exact hstring hleaf _ _ hload
  · obtain ⟨haddr, hleaf⟩ := hlone hmem
    rw [haddr] at hload
    obtain ⟨dynamic, htold, hhas, _⟩ := hinterface hleaf _ _ hload hword
    exact ⟨dynamic, htold, hhas⟩
  · rintro dynamic data ⟨offset, word, hmem, hload, hword, htold, hne⟩
    obtain ⟨haddr, hleaf⟩ := hlone hmem
    rw [haddr] at hload
    obtain ⟨dynamic', htold', _, himage⟩ := hinterface hleaf _ _ hload hword
    rw [htold] at htold'
    cases htold'
    exact himage hne

namespace Value

variable {a b : Value}

theorem base_of_isWordLike (h : Lawful table) (hget : table.get ty = .ok e)
    (hkind : e.kind.isWordLike = true) : e.base = .memory := by
  have hlaid := (h.laidOut hget).base
  cases hkind' : e.kind <;> rw [hkind'] at hlaid hkind <;> first | exact hlaid | cases hkind

mutual

/-- Where a value lies that can be compared there is an image. -/
theorem image_of_liesAt (h : Lawful table) {ty : TypeId} {p : Word} (value : Value)
    (hty : table.Has ty) (hne : table.base ty ≠ .noEquality) (hfaithful : value.Faithful table ty)
    (hp : arena.inBounds p (table.sizeOf ty).toNat = true) (hlies : value.LiesAt table arena ty p) :
    Image table arena ty p := by
  obtain ⟨e, hget⟩ := hty
  have hlaid := (h.laidOut hget).base
  -- Plain memory has a single leaf that leads nowhere, whatever its type.
  by_cases hbase : e.base = .memory
  · exact .of_leaf hp (leaves_memory hget hbase) nofun nofun
  have hlone : e.kind.isLeaf = true ∨ e.kind.isInterface = true → table.leaves ty = [(0, leafOf e)] :=
    leaves_leaf hget hbase
  cases value with
  | bool _ | int _ | uint _ =>
    obtain ⟨hkind, _⟩ := (liesAt_number rfl).1 hlies
    rw [kind_of_get hget] at hkind
    exact absurd (base_of_isWordLike h hget hkind) hbase
  | bytes data =>
    obtain ⟨size, align, hkind⟩ := hfaithful.resolve_right hne
    rw [kind_of_get hget] at hkind
    rw [hkind] at hlaid
    exact absurd hlaid hbase
  | float32 _ | float64 _ | complex64 _ _ | complex128 _ _ =>
    have hkind := hlies.1
    rw [kind_of_get hget] at hkind
    rw [hkind] at hlaid hlone
    rw [leafOf, hlaid] at hlone
    exact .of_leaf hp (hlone (.inl rfl)) nofun nofun
  | string text =>
    obtain ⟨hkind, start, len, hload, hread⟩ := hlies
    rw [kind_of_get hget] at hkind
    rw [hkind] at hlaid hlone
    rw [leafOf, hlaid] at hlone
    refine .of_leaf hp (hlone (.inl rfl)) (fun _ data len' hload' => ?_) nofun
    rw [hload] at hload'
    cases hload'
    exact (Arena.of_read_eq_ok hread).1
  | nil =>
    obtain ⟨hkind, hload⟩ := hlies
    rw [kind_of_get hget] at hkind
    refine .of_leaf hp (hlone (.inr hkind)) (fun hstring => ?_) fun _ word data hload' hword => ?_
    · rw [Structural.leafOf_of_isInterface h hget hkind] at hstring
      cases hstring
    · rw [hload] at hload'
      cases hload'
      exact absurd rfl hword
  | interface dynamic value =>
    obtain ⟨hkind, hhas, data, hload, hbounds, hvalue⟩ := hlies
    rw [kind_of_get hget] at hkind
    refine .of_leaf hp (hlone (.inr hkind)) (fun hstring => ?_) fun _ word data' hload' hword => ?_
    · rw [Structural.leafOf_of_isInterface h hget hkind] at hstring
      cases hstring
    · rw [hload] at hload'
      cases hload'
      exact ⟨dynamic, typeOfWord_typeWord hhas, hhas, fun hne' =>
        image_of_liesAt h value hhas hne' hfaithful.2 hbounds hvalue⟩
  | list values =>
    rw [base_of_get hget] at hne
    have hbounds := hp
    rw [sizeOf_of_get hget] at hbounds
    rw [LiesAt, kind_of_get hget, fields_of_get hget] at hlies
    rw [Faithful, kind_of_get hget, fields_of_get hget] at hfaithful
    cases hkind : e.kind with
    | array elem len =>
      simp only [hkind] at hlies hfaithful
      obtain ⟨hhas, hne'⟩ := h.base_part_ne hget hne (Entry.elem_mem_parts hkind)
      -- Every leaf of an array belongs to an element of it.
      refine .of_parts hp fun leaf hmem => ?_
      rw [leaves_array hget hbase hkind] at hmem
      obtain ⟨i, hi, hmem⟩ := List.mem_flatMap.1 hmem
      have hi : i < 0 + values.length := by simpa [hlies.1] using hi
      refine ⟨elem, _, hmem, image_of_lieFrom h values hhas hne' hfaithful (fun j hj => ?_) hlies.2
        (Nat.zero_le i) hi⟩
      exact (h.elementAddr_eq hget hbounds hkind (by omega)).2
    | struct name members =>
      simp only [hkind] at hlies hfaithful
      refine .of_parts hp fun leaf hmem => ?_
      rw [leaves_struct hget hbase hkind] at hmem
      obtain ⟨field, hf, hmem⟩ := List.mem_flatMap.1 hmem
      split at hmem
      · cases hmem
      refine ⟨field.ty, field.offset, hmem, image_of_lieWithin h values hlies.1 (fun field hf => ?_)
        hfaithful hlies.2 hf⟩
      obtain ⟨hhas, hne'⟩ := h.base_part_ne hget hne (Entry.field_mem_parts hf)
      exact ⟨hhas, hne', (h.add_field hget hbounds hf).2⟩
    | _ =>
      simp only [hkind] at hlies

theorem image_of_lieFrom (h : Lawful table) {elem : TypeId} {p : Word} {i j : Nat} (values : List Value)
    (hhas : table.Has elem) (hne : table.base elem ≠ .noEquality)
    (hfaithful : FaithfulElements table elem values)
    (hp : ∀ j < i + values.length,
      arena.inBounds (p + UInt64.ofNat j * table.sizeOf elem) (table.sizeOf elem).toNat = true)
    (hlie : LieFrom table arena elem p i values) (hi : i ≤ j) (hj : j < i + values.length) :
    Image table arena elem (p + UInt64.ofNat j * table.sizeOf elem) := by
  cases values with
  | nil => exact absurd hj (Nat.not_lt.2 hi)
  | cons value values =>
    rw [List.length_cons, ← Nat.succ_add_eq_add_succ] at hj hp
    rcases Nat.eq_or_lt_of_le hi with rfl | hi
    · exact image_of_liesAt h value hhas hne hfaithful.1 (hp i (by omega)) hlie.1
    · exact image_of_lieFrom h values hhas hne hfaithful.2 hp hlie.2 hi hj

theorem image_of_lieWithin (h : Lawful table) {p : Word} {fields : List Field} {field : Field}
    (values : List Value) (hlength : values.length = fields.length)
    (hparts : ∀ field ∈ fields, table.Has field.ty ∧ table.base field.ty ≠ .noEquality ∧
      arena.inBounds (p + field.offset) (table.sizeOf field.ty).toNat = true)
    (hfaithful : FaithfulFields table fields values)
    (hlie : LieWithin table arena p fields values) (hf : field ∈ fields) :
    Image table arena field.ty (p + field.offset) := by
  cases fields with
  | nil => cases hf
  | cons first fields =>
    cases values with
    | nil => cases hlength
    | cons value values =>
      rcases List.mem_cons.1 hf with rfl | hf
      · obtain ⟨hhas, hne, hp⟩ := hparts field List.mem_cons_self
        exact image_of_liesAt h value hhas hne hfaithful.1 hp hlie.1
      · exact image_of_lieWithin h values (Nat.succ_inj.1 hlength)
          (fun field hf => hparts field (List.mem_cons_of_mem _ hf)) hfaithful.2 hlie.2 hf

end

end Value

/-! ### Comparing what lies somewhere -/

section Primitives

variable {dynamic : TypeId → Word → Word → Except EvalError Bool} {format : FloatFormat}
  {x y re im re' im' start start' len len' : Word} {data data' : List UInt8}

theorem floatEqual_eq (hp : arena.readWord p format.width = .ok x)
    (hq : arena.readWord q format.width = .ok y) :
    Primitives.floatEqual arena format p q = .ok (format.equal x y) := by
  rw [Primitives.floatEqual, hp, hq]
  rfl

theorem complexEqual_eq (hp : arena.inBounds p (2 * format.width.toNat) = true)
    (hq : arena.inBounds q (2 * format.width.toNat) = true)
    (hpRe : arena.readWord p format.width = .ok re) (hqRe : arena.readWord q format.width = .ok re')
    (hpIm : arena.readWord (p + format.width) format.width = .ok im)
    (hqIm : arena.readWord (q + format.width) format.width = .ok im') :
    Primitives.complexEqual arena format p q = .ok (format.equal re re' && format.equal im im') := by
  rw [Primitives.complexEqual, floatEqual_eq hpRe hqRe, Arena.add_eq_ok hp (by omega),
    Arena.add_eq_ok hq (by omega)]
  cases format.equal re re' with
  | false => rfl
  | true => exact floatEqual_eq hpIm hqIm

/-- Strings are compared by their bytes. -/
theorem stringEqual_eq (hpLoad : Primitives.loadPair table arena p = .ok (start, len))
    (hqLoad : Primitives.loadPair table arena q = .ok (start', len'))
    (hp : arena.read start len = .ok data) (hq : arena.read start' len' = .ok data') :
    Primitives.stringEqual table arena p q = .ok (data == data') := by
  have hloaded : Primitives.stringEqual table arena p q =
      if len = len' then Primitives.memoryEqual arena start start' len else .ok false := by
    rw [Primitives.stringEqual, hpLoad, hqLoad]
    rfl
  rw [hloaded]
  split
  · next heq =>
    rw [← heq] at hq
    rw [Primitives.memoryEqual, hp, hq]
    rfl
  · next hne =>
    -- Strings of different lengths have different bytes.
    obtain ⟨hbounds, hdata⟩ := Arena.of_read_eq_ok hp
    obtain ⟨hbounds', hdata'⟩ := Arena.of_read_eq_ok hq
    have hlength := Arena.length_bytesAt hbounds
    have hlength' := Arena.length_bytesAt hbounds'
    rw [← hdata] at hlength
    rw [← hdata'] at hlength'
    refine congrArg Except.ok (beq_eq_false_iff_ne.2 fun heq => hne ?_).symm
    rw [← UInt64.toNat_inj, ← hlength, heq, hlength']

/-- Values of a kind that is given are compared by the primitive of its base algorithm, if it has
    no parts. -/
theorem equalVia_of_kind (h : Lawful table) (hget : table.get ty = .ok e) {kind : Kind}
    (hkind : table.kind ty = kind) (hleaf : kind.isLeaf = true) :
    Structural.equalVia table arena dynamic ty p q = Structural.leafEqual table arena e ty p q ∧
      e.base = table.baseOf kind e.toLayout := by
  rw [kind_of_get hget] at hkind
  subst hkind
  exact ⟨Structural.equalVia_of_isLeaf hget hleaf _, (h.laidOut hget).base⟩

/-- Plain memory without parts is compared by its bytes. -/
theorem equalVia_of_read (hget : table.get ty = .ok e) (hkind : e.kind.isLeaf = true)
    (hbase : e.base = .memory) (hp : arena.read p (table.sizeOf ty) = .ok data)
    (hq : arena.read q (table.sizeOf ty) = .ok data') :
    Structural.equalVia table arena dynamic ty p q = .ok (data == data') := by
  rw [Structural.equalVia_of_isLeaf hget hkind, Structural.leafEqual, hbase]
  rw [sizeOf_of_get hget] at hp hq
  change Primitives.memoryEqual arena p q e.size = _
  rw [Primitives.memoryEqual, hp, hq]
  rfl

/-- The lowest bytes of numbers are the same exactly if the numbers are, modulo what the bytes
    can hold. -/
theorem lowBytes_ofInt_beq {width : Word} (hwidth : width.toNat ≤ 8) (m n : Int) :
    (Arena.lowBytes width (UInt64.ofInt m) == Arena.lowBytes width (UInt64.ofInt n)) =
      (m % 256 ^ width.toNat == n % 256 ^ width.toNat) := by
  have hmod : ∀ k : Int,
      (((UInt64.ofInt k).toNat % 256 ^ width.toNat : Nat) : Int) = k % 256 ^ width.toNat := by
    intro k
    have hdvd : (256 : Int) ^ width.toNat ∣ 256 ^ 8 := by
      have hdvd := Int.natCast_dvd_natCast.2 (Nat.pow_dvd_pow 256 hwidth)
      rwa [Int.natCast_pow, Int.natCast_pow] at hdvd
    rw [toNat_ofInt, Int.natCast_emod, Int.toNat_of_nonneg (by omega), Int.natCast_pow]
    exact Int.emod_emod_of_dvd k hdvd
  rw [Bool.eq_iff_iff, beq_iff_eq, beq_iff_eq, Arena.lowBytes_eq_lowBytes_iff hwidth, ← hmod, ← hmod,
    Int.natCast_inj]

end Primitives

namespace Value

variable {a b : Value}

theorem equal_number {m n : Int} (ha : a.number? = some m) (hb : b.number? = some n) :
    a.equal table ty b =
      .ok (m % 256 ^ (table.sizeOf ty).toNat == n % 256 ^ (table.sizeOf ty).toNat) := by
  cases a with
  | bool _ | int _ | uint _ =>
    cases b with
    | bool _ | int _ | uint _ =>
      cases ha
      cases hb
      rfl
    | _ => cases hb
  | _ => cases ha

theorem isLeaf_of_isWordLike {kind : Kind} (h : kind.isWordLike = true) : kind.isLeaf = true := by
  cases kind <;> first | rfl | cases h

/-- Numbers are compared by the bytes that they take. -/
theorem equalVia_number {depth : Nat} {m : Int} (h : Lawful table)
    (hpointer : table.target.pointerSize.toNat ≤ 8) (hty : table.Has ty) (hform : b.form = a.form)
    (hm : a.number? = some m) (hap : a.LiesAt table arena ty p) (hbq : b.LiesAt table arena ty q) :
    Structural.equalVia table arena (Structural.equalWithin table arena depth) ty p q =
      a.equal table ty b := by
  obtain ⟨n, hn⟩ := number?_of_form (hform.trans (form_of_number? hm))
  obtain ⟨hkind, hap⟩ := (liesAt_number hm).1 hap
  obtain ⟨_, hbq⟩ := (liesAt_number hn).1 hbq
  have hwidth := h.sizeOf_le_of_isWordLike hty hpointer hkind
  obtain ⟨e, hget⟩ := hty
  rw [kind_of_get hget] at hkind
  rw [equalVia_of_read hget (isLeaf_of_isWordLike hkind) (base_of_isWordLike h hget hkind) hap hbq,
    equal_number hm hn, lowBytes_ofInt_beq hwidth]

section Leaf

variable {dynamic : TypeId → Word → Word → Except EvalError Bool} (h : Lawful table)
  (hget : table.get ty = .ok e) (hform : b.form = a.form)
include h hget hform

/-- Floating-point numbers are compared in the format of their type. -/
theorem equalVia_float (hfloat : a.form = .float32 ∨ a.form = .float64)
    (hap : a.LiesAt table arena ty p) (hbq : b.LiesAt table arena ty q) :
    Structural.equalVia table arena dynamic ty p q = a.equal table ty b := by
  cases a with
  | float32 _ | float64 _ =>
    cases b <;> cases hform
    obtain ⟨hwalk, hbase⟩ := equalVia_of_kind h hget hap.1 rfl
    rw [hwalk, Structural.leafEqual, hbase]
    exact floatEqual_eq hap.2 hbq.2
  | _ => simp [form] at hfloat

/-- Complex numbers are compared by both of their parts. -/
theorem equalVia_complex (hcomplex : a.form = .complex64 ∨ a.form = .complex128)
    (hp : arena.inBounds p (table.sizeOf ty).toNat = true)
    (hq : arena.inBounds q (table.sizeOf ty).toNat = true) (hap : a.LiesAt table arena ty p)
    (hbq : b.LiesAt table arena ty q) :
    Structural.equalVia table arena dynamic ty p q = a.equal table ty b := by
  cases a with
  | complex64 _ _ | complex128 _ _ =>
    cases b <;> cases hform
    obtain ⟨hwalk, hbase⟩ := equalVia_of_kind h hget hap.1 rfl
    rw [h.sizeOf_of_layout ⟨e, hget⟩ (by rw [hap.1]; rfl)] at hp hq
    rw [hwalk, Structural.leafEqual, hbase]
    exact complexEqual_eq hp hq hap.2.1 hbq.2.1 hap.2.2 hbq.2.2
  | _ => simp [form] at hcomplex

end Leaf

theorem equalVia_bytes {data : List UInt8}
    {dynamic : TypeId → Word → Word → Except EvalError Bool} (h : Lawful table)
    (hget : table.get ty = .ok e) (hform : b.form = .bytes) (hne : table.base ty ≠ .noEquality)
    (hfaithful : (bytes data).Faithful table ty) (hap : (bytes data).LiesAt table arena ty p)
    (hbq : b.LiesAt table arena ty q) :
    Structural.equalVia table arena dynamic ty p q = (bytes data).equal table ty b := by
  cases b with
  | bytes data' =>
    obtain ⟨size, align, hkind⟩ := hfaithful.resolve_right hne
    have hlaid := (h.laidOut hget).base
    rw [kind_of_get hget] at hkind
    rw [hkind] at hlaid
    exact equalVia_of_read hget (by rw [hkind]; rfl) hlaid hap hbq
  | _ => cases hform

theorem equalVia_string {text : String}
    {dynamic : TypeId → Word → Word → Except EvalError Bool} (h : Lawful table)
    (hget : table.get ty = .ok e) (hform : b.form = .string)
    (hap : (string text).LiesAt table arena ty p) (hbq : b.LiesAt table arena ty q) :
    Structural.equalVia table arena dynamic ty p q = (string text).equal table ty b := by
  cases b with
  | string text' =>
    obtain ⟨hkind, start, len, hpLoad, hpRead⟩ := hap
    obtain ⟨_, start', len', hqLoad, hqRead⟩ := hbq
    obtain ⟨hwalk, hbase⟩ := equalVia_of_kind h hget hkind rfl
    rw [hwalk, Structural.leafEqual, hbase]
    exact stringEqual_eq hpLoad hqLoad hpRead hqRead
  | _ => cases hform

/-- The interface that holds nothing equals itself only. -/
theorem equalVia_nil {dynamic : TypeId → Word → Word → Except EvalError Bool}
    (hget : table.get ty = .ok e) (hform : b.form = .interface) (hap : nil.LiesAt table arena ty p)
    (hbq : b.LiesAt table arena ty q) :
    Structural.equalVia table arena dynamic ty p q = nil.equal table ty b := by
  obtain ⟨hkind, hpLoad⟩ := hap
  rw [kind_of_get hget] at hkind
  rw [Structural.equalVia_of_isInterface hget hkind]
  cases b with
  | nil =>
    rw [Leaf.equal_interface hpLoad hbq.2]
    rfl
  | interface dynamic b =>
    obtain ⟨_, _, data, hqLoad, _⟩ := hbq
    rw [Leaf.equal_interface hpLoad hqLoad, if_pos (typeWord_ne_zero dynamic).symm]
    rfl
  | _ => cases hform

/-- Interfaces are compared by the types in them, and by the values if these are of one type that
    can be compared. -/
theorem equal_interface {dynamic dynamic' : TypeId} {data data' : Word}
    {inner : TypeId → Word → Word → Except EvalError Bool} (h : Lawful table)
    (hhas : table.Has dynamic)
    (hpLoad : Primitives.loadPair table arena p = .ok (typeWord dynamic, data))
    (hqLoad : Primitives.loadPair table arena q = .ok (typeWord dynamic', data'))
    (hinner : dynamic = dynamic' → table.base dynamic ≠ .noEquality →
      inner dynamic data data' = a.equal table dynamic b) :
    Leaf.interface.equal table arena inner p q =
      (interface dynamic a).equal table ty (interface dynamic' b) := by
  rw [Leaf.equal_interface hpLoad hqLoad, equal]
  by_cases hsame : dynamic = dynamic'
  · rw [if_neg (not_not_intro (congrArg typeWord hsame)), if_neg (typeWord_ne_zero dynamic),
      if_neg (not_not_intro hsame), dynamicType_eq h _ (typeOfWord_typeWord hhas) hhas,
      h.text_eq hhas]
    split
    · rfl
    · next hne => exact hinner hsame hne
  · rw [if_pos fun heq => hsame (typeWord_inj.1 heq), if_pos hsame]

mutual

/-- The walk along a type compares the values that lie there, if it may go as deep as interfaces
    nest in them. -/
theorem equalVia_eq (h : Lawful table) (hpointer : table.target.pointerSize.toNat ≤ 8) {ty : TypeId}
    {p q : Word} {depth : Nat} (a b : Value) (hty : table.Has ty) (hne : table.base ty ≠ .noEquality)
    (ha : a.Faithful table ty) (hb : b.Faithful table ty)
    (hp : arena.inBounds p (table.sizeOf ty).toNat = true)
    (hq : arena.inBounds q (table.sizeOf ty).toNat = true) (hap : a.LiesAt table arena ty p)
    (hbq : b.LiesAt table arena ty q) (hdepth : SizeOf.sizeOf a ≤ depth) :
    Structural.equalVia table arena (Structural.equalWithin table arena depth) ty p q =
      a.equal table ty b := by
  -- The values have one form, so only pairs of like values remain.
  have hform : b.form = a.form :=
    Option.some.inj ((form?_eq hne hb hbq).symm.trans (form?_eq hne ha hap))
  obtain ⟨e, hget⟩ := hty
  cases a with
  | bool _ | int _ | uint _ => exact equalVia_number h hpointer ⟨e, hget⟩ hform rfl hap hbq
  | float32 _ | float64 _ => exact equalVia_float h hget hform (by simp [form]) hap hbq
  | complex64 _ _ | complex128 _ _ =>
    exact equalVia_complex h hget hform (by simp [form]) hp hq hap hbq
  | bytes _ => exact equalVia_bytes h hget hform hne ha hap hbq
  | string _ => exact equalVia_string h hget hform hap hbq
  | nil => exact equalVia_nil hget hform hap hbq
  | interface dynamic a =>
    obtain ⟨hkind, hhas, data, hpLoad, hbounds, hap⟩ := hap
    rw [kind_of_get hget] at hkind
    rw [Structural.equalVia_of_isInterface hget hkind]
    cases b with
    | nil =>
      rw [Leaf.equal_interface hpLoad hbq.2, if_pos (typeWord_ne_zero dynamic)]
      rfl
    | interface dynamic' b =>
      obtain ⟨_, _, data', hqLoad, hbounds', hbq⟩ := hbq
      rw [Value.interface.sizeOf_spec] at hdepth
      -- The value in an interface is compared by a walk of its own, one level deeper.
      obtain ⟨depth, rfl⟩ := Nat.exists_eq_add_of_le' (show 1 ≤ depth by omega)
      refine equal_interface h hhas hpLoad hqLoad fun heq hne' => ?_
      subst heq
      exact equalVia_eq h hpointer a b hhas hne' ha.2 hb.2 hbounds hbounds' hap hbq (by omega)
    | _ => cases hform
  | list as =>
    cases b with
    | list bs =>
      rw [base_of_get hget] at hne
      rw [sizeOf_of_get hget] at hp hq
      rw [LiesAt, kind_of_get hget, fields_of_get hget] at hap hbq
      rw [Faithful, kind_of_get hget, fields_of_get hget] at ha hb
      rw [Value.list.sizeOf_spec] at hdepth
      rw [Structural.equalVia_eq hget, equal, kind_of_get hget, fields_of_get hget]
      cases hkind : e.kind with
      | array elem len =>
        simp only [hkind] at ha hb hap hbq ⊢
        rw [← hap.1]
        exact conj_elements h hpointer as bs hget hkind hne (by omega) (by omega) ha hb hp hq hap.2
          hbq.2 (by omega)
      | struct name members =>
        simp only [hkind] at ha hb hap hbq ⊢
        exact conj_fields h hpointer as bs hap.1 hbq.1
          (fun field hf => h.base_part_ne hget hne (Entry.field_mem_parts hf)) ha hb
          (fun field hf => h.add_field hget hp hf) (fun field hf => h.add_field hget hq hf) hap.2 hbq.2
          (by omega)
      | _ =>
        simp only [hkind] at hap
    | _ => cases hform

theorem conj_elements (h : Lawful table) (hpointer : table.target.pointerSize.toNat ≤ 8) {ty : TypeId}
    {e : Entry} {p q : Word} {elem : TypeId} {len : Word} {i depth : Nat} (as bs : List Value)
    (hget : table.get ty = .ok e) (hkind : e.kind = .array elem len) (hne : e.base ≠ .noEquality)
    (hlengthA : i + as.length = len.toNat) (hlengthB : i + bs.length = len.toNat)
    (ha : FaithfulElements table elem as) (hb : FaithfulElements table elem bs)
    (hp : arena.inBounds p e.size.toNat = true) (hq : arena.inBounds q e.size.toNat = true)
    (hap : LieFrom table arena elem p i as) (hbq : LieFrom table arena elem q i bs)
    (hdepth : SizeOf.sizeOf as ≤ depth) :
    conj ((List.range' i as.length).map fun i => (do
      let p ← Structural.elementAddr table p i elem
      let q ← Structural.elementAddr table q i elem
      Structural.equalVia table arena (Structural.equalWithin table arena depth) elem p q :
        Except EvalError Bool)) = equalElements table elem as bs := by
  cases as with
  | nil => rfl
  | cons a as =>
    cases bs with
    | nil =>
      rw [List.length_cons] at hlengthA
      rw [List.length_nil] at hlengthB
      omega
    | cons b bs =>
      rw [List.length_cons] at hlengthA hlengthB
      rw [List.cons.sizeOf_spec] at hdepth
      have hi : i < len.toNat := by omega
      obtain ⟨hhas, hne'⟩ := h.base_part_ne hget hne (Entry.elem_mem_parts hkind)
      obtain ⟨hpAddr, hpBounds⟩ := h.elementAddr_eq hget hp hkind hi
      obtain ⟨hqAddr, hqBounds⟩ := h.elementAddr_eq hget hq hkind hi
      have hdepthA : SizeOf.sizeOf a ≤ depth := by omega
      have hdepthAs : SizeOf.sizeOf as ≤ depth := by omega
      have hfirst := equalVia_eq h hpointer a b hhas hne' ha.1 hb.1 hpBounds hqBounds hap.1 hbq.1 hdepthA
      have hrest := conj_elements h hpointer as bs hget hkind hne (by omega) (by omega) ha.2 hb.2 hp hq
        hap.2 hbq.2 hdepthAs
      rw [List.length_cons, List.range'_succ, List.map_cons, conj_cons, hrest, hpAddr, hqAddr]
      change Structural.equalVia table arena _ elem _ _ >>= _ = _
      rw [hfirst]
      rfl

theorem conj_fields (h : Lawful table) (hpointer : table.target.pointerSize.toNat ≤ 8)
    {p q : Word} {fields : List Field} {depth : Nat} (as bs : List Value)
    (hlengthA : as.length = fields.length) (hlengthB : bs.length = fields.length)
    (hparts : ∀ field ∈ fields, table.Has field.ty ∧ table.base field.ty ≠ .noEquality)
    (ha : FaithfulFields table fields as) (hb : FaithfulFields table fields bs)
    (hp : ∀ field ∈ fields, Word.add p field.offset = .ok (p + field.offset) ∧
      arena.inBounds (p + field.offset) (table.sizeOf field.ty).toNat = true)
    (hq : ∀ field ∈ fields, Word.add q field.offset = .ok (q + field.offset) ∧
      arena.inBounds (q + field.offset) (table.sizeOf field.ty).toNat = true)
    (hap : LieWithin table arena p fields as) (hbq : LieWithin table arena q fields bs)
    (hdepth : SizeOf.sizeOf as ≤ depth) :
    conj (fields.map fun field =>
      if field.isBlank then .ok true
      else (do
        let p ← Word.add p field.offset
        let q ← Word.add q field.offset
        Structural.equalVia table arena (Structural.equalWithin table arena depth) field.ty p q :
          Except EvalError Bool)) = equalFields table fields as bs := by
  cases fields with
  | nil =>
    cases as with
    | nil => rfl
    | cons a as => cases hlengthA
  | cons field fields =>
    cases as with
    | nil => cases hlengthA
    | cons a as =>
      cases bs with
      | nil => cases hlengthB
      | cons b bs =>
        rw [List.cons.sizeOf_spec] at hdepth
        have hdepthA : SizeOf.sizeOf a ≤ depth := by omega
        have hdepthAs : SizeOf.sizeOf as ≤ depth := by omega
        have hrest := conj_fields h hpointer as bs (Nat.succ_inj.1 hlengthA) (Nat.succ_inj.1 hlengthB)
          (fun field hf => hparts field (List.mem_cons_of_mem _ hf)) ha.2 hb.2
          (fun field hf => hp field (List.mem_cons_of_mem _ hf))
          (fun field hf => hq field (List.mem_cons_of_mem _ hf)) hap.2 hbq.2 hdepthAs
        obtain ⟨hhas, hne⟩ := hparts field List.mem_cons_self
        obtain ⟨hpAddr, hpBounds⟩ := hp field List.mem_cons_self
        obtain ⟨hqAddr, hqBounds⟩ := hq field List.mem_cons_self
        have hfirst := equalVia_eq h hpointer a b hhas hne ha.1 hb.1 hpBounds hqBounds hap.1 hbq.1
          hdepthA
        -- A blank field is passed over on both sides.
        rw [List.map_cons, conj_cons, hrest, equalFields]
        split
        · rfl
        · rw [hpAddr, hqAddr]
          change Structural.equalVia table arena _ field.ty _ _ >>= _ = _
          rw [hfirst]
          rfl

end

end Value

/-! ### Machines -/

namespace Machine

variable {machine between after : Machine} {a b : Value} {fill fill' : UInt8}

/-- Storing a value changes the memory of a machine only. -/
theorem of_store_eq_ok (h : store ty a fill machine = (.ok p, after)) :
    a.store machine.table fill ty machine.arena = (.ok p, after.arena) ∧
      after.table = machine.table := by
  obtain ⟨table, session, arena⟩ := machine
  obtain ⟨hanswer, rfl⟩ := Prod.mk.inj h
  exact ⟨Prod.ext hanswer rfl, rfl⟩

theorem Reachable.store (hmachine : Reachable table machine)
    (h : Machine.store ty a fill machine = (.ok p, after)) : Reachable table after := by
  have hafter : Request.after machine (.store ty a fill) = after := congrArg Prod.snd h
  exact hafter ▸ Leads.request (.store ty a fill) hmachine

/-- Whatever has been asked of a machine, two values that it stores one after the other are
    compared as values: with the same truth value, or with the panic of the first interfaces that
    hold values of one type without equality. -/
theorem equal_eq_valueEqual (hbuilt : Built table) (hpointer : table.target.pointerSize.toNat ≤ 8)
    (hwhole : table.OpaqueWhole) (hdistinct : table.TextsDistinct) (hmachine : Reachable table machine)
    (halgorithm : table.algorithm ty ≠ .noEquality) (ha : a.Faithful table ty)
    (hb : b.Faithful table ty) (hstore : store ty a fill machine = (.ok p, between))
    (hstore' : store ty b fill' between = (.ok q, after))
    (hlimit : after.arena.stop < 256 ^ table.target.pointerSize.toNat) :
    (equal ty p q after).1 = a.equal table ty b := by
  have h := hbuilt.lawful
  have hne : table.base ty ≠ .noEquality := fun hbase =>
    halgorithm (algorithm_eq_noEquality_iff.2 hbase)
  have hmachine' := (hmachine.store hstore).store hstore'
  obtain ⟨hstored, htable'⟩ := of_store_eq_ok hstore
  obtain ⟨hstored', _⟩ := of_store_eq_ok hstore'
  rw [htable', (hmachine.sound hbuilt).1] at hstored'
  rw [(hmachine.sound hbuilt).1] at hstored
  -- Both values lie in the memory in the end, the first one as it was not written over.
  obtain ⟨hty, hpSpans, hpPuts⟩ := Value.puts_store h hpointer ha hstored 0
  obtain ⟨_, hqSpans, hqPuts⟩ := Value.puts_store h hpointer hb hstored' 0
  have hp := (hpSpans.mono (Nat.le_refl _) hqPuts.grows).inBounds
  have hq := hqSpans.inBounds
  have hputs := hpPuts.seq hqPuts (Nat.le_refl _) (Nat.le_refl _) (Nat.zero_le _)
  obtain ⟨hpLies, hqLies⟩ := hputs.holds after.arena (Nat.le_refl _) fun _ _ => rfl
  have hpLies := hpLies hlimit
  have hqLies := hqLies hlimit
  have hpImage := Value.image_of_liesAt h a hty hne ha hp hpLies
  have hqImage := Value.image_of_liesAt h b hty hne hb hq hqLies
  rw [equal_eq_leaves hbuilt hpointer hdistinct hmachine' hty hne hpImage hqImage]
  have hplaces := placeNumber_lt
  generalize 2 ^ 96 = n at hplaces ⊢
  have hwalk : Structural.equalWithin table after.arena (n + SizeOf.sizeOf a + 1) ty p q =
      Leaves.equalWithin table after.arena n ty p q :=
    Structural.equalWithin_eq_leaves h hwhole (by omega) hty hne (hpImage.within hplaces)
      (hqImage.within hplaces)
  rw [← hwalk, Structural.equalWithin]
  exact Value.equalVia_eq h hpointer a b hty hne ha hb hp hq hpLies hqLies (Nat.le_add_left _ _)

/-- A pair with a number in its interface. -/
def pairOf (name : String) (number : Value) : Value :=
  .list [.string name, .interface ⟨4⟩ number]

theorem faithful_pairOf (name : String) {number : Value} (hnumber : number.form = .number) :
    (pairOf name number).Faithful pairTable ⟨32⟩ := by
  have hkind : pairTable.kind ⟨32⟩ =
      .struct (some "pair") [⟨some "name", ⟨14⟩⟩, ⟨some "value", ⟨16⟩⟩] := by decide +kernel
  have hfields : pairTable.fields ⟨32⟩ =
      [⟨⟨some "name", ⟨14⟩⟩, 0⟩, ⟨⟨some "value", ⟨16⟩⟩, 16⟩] := by decide +kernel
  have hinner : number.Faithful pairTable ⟨4⟩ := by
    cases number with
    | bool _ | int _ | uint _ => trivial
    | _ => cases hnumber
  rw [pairOf, Value.Faithful, hkind, hfields]
  exact ⟨trivial, ⟨by decide +kernel, hinner⟩, trivial⟩

/-- Minus one and the largest number of 64 bits are the same number of 64 bits. -/
theorem equal_eq_valueEqual_pairs : ∃ between after,
    store ⟨32⟩ (pairOf "ab" (.int (-1))) 0x11 (ofTable pairTable) = (.ok 4096, between) ∧
      store ⟨32⟩ (pairOf "ab" (.uint 0xFFFFFFFFFFFFFFFF)) 0xEE between = (.ok 4144, after) ∧
      (equal ⟨32⟩ 4096 4144 after).1 = .ok true := by
  have hstore : store ⟨32⟩ (pairOf "ab" (.int (-1))) 0x11 (ofTable pairTable) = (.ok 4096, _) :=
    Prod.ext (eq_ok_of_toOption (by decide +kernel)) rfl
  have hstore' : store ⟨32⟩ (pairOf "ab" (.uint 0xFFFFFFFFFFFFFFFF)) 0xEE
      (store ⟨32⟩ (pairOf "ab" (.int (-1))) 0x11 (ofTable pairTable)).2 = (.ok 4144, _) :=
    Prod.ext (eq_ok_of_toOption (by decide +kernel)) rfl
  refine ⟨_, _, hstore, hstore', ?_⟩
  rw [equal_eq_valueEqual built_pairTable (by decide +kernel) opaqueWhole_pairTable
    textsDistinct_pairTable .refl (by decide +kernel) (faithful_pairOf _ rfl) (faithful_pairOf _ rfl)
    hstore hstore' (by decide +kernel)]
  exact eq_ok_of_toOption (by decide +kernel)

end Machine

end HashEq

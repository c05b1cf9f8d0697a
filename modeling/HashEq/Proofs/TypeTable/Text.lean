import HashEq.Proofs.Shape
import HashEq.Proofs.TypeTable.Built

/-!
# What the text of a type shows

Every type of a lawful table has a text, the text of its shape. Two types have the
same text exactly if they have the same shape, and that is, if they are the same
but for two things: a blank field looks like a field whose name is an underscore,
and an interface looks like the first struct of its name.

* `text_eq`: the text of a type is that of its shape;
* `text_eq_iff`: types have the same text exactly if they have the same shape;
* `eq_of_shape_eq`: if no field is named by an underscore and no interface like a
  struct, types of the same shape are the same.
-/

namespace HashEq

namespace TypeTable

variable (table : TypeTable)

/-- The shape of the primitive type of a given name. -/
def primitiveShape (name : String) : Shape :=
  if name = "interface \x7b\x7d" then .any else .named name

/-- What is shown of a type whose parts nest at most `depth` deep. -/
def shapeWithin : Nat → TypeId → Shape
  | 0, ty => primitiveShape (ty.name?.getD "")
  | depth + 1, ty =>
    match ty.name? with
    | some name => primitiveShape name
    | none =>
      match table.kind ty with
      | .pointer elem => .pointer (shapeWithin depth elem)
      | .chan elem => .chan (shapeWithin depth elem)
      | .slice elem => .slice (shapeWithin depth elem)
      | .map key value => .map (shapeWithin depth key) (shapeWithin depth value)
      | .func params results =>
        .func (params.map (shapeWithin depth)) (results.map (shapeWithin depth))
      | .interface name => .named name
      | .array elem len => .array len.toNat (shapeWithin depth elem)
      | .struct (some name) _ =>
        if (table.entry ty).ordinal = 0 then .named name
        else .ordinal name (table.entry ty).ordinal
      | .struct none members =>
        .struct (members.map fun member => member.name.getD "_")
          (members.map fun member => shapeWithin depth member.ty)
      | .opaqueMemory size align => .opaqueMemory size.toNat align.toNat
      | _ => .named "<primitive>"

/-- What is shown of a type: an interface and the first struct of its name look the same, and so
    do a blank field and a field whose name is an underscore. -/
def shape (ty : TypeId) : Shape :=
  table.shapeWithin table.size ty

/-- Names can be told from punctuation, and those of declared types from primitive types. -/
structure WellNamed : Prop where
  interface : ∀ {ty : TypeId} {name : String}, table.Has ty → table.kind ty = .interface name →
    Shape.IsWord name ∧ name ∉ TypeId.primitiveNames
  struct : ∀ {ty : TypeId} {name : String}, table.Has ty →
    (table.kind ty).structName? = some name → Shape.IsWord name ∧ name ∉ TypeId.primitiveNames
  field : ∀ {ty : TypeId} {struct : Option String} {members : List Member} {member : Member}
    {name : String}, table.Has ty → table.kind ty = .struct struct members → member ∈ members →
    member.name = some name → Shape.IsWord name

/-- No field is named like blank fields are written, and no interface like a struct. -/
structure Unmistakable : Prop where
  field : ∀ {ty : TypeId} {struct : Option String} {members : List Member} {member : Member},
    table.Has ty → table.kind ty = .struct struct members → member ∈ members →
    member.name ≠ some "_"
  interface : ∀ {a b : TypeId} {name : String}, table.Has a → table.Has b →
    table.kind a = .interface name → (table.kind b).structName? ≠ some name

variable {table} {ty : TypeId}

theorem slot_lt_of_raw_lt {a b : TypeId} {i j : Nat} (ha : a.slot = .ok i) (hb : b.slot = .ok j)
    (h : a.raw < b.raw) : i < j := by
  rw [UInt32.lt_iff_toNat_lt, TypeId.raw_of_slot ha, TypeId.raw_of_slot hb] at h
  refine Nat.lt_of_not_le fun hle => ?_
  rcases Nat.lt_or_eq_of_le hle with hlt | rfl
  · exact absurd (TypeId.numberOfSlot_lt hlt) (Nat.lt_asymm h)
  · exact absurd h (Nat.lt_irrefl _)

/-- The types that a type names lie less deep. -/
theorem Lawful.ref_slot (h : Lawful table) {e : Entry} (hget : table.get ty = .ok e) {i depth : Nat}
    (hi : ty.slot = .ok i) (hdepth : i < depth + 1) {ref : TypeId} (href : ref ∈ e.kind.refs) :
    table.Has ref ∧ ∃ j, ref.slot = .ok j ∧ j < depth := by
  obtain ⟨hhas, hlt⟩ := h.refs hget ref href
  obtain ⟨j, hj, _⟩ := has_iff.1 hhas
  exact ⟨hhas, j, hj, Nat.lt_of_lt_of_le (slot_lt_of_raw_lt hj hi hlt) (Nat.le_of_lt_succ hdepth)⟩

theorem text_primitiveShape (name : String) : (primitiveShape name).text = name := by
  unfold primitiveShape
  split
  · next h =>
    rw [h, Shape.text]
  · rw [Shape.text]

theorem mapM_eq_map {ε α β : Type} {f : α → Except ε β} {g : α → β} {l : List α}
    (h : ∀ a ∈ l, f a = .ok (g a)) : l.mapM f = .ok (l.map g) := by
  induction l with
  | nil => rfl
  | cons a l ih =>
    rw [List.mapM_cons, h a List.mem_cons_self, ih fun b hb => h b (List.mem_cons_of_mem a hb)]
    rfl

/-- A type has a text, that of its shape. -/
theorem Lawful.textWithin_eq (h : Lawful table) {ty : TypeId} {i depth : Nat}
    (hty : table.Has ty) (hi : ty.slot = .ok i) (hdepth : i < depth) :
    table.textWithin depth ty = .ok (table.shapeWithin depth ty).text := by
  induction depth generalizing ty i with
  | zero => exact absurd hdepth (Nat.not_lt_zero i)
  | succ depth ih =>
    rw [textWithin, shapeWithin]
    cases hname : ty.name? with
    | some name => exact congrArg Except.ok (text_primitiveShape name).symm
    | none =>
      obtain ⟨e, hget⟩ := hty
      -- What a type names lies less deep, so the texts of its parts are known.
      have href : ∀ ref ∈ e.kind.refs,
          table.textWithin depth ref = .ok (table.shapeWithin depth ref).text := by
        intro ref hmem
        obtain ⟨hhas, j, hj, hlt⟩ := h.ref_slot hget hi hdepth hmem
        exact ih hhas hj hlt
      rw [kind_of_get hget, entry_of_get hget]
      simp only [hget, bind, Except.bind]
      cases hkind : e.kind with
      | pointer elem | chan elem | slice elem | array elem len =>
        rw [hkind] at href
        simp only [href elem List.mem_cons_self, Shape.text]
        rfl
      | map key value =>
        rw [hkind] at href
        simp only [href key List.mem_cons_self, href value (.tail _ List.mem_cons_self), Shape.text]
        rfl
      | func params results =>
        rw [hkind] at href
        have hparams := mapM_eq_map fun param hp => href param (List.mem_append_left _ hp)
        have hresults := mapM_eq_map fun result hr => href result (List.mem_append_right _ hr)
        simp only [hparams, hresults, Shape.text, List.map_map, Function.comp_def]
        generalize results.map _ = texts
        -- No result, one result and several are written differently.
        rcases texts with _ | ⟨_, _ | ⟨_, _⟩⟩ <;> rfl
      | struct name members =>
        rw [hkind] at href
        cases name with
        | some name =>
          dsimp only
          split
          · rw [Shape.text]
            rfl
          · rw [Shape.text]
            rfl
        | none =>
          cases members with
          | nil =>
            dsimp only
            rw [List.map_nil, Shape.text]
            rfl
          | cons member members =>
            dsimp only
            rw [mapM_eq_map fun m hm => by rw [href m.ty (List.mem_map_of_mem hm)]; rfl,
              Shape.text_struct (by rw [List.map_cons]; exact List.cons_ne_nil _ _), List.map_map,
              List.zipWith_map, List.zipWith_self]
            rfl
      | interface name | opaqueMemory size align =>
        rw [Shape.text]
        rfl
      | _ =>
        rw [Shape.text]
        rfl

theorem Lawful.text_eq (h : Lawful table) (hty : table.Has ty) :
    table.text ty = .ok (table.shape ty).text := by
  obtain ⟨i, hi, hlt⟩ := has_iff.1 hty
  exact h.textWithin_eq hty hi hlt

/-! ### Types and shapes -/

theorem wellFormed_primitiveShape {name : String} (h : name ∈ TypeId.primitiveNames) :
    (primitiveShape name).WellFormed := by
  have hwords : ∀ name ∈ TypeId.primitiveNames, name ≠ "interface \x7b\x7d" → Shape.IsWord name := by
    decide
  unfold primitiveShape
  split
  · exact .any
  · next hne => exact .named (hwords name h hne)

theorem name_mem {name : String} (h : ty.name? = some name) : name ∈ TypeId.primitiveNames :=
  List.mem_of_getElem? h

theorem Lawful.wellFormed (h : Lawful table) (hnamed : table.WellNamed) {ty : TypeId} {i depth : Nat}
    (hty : table.Has ty) (hi : ty.slot = .ok i) (hdepth : i < depth) :
    (table.shapeWithin depth ty).WellFormed := by
  induction depth generalizing ty i with
  | zero => exact absurd hdepth (Nat.not_lt_zero i)
  | succ depth ih =>
    rw [shapeWithin]
    cases hname : ty.name? with
    | some name => exact wellFormed_primitiveShape (name_mem hname)
    | none =>
      obtain ⟨e, hget⟩ := id hty
      have href : ∀ ref ∈ e.kind.refs, (table.shapeWithin depth ref).WellFormed := by
        intro ref hmem
        obtain ⟨hhas, j, hj, hlt⟩ := h.ref_slot hget hi hdepth hmem
        exact ih hhas hj hlt
      rw [kind_of_get hget, entry_of_get hget]
      have hkind' := kind_of_get hget
      cases hkind : e.kind with
      | pointer elem =>
        rw [hkind] at href
        exact .pointer (href elem List.mem_cons_self)
      | chan elem =>
        rw [hkind] at href
        exact .chan (href elem List.mem_cons_self)
      | slice elem =>
        rw [hkind] at href
        exact .slice (href elem List.mem_cons_self)
      | array elem len =>
        rw [hkind] at href
        exact .array (href elem List.mem_cons_self)
      | map key value =>
        rw [hkind] at href
        exact .map (href key List.mem_cons_self) (href value (.tail _ List.mem_cons_self))
      | func params results =>
        rw [hkind] at href
        exact .func
          (List.forall_mem_map.2 fun param hp => href param (List.mem_append_left _ hp))
          (List.forall_mem_map.2 fun result hr => href result (List.mem_append_right _ hr))
      | interface name => exact .named (hnamed.interface hty (hkind'.trans hkind)).1
      | struct name members =>
        rw [hkind] at href hkind'
        cases name with
        | some name =>
          have hname : (table.kind ty).structName? = some name := by rw [hkind', Kind.structName?]
          have hword := (hnamed.struct hty hname).1
          dsimp only
          split
          · exact .named hword
          · exact .ordinal hword
        | none =>
          refine .struct (List.forall_mem_map.2 fun member hm => ?_)
            (by rw [List.length_map, List.length_map])
            (List.forall_mem_map.2 fun member hm => href member.ty (List.mem_map_of_mem hm))
          cases hmember : member.name with
          | none => exact show Shape.IsWord "_" by decide
          | some name => exact hnamed.field hty hkind' hm hmember
      | opaqueMemory size align => exact .opaqueMemory
      | _ => exact .named (by decide)

/-- Types have the same text exactly if they have the same shape. -/
theorem Lawful.text_eq_iff (h : Lawful table) (hnamed : table.WellNamed) {a b : TypeId}
    (ha : table.Has a) (hb : table.Has b) :
    table.text a = table.text b ↔ table.shape a = table.shape b := by
  obtain ⟨i, hi, hilt⟩ := has_iff.1 ha
  obtain ⟨j, hj, hjlt⟩ := has_iff.1 hb
  rw [h.text_eq ha, h.text_eq hb]
  constructor
  · intro heq
    exact Shape.text_injective (h.wellFormed hnamed ha hi hilt) (h.wellFormed hnamed hb hj hjlt)
      (Except.ok.inj heq)
  · intro heq
    rw [heq]

/-! ### Types of the same shape -/

/-- What the shape of a type that is not primitive tells about its entry. -/
def Fits (table : TypeTable) (depth : Nat) (e : Entry) : Shape → Prop
  | .named name => e.kind = .interface name ∨ e.kind.structName? = some name ∧ e.ordinal = 0
  | .any => False
  | .pointer s => ∃ elem, e.kind = .pointer elem ∧ table.shapeWithin depth elem = s
  | .chan s => ∃ elem, e.kind = .chan elem ∧ table.shapeWithin depth elem = s
  | .slice s => ∃ elem, e.kind = .slice elem ∧ table.shapeWithin depth elem = s
  | .map s t => ∃ key value, e.kind = .map key value ∧ table.shapeWithin depth key = s ∧
      table.shapeWithin depth value = t
  | .func ss ts => ∃ params results, e.kind = .func params results ∧
      params.map (table.shapeWithin depth) = ss ∧ results.map (table.shapeWithin depth) = ts
  | .array n s => ∃ elem len, e.kind = .array elem len ∧ len.toNat = n ∧
      table.shapeWithin depth elem = s
  | .ordinal name n => e.kind.structName? = some name ∧ e.ordinal = n ∧ n ≠ 0
  | .struct names types => ∃ members, e.kind = .struct none members ∧
      members.map (fun member => member.name.getD "_") = names ∧
      members.map (fun member => table.shapeWithin depth member.ty) = types
  | .opaqueMemory m n => ∃ size align, e.kind = .opaqueMemory size align ∧ size.toNat = m ∧
      align.toNat = n

theorem fits_shapeWithin {e : Entry} (hget : table.get ty = .ok e) (hname : ty.name? = none)
    (hkind : e.kind ∉ Kind.primitives) (depth : Nat) :
    table.Fits depth e (table.shapeWithin (depth + 1) ty) := by
  rw [shapeWithin, hname, kind_of_get hget, entry_of_get hget]
  dsimp only
  split
  · exact ⟨_, ‹_›, rfl⟩
  · exact ⟨_, ‹_›, rfl⟩
  · exact ⟨_, ‹_›, rfl⟩
  · exact ⟨_, _, ‹_›, rfl, rfl⟩
  · exact ⟨_, _, ‹_›, rfl, rfl⟩
  · exact .inl ‹_›
  · exact ⟨_, _, ‹_›, rfl, rfl⟩
  · next hstruct =>
    split
    · next hzero => exact .inr ⟨by rw [hstruct, Kind.structName?], hzero⟩
    · next hne => exact ⟨by rw [hstruct, Kind.structName?], rfl, hne⟩
  · exact ⟨_, ‹_›, rfl, rfl⟩
  · exact ⟨_, _, ‹_›, rfl, rfl⟩
  · -- All other kinds are primitive.
    refine absurd ?_ hkind
    cases hk : e.kind with
    | bool | int8 | int16 | int32 | int64 | uint8 | uint16 | uint32 | uint64 | uintptr | float32
    | float64 | complex64 | complex128 | string | unsafePointer | any => decide
    | struct name members => cases name <;> simp_all
    | _ => simp_all

theorem map_inj_on {α β : Type} {f : α → β} {l l' : List α}
    (h : ∀ x ∈ l, ∀ y ∈ l', f x = f y → x = y) (heq : l.map f = l'.map f) : l = l' := by
  induction l generalizing l' with
  | nil => exact (List.map_eq_nil_iff.1 heq.symm).symm
  | cons x l ih =>
    cases l' with
    | nil => cases heq
    | cons y l' =>
      obtain ⟨hxy, hrest⟩ := List.cons.inj heq
      rw [h x List.mem_cons_self y List.mem_cons_self hxy,
        ih (fun x hx y hy => h x (List.mem_cons_of_mem _ hx) y (List.mem_cons_of_mem _ hy)) hrest]

theorem name?_inj {a b : TypeId} {name : String} (ha : a.name? = some name)
    (hb : b.name? = some name) : a = b := by
  have hlt := (List.getElem?_eq_some_iff.1 ha).1
  have hraw := (List.getElem?_inj hlt (by decide)).1 (ha.trans hb.symm)
  cases a
  cases b
  rw [TypeId.mk.injEq, ← UInt32.toNat_inj]
  exact hraw

theorem Built.kind_not_primitive (h : Built table) {e : Entry} (hget : table.get ty = .ok e)
    (hname : ty.name? = none) : e.kind ∉ Kind.primitives := by
  rw [← h.isPrimitive_iff hget, TypeId.isPrimitive, decide_eq_true_iff]
  exact Nat.not_lt.2 (List.getElem?_eq_none_iff.1 hname)

/-- The shape of a primitive type is that of no other type. -/
theorem Built.not_fits_primitiveShape (hnamed : table.WellNamed) {e : Entry}
    (hget : table.get ty = .ok e) {depth : Nat} {name : String}
    (hname : name ∈ TypeId.primitiveNames) : ¬table.Fits depth e (primitiveShape name) := by
  have hkind := kind_of_get hget
  unfold primitiveShape
  split
  · exact id
  · rintro (hinterface | ⟨hstruct, -⟩)
    · exact (hnamed.interface ⟨e, hget⟩ (hkind.trans hinterface)).2 hname
    · exact (hnamed.struct ⟨e, hget⟩ (hkind ▸ hstruct)).2 hname

/-- Fields are the same if they look the same and none is named like a blank one. -/
theorem members_eq {l l' : List Member} {f : Member → Shape}
    (hl : ∀ member ∈ l, member.name ≠ some "_") (hl' : ∀ member ∈ l', member.name ≠ some "_")
    (hty : ∀ x ∈ l, ∀ y ∈ l', f x = f y → x.ty = y.ty)
    (hnames : l.map (fun member => member.name.getD "_") =
      l'.map fun member => member.name.getD "_") (htypes : l.map f = l'.map f) : l = l' := by
  induction l generalizing l' with
  | nil => exact (List.map_eq_nil_iff.1 htypes.symm).symm
  | cons x l ih =>
    cases l' with
    | nil => cases htypes
    | cons y l' =>
      obtain ⟨hname, hnames⟩ := List.cons.inj hnames
      obtain ⟨htype, htypes⟩ := List.cons.inj htypes
      have hx := hl x List.mem_cons_self
      have hy := hl' y List.mem_cons_self
      have hxy := hty x List.mem_cons_self y List.mem_cons_self htype
      have hsame : x.name = y.name := by
        cases hxn : x.name with
        | none => cases hyn : y.name <;> simp_all
        | some _ => cases hyn : y.name <;> simp_all
      have heq : x = y := by
        cases x
        cases y
        simp_all
      rw [heq, ih (fun m hm => hl m (List.mem_cons_of_mem _ hm))
        (fun m hm => hl' m (List.mem_cons_of_mem _ hm))
        (fun x hx y hy => hty x (List.mem_cons_of_mem _ hx) y (List.mem_cons_of_mem _ hy))
        hnames htypes]

/-- Types of the same shape are of the same kind, or structs of the same name and ordinal. -/
theorem Fits.kind_eq (hplain : table.Unmistakable) {a b : TypeId} {ea eb : Entry}
    (hgeta : table.get a = .ok ea) (hgetb : table.get b = .ok eb) {depth : Nat} {s : Shape}
    (hrefs : ∀ x ∈ ea.kind.refs, ∀ y ∈ eb.kind.refs,
      table.shapeWithin depth x = table.shapeWithin depth y → x = y)
    (ha : table.Fits depth ea s) (hb : table.Fits depth eb s) :
    ea.kind = eb.kind ∨ ∃ name, ea.kind.structName? = some name ∧
      eb.kind.structName? = some name ∧ ea.ordinal = eb.ordinal := by
  have hkinda := kind_of_get hgeta
  have hkindb := kind_of_get hgetb
  cases s with
  | named name =>
    -- A name is that of an interface or of a first struct, and no interface is named like a struct.
    rcases ha with hka | ⟨hka, hoa⟩
    · rcases hb with hkb | ⟨hkb, -⟩
      · exact .inl (hka.trans hkb.symm)
      · exact absurd (hkindb ▸ hkb) (hplain.interface ⟨ea, hgeta⟩ ⟨eb, hgetb⟩ (hkinda.trans hka))
    · rcases hb with hkb | ⟨hkb, hob⟩
      · exact absurd (hkinda ▸ hka) (hplain.interface ⟨eb, hgetb⟩ ⟨ea, hgeta⟩ (hkindb.trans hkb))
      · exact .inr ⟨name, hka, hkb, hoa.trans hob.symm⟩
  | any => exact ha.elim
  | pointer s | chan s | slice s =>
    obtain ⟨x, hka, rfl⟩ := ha
    obtain ⟨y, hkb, hxy⟩ := hb
    rw [hka, hkb] at hrefs ⊢
    rw [hrefs x List.mem_cons_self y List.mem_cons_self hxy.symm]
    exact .inl rfl
  | map s t =>
    obtain ⟨x, x', hka, rfl, rfl⟩ := ha
    obtain ⟨y, y', hkb, hxy, hxy'⟩ := hb
    rw [hka, hkb] at hrefs ⊢
    rw [hrefs x List.mem_cons_self y List.mem_cons_self hxy.symm,
      hrefs x' (.tail _ List.mem_cons_self) y' (.tail _ List.mem_cons_self) hxy'.symm]
    exact .inl rfl
  | func ss ts =>
    obtain ⟨ps, rs, hka, rfl, rfl⟩ := ha
    obtain ⟨ps', rs', hkb, hps, hrs⟩ := hb
    rw [hka, hkb] at hrefs ⊢
    rw [map_inj_on (fun x hx y hy => hrefs x (List.mem_append_left _ hx) y
        (List.mem_append_left _ hy)) hps.symm,
      map_inj_on (fun x hx y hy => hrefs x (List.mem_append_right _ hx) y
        (List.mem_append_right _ hy)) hrs.symm]
    exact .inl rfl
  | array n s =>
    obtain ⟨x, len, hka, hlen, rfl⟩ := ha
    obtain ⟨y, len', hkb, hlen', hxy⟩ := hb
    rw [hka, hkb] at hrefs ⊢
    rw [hrefs x List.mem_cons_self y List.mem_cons_self hxy.symm,
      UInt64.toNat_inj.1 (hlen.trans hlen'.symm)]
    exact .inl rfl
  | ordinal name n => exact .inr ⟨name, ha.1, hb.1, ha.2.1.trans hb.2.1.symm⟩
  | struct names types =>
    obtain ⟨ms, hka, rfl, rfl⟩ := ha
    obtain ⟨ms', hkb, hnames, htypes⟩ := hb
    rw [hka] at hkinda
    rw [hkb] at hkindb
    rw [hka, hkb] at hrefs ⊢
    -- As no field is called `_`, the written names tell which fields are blank.
    rw [members_eq (fun m hm => hplain.field ⟨ea, hgeta⟩ hkinda hm)
      (fun m hm => hplain.field ⟨eb, hgetb⟩ hkindb hm)
      (fun x hx y hy => hrefs x.ty (List.mem_map_of_mem hx) y.ty (List.mem_map_of_mem hy))
      hnames.symm htypes.symm]
    exact .inl rfl
  | opaqueMemory m n =>
    obtain ⟨size, align, hka, hsize, halign⟩ := ha
    obtain ⟨size', align', hkb, hsize', halign'⟩ := hb
    rw [hka, hkb, UInt64.toNat_inj.1 (hsize.trans hsize'.symm),
      UInt64.toNat_inj.1 (halign.trans halign'.symm)]
    exact .inl rfl

/-- Types of the same shape are the same if no two ways of declaring them look alike. -/
theorem Built.eq_of_shapeWithin_eq (h : Built table) (hnamed : table.WellNamed)
    (hplain : table.Unmistakable) {a b : TypeId} {i j depth : Nat} (ha : table.Has a)
    (hb : table.Has b) (hi : a.slot = .ok i) (hj : b.slot = .ok j) (hidepth : i < depth)
    (hjdepth : j < depth) (heq : table.shapeWithin depth a = table.shapeWithin depth b) : a = b := by
  induction depth generalizing a b i j with
  | zero => exact absurd hidepth (Nat.not_lt_zero i)
  | succ depth ih =>
    obtain ⟨ea, hgeta⟩ := ha
    obtain ⟨eb, hgetb⟩ := hb
    cases hna : a.name? with
    | some na =>
      have hsa : table.shapeWithin (depth + 1) a = primitiveShape na := by rw [shapeWithin, hna]
      cases hnb : b.name? with
      | some nb =>
        have hsb : table.shapeWithin (depth + 1) b = primitiveShape nb := by rw [shapeWithin, hnb]
        have htext := congrArg Shape.text (hsa.symm.trans (heq.trans hsb))
        rw [text_primitiveShape, text_primitiveShape] at htext
        exact name?_inj hna (htext ▸ hnb)
      | none =>
        have hfits := fits_shapeWithin hgetb hnb (h.kind_not_primitive hgetb hnb) depth
        rw [← heq, hsa] at hfits
        exact absurd hfits (not_fits_primitiveShape hnamed hgetb (name_mem hna))
    | none =>
      have hfitsa := fits_shapeWithin hgeta hna (h.kind_not_primitive hgeta hna) depth
      cases hnb : b.name? with
      | some nb =>
        rw [heq, shapeWithin, hnb] at hfitsa
        exact absurd hfitsa (not_fits_primitiveShape hnamed hgeta (name_mem hnb))
      | none =>
        have hfitsb := fits_shapeWithin hgetb hnb (h.kind_not_primitive hgetb hnb) depth
        rw [← heq] at hfitsb
        -- Parts of the same shape are the same, so the kinds are.
        have hrefs : ∀ x ∈ ea.kind.refs, ∀ y ∈ eb.kind.refs,
            table.shapeWithin depth x = table.shapeWithin depth y → x = y := by
          intro x hx y hy hxy
          obtain ⟨hhasx, k, hk, hklt⟩ := h.lawful.ref_slot hgeta hi hidepth hx
          obtain ⟨hhasy, l, hl, hllt⟩ := h.lawful.ref_slot hgetb hj hjdepth hy
          exact ih hhasx hhasy hk hl hklt hllt hxy
        rcases hfitsa.kind_eq hplain hgeta hgetb hrefs hfitsb with hkind | ⟨name, hka, hkb, hordinal⟩
        · exact h.lawful.eq_of_kind_eq hgeta hgetb hkind
        · exact h.lawful.eq_of_ordinal_eq hgeta hgetb hka hkb hordinal

theorem Built.eq_of_shape_eq (h : Built table) (hnamed : table.WellNamed)
    (hplain : table.Unmistakable) {a b : TypeId} (ha : table.Has a) (hb : table.Has b)
    (heq : table.shape a = table.shape b) : a = b := by
  obtain ⟨i, hi, hilt⟩ := has_iff.1 ha
  obtain ⟨j, hj, hjlt⟩ := has_iff.1 hb
  exact h.eq_of_shapeWithin_eq hnamed hplain ha hb hi hj hilt hjlt heq

/-! ### A table of pairs -/

/-- The kinds of a struct of a string and a value of any type, and of two such structs with a blank
    field in between. -/
def pairKinds : List Kind :=
  [.struct (some "pair") [⟨some "name", ⟨14⟩⟩, ⟨some "value", ⟨16⟩⟩],
    .struct none [⟨some "first", ⟨32⟩⟩, ⟨none, ⟨0⟩⟩, ⟨some "second", ⟨32⟩⟩]]

/-- A table with pairs. -/
def pairTable : TypeTable :=
  ofKinds .amd64 pairKinds

theorem built_pairTable : Built pairTable :=
  built_ofKinds (by decide +kernel)

theorem kinds_pairTable : pairTable.kinds = Kind.primitives ++ pairKinds := by
  decide +kernel

theorem members_pairTable {ty : TypeId} {struct : Option String} {members : List Member}
    {member : Member} (hty : pairTable.Has ty) (hkind : pairTable.kind ty = .struct struct members)
    (hmember : member ∈ members) : member.name ∈ [some "name", some "value", some "first", none,
      some "second"] := by
  have hmem := hty.kind_mem
  rw [hkind, kinds_pairTable] at hmem
  simp only [Kind.primitives, pairKinds, List.mem_append, List.mem_cons, List.not_mem_nil, or_false,
    reduceCtorEq, false_or, Kind.struct.injEq] at hmem
  rcases hmem with ⟨-, rfl⟩ | ⟨-, rfl⟩
  all_goals
    simp only [List.mem_cons, List.not_mem_nil, or_false] at hmember
    rcases hmember with rfl | rfl | rfl <;> decide

theorem wellNamed_pairTable : pairTable.WellNamed where
  interface hty hkind := by
    have hmem := hty.kind_mem
    rw [hkind, kinds_pairTable] at hmem
    simp [Kind.primitives, pairKinds] at hmem
  struct hty hkind := by
    have hnames : ∀ kind ∈ Kind.primitives ++ pairKinds, ∀ name ∈ kind.structName?,
        Shape.IsWord name ∧ name ∉ TypeId.primitiveNames := by decide +kernel
    exact hnames _ (kinds_pairTable ▸ hty.kind_mem) _ hkind
  field hty hkind hmember hname := by
    have hmem := members_pairTable hty hkind hmember
    rw [hname] at hmem
    have hnames : ∀ name ∈ ["name", "value", "first", "second"], Shape.IsWord name := by
      decide +kernel
    exact hnames _ (by simpa using hmem)

theorem unmistakable_pairTable : pairTable.Unmistakable where
  field hty hkind hmember := by
    have hmem := members_pairTable hty hkind hmember
    rintro hname
    rw [hname] at hmem
    exact absurd hmem (by decide)
  interface hty _ hkind := by
    have hmem := hty.kind_mem
    rw [hkind, kinds_pairTable] at hmem
    simp [Kind.primitives, pairKinds] at hmem

end TypeTable

end HashEq

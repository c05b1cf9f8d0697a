import HashEq.Proofs.Synthesis.Inversion
import HashEq.Proofs.TypeTable.Placement
import HashEq.Proofs.TypeTable.Text
import HashEq.Session

/-!
# Which functions can be synthesized

Whatever is synthesized for a type looks at the types of its parts. A type with
equality has no part without, so hash and equality functions can be synthesized
for every type that needs them.

* `Lawful.base_part_ne`: the parts of a type with equality have equality;
* `Lawful.requireCustom_eq_ok_iff`: the types that functions are generated for;
* `Lawful.synthesize_isOk`: their functions can be synthesized.
-/

namespace HashEq

/-- Steps that all succeed succeed together. -/
theorem mapM_isOk {ε α β : Type} {f : α → Except ε β} {l : List α}
    (h : ∀ a ∈ l, ∃ b, f a = .ok b) : ∃ bs, l.mapM f = .ok bs := by
  induction l with
  | nil => exact ⟨[], rfl⟩
  | cons a l ih =>
    obtain ⟨b, hb⟩ := h a List.mem_cons_self
    obtain ⟨bs, hbs⟩ := ih fun a ha => h a (List.mem_cons_of_mem _ ha)
    rw [List.mapM_cons, hb, hbs]
    exact ⟨b :: bs, rfl⟩

theorem checkEach_isOk {check : Expr → Except RequestError Expr} (last : Bool)
    (h : ∀ position, ∃ e, check position = .ok e) (js : List Nat) :
    ∃ stmts, checkEach last check js = .ok stmts := by
  fun_induction checkEach last check js with
  | case1 => exact ⟨_, rfl⟩
  | case2 j =>
    obtain ⟨e, he⟩ := h (.const (UInt64.ofNat j))
    rw [he]
    exact ⟨_, rfl⟩
  | case3 j js hjs ih =>
    obtain ⟨e, he⟩ := h (.const (UInt64.ofNat j))
    obtain ⟨stmts, hstmts⟩ := ih
    rw [he, hstmts]
    exact ⟨_, rfl⟩

/-- The checks of all elements are those of a loop and those after it. -/
theorem checkAll_eq_ok {check : Expr → Except RequestError Expr} {unroll : Nat} {last : Bool} {len : Nat}
    {stmts : List Stmt} (h : checkAll unroll last len check = .ok stmts) :
    ∃ loop each,
      (if loopBound unroll len = 0 then pure [] else checkLoop unroll (loopBound unroll len) check) =
        Except.ok loop ∧
      checkEach last check
        (List.range' (loopBound unroll len) (len - loopBound unroll len)) = .ok each ∧
      stmts = loop ++ each := by
  rw [checkAll] at h
  dsimp only at h
  split at h
  · next hbound =>
    obtain ⟨loop, hloop, h⟩ := bind_eq_ok_iff.1 h
    obtain ⟨each, heach, h⟩ := bind_eq_ok_iff.1 h
    cases h
    exact ⟨loop, each, (if_pos hbound).trans hloop, heach, rfl⟩
  · next hbound =>
    obtain ⟨loop, hloop, h⟩ := bind_eq_ok_iff.1 h
    obtain ⟨each, heach, h⟩ := bind_eq_ok_iff.1 h
    cases h
    exact ⟨loop, each, (if_neg hbound).trans hloop, heach, rfl⟩

theorem checkAll_isOk {check : Expr → Except RequestError Expr}
    (h : ∀ position, ∃ e, check position = .ok e) (unroll : Nat) (last : Bool) (len : Nat) :
    ∃ stmts, checkAll unroll last len check = .ok stmts := by
  obtain ⟨each, heach⟩ := checkEach_isOk last h
    (List.range' (loopBound unroll len) (len - loopBound unroll len))
  obtain ⟨e, he⟩ := h (.var EqualityCode.i)
  rw [checkAll, heach]
  split
  · exact ⟨_, rfl⟩
  · rw [checkLoop, he]
    exact ⟨_, rfl⟩

namespace TypeTable

variable {table : TypeTable} {ty : TypeId} {e : Entry} {purpose : Purpose}

/-! ### Algorithms of types and of their parts -/

/-- Plain memory is left to a primitive, of its own width or of any. -/
theorem memoryAlgorithm_cases (table : TypeTable) (size align : Word) :
    table.memoryAlgorithm size align = .varMemory ∨
      ∃ width : MemoryWidth, width.bytes = size ∧
        table.memoryAlgorithm size align = .fixedMemory width := by
  unfold memoryAlgorithm
  split
  · exact .inl rfl
  · split
    · next width hwidth => exact .inr ⟨width, MemoryWidth.bytes_of_ofSize? hwidth, rfl⟩
    · exact .inl rfl

theorem algorithm_eq_custom_iff : table.algorithm ty = .custom ↔ table.base ty = .special := by
  rcases table.memoryAlgorithm_cases (table.sizeOf ty) (table.alignOf ty) with hvar | ⟨_, _, hfixed⟩
  · cases hbase : table.base ty <;> simp [algorithm, hbase, hvar]
  · cases hbase : table.base ty <;> simp [algorithm, hbase, hfixed]

theorem algorithm_eq_noEquality_iff :
    table.algorithm ty = .noEquality ↔ table.base ty = .noEquality := by
  rcases table.memoryAlgorithm_cases (table.sizeOf ty) (table.alignOf ty) with hvar | ⟨_, _, hfixed⟩
  · cases hbase : table.base ty <;> simp [algorithm, hbase, hvar]
  · cases hbase : table.base ty <;> simp [algorithm, hbase, hfixed]

theorem isSpecial_iff : table.isSpecial ty = true ↔ table.base ty = .special :=
  beq_iff_eq

/-- The base algorithm of a type depends on its kind and its layout. -/
theorem Lawful.base_eq (h : Lawful table) (hty : table.Has ty) :
    table.base ty = table.baseOf (table.kind ty) (table.entry ty).toLayout := by
  obtain ⟨e, hget⟩ := hty
  rw [base_of_get hget, kind_of_get hget, entry_of_get hget]
  exact (h.laidOut hget).base

namespace Lawful

variable (h : Lawful table) (hget : table.get ty = .ok e)
include h hget

theorem base_array {elem : TypeId} {len : Word} (hkind : e.kind = .array elem len) :
    e.base = arrayBase (table.base elem) len := by
  have hlaid := (h.laidOut hget).base
  rwa [hkind] at hlaid

theorem base_struct {name : Option String} {members : List Member}
    (hkind : e.kind = .struct name members) : e.base = table.structBase e.size e.fields := by
  have hlaid := (h.laidOut hget).base
  rwa [hkind] at hlaid

/-- The elements of an array with a function of its own are not plain memory. -/
theorem base_elem_ne {elem : TypeId} {len : Word} (hkind : e.kind = .array elem len)
    (hspecial : e.base = .special) : table.base elem ≠ .memory := by
  intro hmemory
  rw [h.base_array hget hkind, hmemory, arrayBase, if_pos (.inl rfl)] at hspecial
  cases hspecial

/-- The parts of a type with equality have equality. -/
theorem base_part_ne (hne : e.base ≠ .noEquality) {part : TypeId} (hpart : part ∈ e.parts) :
    table.Has part ∧ table.base part ≠ .noEquality := by
  rcases List.mem_append.1 hpart with helem | hfield
  · cases hkind : e.kind with
    | array elem len =>
      rw [hkind, Kind.elem?, Option.toList_some, List.mem_singleton] at helem
      subst helem
      refine ⟨h.elem_has hget hkind, fun hpart => hne ?_⟩
      rw [h.base_array hget hkind, hpart, arrayBase, if_pos (.inr rfl)]
    | _ =>
      rw [hkind] at helem
      cases helem
  · obtain ⟨field, hf, rfl⟩ := List.mem_map.1 hfield
    refine ⟨h.field_has hget hf, fun hpart => hne ?_⟩
    obtain ⟨name, members, hkind⟩ := h.isStruct_of_mem hget hf
    rw [h.base_struct hget hkind]
    unfold structBase
    split
    · next name ty offset hfields =>
      rw [hfields, List.mem_singleton] at hf
      rw [hf] at hpart
      exact hpart
    · have hany : (e.fields.any fun field => table.base field.ty == .noEquality) = true :=
        List.any_eq_true.2 ⟨field, hf, beq_iff_eq.2 hpart⟩
      rw [if_pos hany]

/-- Functions are generated for structs and arrays only. -/
theorem isAggregate_of_special (hspecial : e.base = .special) :
    e.flags.isAggregate = true ∧
      ((∃ elem len, e.kind = .array elem len) ∨ ∃ name members, e.kind = .struct name members) := by
  have hbase := (h.laidOut hget).base
  have hflags := (h.laidOut hget).flags
  rw [hspecial] at hbase
  cases hkind : e.kind with
  | array elem len =>
    rw [hkind] at hflags
    exact ⟨by rw [hflags]; rfl, .inl ⟨elem, len, rfl⟩⟩
  | struct name members =>
    rw [hkind] at hflags
    exact ⟨by rw [hflags]; rfl, .inr ⟨name, members, rfl⟩⟩
  | _ =>
    rw [hkind] at hbase
    cases hbase

end Lawful

theorem Lawful.requireCustom_eq_ok_iff (h : Lawful table) :
    Session.requireCustom table purpose ty = .ok () ↔ table.Has ty ∧ table.base ty = .special := by
  unfold Session.requireCustom
  constructor
  · intro hok
    obtain ⟨e, hget, hok⟩ := bind_eq_ok_iff.1 hok
    cases hget' : table.get ty with
    | error f =>
      rw [hget'] at hget
      cases hget
    | ok e' =>
      refine ⟨⟨e', hget'⟩, ?_⟩
      split at hok
      · obtain ⟨_, _, hok⟩ := bind_eq_ok_iff.1 hok
        cases hok
      · split at hok
        · obtain ⟨_, _, hok⟩ := bind_eq_ok_iff.1 hok
          cases hok
        · next hcustom => exact algorithm_eq_custom_iff.1 (Decidable.not_not.1 hcustom)
  · rintro ⟨⟨e, hget⟩, hspecial⟩
    have hbase := hspecial
    rw [base_of_get hget] at hbase
    rw [hget]
    change (if (!e.flags.isAggregate) = true then _ else _) = _
    rw [(h.isAggregate_of_special hget hbase).1, if_neg (by decide),
      if_neg (not_not_intro (algorithm_eq_custom_iff.2 hspecial))]
    rfl

/-! ### Symbols and callees -/

theorem Lawful.symbolOf_eq (h : Lawful table) (hty : table.Has ty) :
    table.symbolOf purpose ty = .ok (functionSymbol purpose (table.shape ty).text) := by
  rw [symbolOf, h.text_eq hty]
  rfl

theorem mem_specialFields (hget : table.get ty = .ok e) {field : Field} (hf : field ∈ e.fields)
    (hblank : field.isBlank = false) (hspecial : table.base field.ty = .special) :
    field.ty ∈ table.specialFields ty := by
  refine List.mem_map.2 ⟨field, List.mem_filter.2 ⟨?_, ?_⟩, rfl⟩
  · rwa [fields_of_get hget]
  · rw [hblank, isSpecial_iff.2 hspecial]
    rfl

theorem mem_ownCallee (hspecial : table.base ty = .special) : ty ∈ table.ownCallee ty := by
  rw [ownCallee, if_pos (isSpecial_iff.2 hspecial)]
  exact List.mem_singleton_self _

theorem mem_elementCallees_of_field {elem callee : TypeId} {name : Option String}
    {members : List Member} (hkind : table.kind elem = .struct name members)
    (hcallee : callee ∈ table.specialFields elem) : callee ∈ table.elementCallees elem := by
  simp only [elementCallees, hkind]
  exact List.mem_append_left _ hcallee

/-- The function of the elements is needed where they are not compared in passes. -/
theorem mem_elementCallees {elem : TypeId} (hwhole : ∀ name members,
      table.kind elem = .struct name members → table.comparesInPasses elem = false)
    (hspecial : table.base elem = .special) : elem ∈ table.elementCallees elem := by
  unfold elementCallees
  split
  · next name members hkind =>
    rw [hwhole name members hkind]
    exact List.mem_append_right _ (mem_ownCallee hspecial)
  · exact mem_ownCallee hspecial

theorem Lawful.of_mem_callees (h : Lawful table) {callee : TypeId} (hty : table.Has ty)
    (hcallee : callee ∈ table.callees purpose ty) :
    table.Has callee ∧ table.base callee = .special := by
  -- A callee is the type of a field of a struct, or the element type of an array itself.
  have hfields : ∀ {ty callee : TypeId}, callee ∈ table.specialFields ty →
      table.Has callee ∧ table.base callee = .special := by
    intro ty callee hcallee
    obtain ⟨field, hf, rfl⟩ := List.mem_map.1 hcallee
    obtain ⟨hf, hspecial⟩ := List.mem_filter.1 hf
    rw [Bool.and_eq_true] at hspecial
    refine ⟨?_, isSpecial_iff.1 hspecial.2⟩
    cases hget : table.get ty with
    | ok e => exact h.field_has hget (fields_of_get hget ▸ hf)
    | error f =>
      rw [fields, entry, hget] at hf
      cases hf
  have hown : ∀ {ty callee : TypeId}, table.Has ty → callee ∈ table.ownCallee ty →
      table.Has callee ∧ table.base callee = .special := by
    intro ty callee hty hcallee
    have heq := eq_of_mem_ownCallee hcallee
    subst heq
    unfold ownCallee at hcallee
    split at hcallee
    · next hspecial => exact ⟨hty, isSpecial_iff.1 hspecial⟩
    · cases hcallee
  have helem : ∀ {elem : TypeId} {len : Word}, table.kind ty = .array elem len →
      table.Has elem := by
    intro elem len hkind
    obtain ⟨e, hget⟩ := hty
    rw [kind_of_get hget] at hkind
    exact h.elem_has hget hkind
  unfold callees at hcallee
  split at hcallee
  · next hkind => exact hown (helem hkind) hcallee
  · next hkind =>
    unfold elementCallees at hcallee
    split at hcallee
    · rcases List.mem_append.1 hcallee with hcallee | hcallee
      · exact hfields hcallee
      · split at hcallee
        · cases hcallee
        · exact hown (helem hkind) hcallee
    · exact hown (helem hkind) hcallee
  · exact hfields hcallee
  · cases hcallee

/-! ### Code for parts -/

theorem Lawful.hashCallee_isOk (h : Lawful table) (hty : table.Has ty)
    (hmemory : table.base ty ≠ .memory) (hne : table.base ty ≠ .noEquality) :
    ∃ callee, table.hashCallee ty = .ok callee := by
  unfold TypeTable.hashCallee
  cases hbase : table.base ty with
  | memory => exact absurd hbase hmemory
  | noEquality => exact absurd hbase hne
  | special =>
    rw [h.symbolOf_eq hty]
    exact ⟨_, rfl⟩
  | _ => exact ⟨_, rfl⟩

theorem Lawful.elementEqual_isOk (h : Lawful table) (hty : table.Has ty)
    (hne : table.base ty ≠ .noEquality) (p q : Expr) : ∃ e, table.elementEqual ty p q = .ok e := by
  unfold elementEqual
  cases hbase : table.base ty with
  | noEquality => exact absurd hbase hne
  | special =>
    rw [h.symbolOf_eq hty]
    exact ⟨_, rfl⟩
  | _ => exact ⟨_, rfl⟩

section Fields

variable (h : Lawful table) (hget : table.get ty = .ok e) (hne : e.base ≠ .noEquality)
include h hget hne

theorem conditionExpr_isOk (p q : Expr) {c : Condition} (hc : c ∈ table.conditions ty) :
    ∃ e, c.expr table ty p q = .ok e := by
  obtain ⟨field, i, hi, _, hc⟩ := of_mem_conditions hget hc
  cases hc with
  | element =>
    obtain ⟨hhas, hbase⟩ := h.base_part_ne hget hne (Entry.field_mem_parts (List.mem_of_getElem? hi))
    exact h.elementEqual_isOk hhas hbase _ _
  | _ => exact ⟨_, rfl⟩

theorem conditionsThat_isOk (calls : Bool) (p q : Expr) :
    ∃ e, table.conditionsThat calls ty p q = .ok e := by
  obtain ⟨es, hes⟩ := mapM_isOk (l := (table.conditions ty).filter fun c => c.isCall table == calls)
    fun c hc => conditionExpr_isOk h hget hne p q (List.mem_filter.1 hc).1
  rw [conditionsThat, hes]
  exact ⟨_, rfl⟩

end Fields

/-! ### Whole functions -/

theorem Lawful.arrayChecks_isOk (h : Lawful table) {elem : TypeId} (helem : table.Has elem)
    (hne : table.base elem ≠ .noEquality) (len : Nat) :
    ∃ stmts, table.arrayChecks ty elem len = .ok stmts := by
  obtain ⟨e, hget⟩ := helem
  have hbase := hne
  rw [base_of_get hget] at hbase
  -- Elements that are compared one by one.
  have hone : ∃ stmts,
      checkAll 1 true len (atElements ty elem (table.elementEqual elem)) = .ok stmts :=
    checkAll_isOk (fun _ => h.elementEqual_isOk ⟨e, hget⟩ hne _ _) 1 true len
  unfold arrayChecks
  cases table.kind elem with
  | string =>
    obtain ⟨first, hfirst⟩ : ∃ stmts,
        checkAll 3 false len (atElements ty elem fun p q => return lengthsEqual p q) = .ok stmts :=
      checkAll_isOk (fun _ => ⟨_, rfl⟩) 3 false len
    obtain ⟨second, hsecond⟩ : ∃ stmts,
        checkAll 1 true len (atElements ty elem fun p q => return contentsEqual p q) = .ok stmts :=
      checkAll_isOk (fun _ => ⟨_, rfl⟩) 1 true len
    exact ⟨first ++ second, by simp only [hfirst, hsecond]; rfl⟩
  | float32 | float64 => exact checkAll_isOk (fun _ => ⟨_, rfl⟩) 2 true len
  | struct name members =>
    simp only
    split
    · obtain ⟨first, hfirst⟩ : ∃ stmts,
          checkAll 4 false len (atElements ty elem (table.conditionsThat false elem)) = .ok stmts :=
        checkAll_isOk (fun _ => conditionsThat_isOk h hget hbase false _ _) 4 false len
      obtain ⟨second, hsecond⟩ : ∃ stmts,
          checkAll 2 true len (atElements ty elem (table.conditionsThat true elem)) = .ok stmts :=
        checkAll_isOk (fun _ => conditionsThat_isOk h hget hbase true _ _) 2 true len
      exact ⟨first ++ second, by rw [hfirst, hsecond]; rfl⟩
    · exact hone
  | _ => exact hone

theorem Lawful.hashSteps_isOk (h : Lawful table) (hget : table.get ty = .ok e)
    (hspecial : e.base = .special) : ∃ steps, table.hashSteps ty = .ok steps := by
  have hne : e.base ≠ .noEquality := by simp [hspecial]
  unfold hashSteps
  rw [kind_of_get hget]
  rcases (h.isAggregate_of_special hget hspecial).2 with ⟨elem, len, hkind⟩ | ⟨name, members, hkind⟩
  · obtain ⟨hhas, hbase⟩ := h.base_part_ne hget hne (Entry.elem_mem_parts hkind)
    obtain ⟨callee, hcallee⟩ :=
      h.hashCallee_isOk hhas (h.base_elem_ne hget hkind hspecial) hbase
    simp only [hkind, hashElements, hcallee]
    exact ⟨_, rfl⟩
  · simp only [hkind]
    refine mapM_isOk fun stop hstop => ?_
    have hmem := List.fst_mem_of_mem_zipIdx (mem_of_mem_leaders hstop).1
    rw [fields_of_get hget] at hmem
    obtain ⟨hhas, hbase⟩ := h.base_part_ne hget hne (Entry.field_mem_parts hmem)
    simp only [hashField]
    split
    · exact ⟨_, rfl⟩
    · next hmemory =>
      obtain ⟨callee, hcallee⟩ :=
        h.hashCallee_isOk hhas (fun hbase => hmemory (beq_iff_eq.2 hbase)) hbase
      rw [hcallee]
      exact ⟨_, rfl⟩

theorem Lawful.equalityChecks_isOk (h : Lawful table) (hget : table.get ty = .ok e)
    (hspecial : e.base = .special) : ∃ checks, table.equalityChecks ty = .ok checks := by
  have hne : e.base ≠ .noEquality := by simp [hspecial]
  unfold equalityChecks
  rw [kind_of_get hget]
  rcases (h.isAggregate_of_special hget hspecial).2 with ⟨elem, len, hkind⟩ | ⟨name, members, hkind⟩
  · obtain ⟨hhas, hbase⟩ := h.base_part_ne hget hne (Entry.elem_mem_parts hkind)
    simp only [hkind]
    exact h.arrayChecks_isOk hhas hbase len.toNat
  · obtain ⟨es, hes⟩ := mapM_isOk (l := table.conditions ty) fun c hc =>
      conditionExpr_isOk h hget hne (.deref (.var EqualityCode.p) ty)
        (.deref (.var EqualityCode.q) ty) hc
    simp only [hkind, structConditions, hes]
    exact ⟨_, rfl⟩

/-- The functions of every type that functions are generated for can be synthesized. -/
theorem Lawful.synthesize_isOk (h : Lawful table) (hty : table.Has ty)
    (hspecial : table.base ty = .special) (purpose : Purpose) :
    ∃ f, table.synthesize purpose ty = .ok f := by
  obtain ⟨e, hget⟩ := hty
  rw [base_of_get hget] at hspecial
  cases purpose with
  | hash =>
    obtain ⟨steps, hsteps⟩ := h.hashSteps_isOk hget hspecial
    rw [synthesize, hashFunction, h.symbolOf_eq ⟨e, hget⟩, hsteps]
    exact ⟨_, rfl⟩
  | equality =>
    obtain ⟨checks, hchecks⟩ := h.equalityChecks_isOk hget hspecial
    rw [synthesize, equalityFunction, h.symbolOf_eq ⟨e, hget⟩, hchecks]
    exact ⟨_, rfl⟩

end TypeTable

end HashEq

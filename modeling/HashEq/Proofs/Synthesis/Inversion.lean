import HashEq.Proofs.TypeTable.Extends
import HashEq.Synthesis.Equality

/-!
# What synthesis puts together

The conditions on two structs belong to fields at which comparing stops, and the checks
of an array are made in one pass or in two. Each choice that synthesis makes is told here
once; what is proved about conditions and checks is proved case by case from this.

* `ElementEqual`, `elementEqual_cases`: the condition on two elements;
* `FieldCondition`, `of_mem_conditions`: the conditions of a struct;
* `ArrayChecks`, `arrayChecks_cases`: the checks of an array.
-/

namespace HashEq

namespace TypeTable

variable {table : TypeTable} {ty : TypeId} {e : Entry} {field : Field} {i : Nat}

/-! ### The condition on two elements -/

/-- The condition on two elements: on the values in place, on the lengths and on the contents of
    strings, or a call. -/
inductive ElementEqual (table : TypeTable) (ty : TypeId) (P Q : Expr) : Expr → Prop
  | inPlace : table.base ty ∈ [.memory, .float32, .float64, .complex64, .complex128] →
      ElementEqual table ty P Q (.eq P Q)
  | strings : table.base ty = .string →
      ElementEqual table ty P Q (.and (some (lengthsEqual P Q)) (contentsEqual P Q))
  | interface : table.base ty = .interface →
      ElementEqual table ty P Q (.call (.primitive ⟨.equality, .interface⟩) [.addr P, .addr Q])
  | nilInterface : table.base ty = .nilInterface →
      ElementEqual table ty P Q (.call (.primitive ⟨.equality, .nilInterface⟩) [.addr P, .addr Q])
  | special {symbol : String} : table.base ty = .special →
      table.symbolOf .equality ty = .ok symbol →
      ElementEqual table ty P Q (.call (.generated symbol) [.addr P, .addr Q])

theorem elementEqual_cases {P Q code : Expr} (hcode : table.elementEqual ty P Q = .ok code) :
    ElementEqual table ty P Q code := by
  unfold elementEqual at hcode
  cases hbase : table.base ty with
  | memory | float32 | float64 | complex64 | complex128 =>
    rw [hbase] at hcode
    cases hcode
    exact .inPlace (by rw [hbase]; decide)
  | string =>
    rw [hbase] at hcode
    cases hcode
    exact .strings hbase
  | interface =>
    rw [hbase] at hcode
    cases hcode
    exact .interface hbase
  | nilInterface =>
    rw [hbase] at hcode
    cases hcode
    exact .nilInterface hbase
  | special =>
    rw [hbase] at hcode
    obtain ⟨symbol, hsymbol, hcode⟩ := bind_eq_ok_iff.1 hcode
    cases hcode
    exact .special hbase hsymbol
  | noEquality =>
    rw [hbase] at hcode
    obtain ⟨_, _, hcode⟩ := bind_eq_ok_iff.1 hcode
    cases hcode

/-! ### The conditions of a struct -/

/-- The conditions at a stop: on each field of a run of plain memory or on the run as one block, on
    the lengths and on the contents of strings, or on any other field. -/
inductive FieldCondition (table : TypeTable) (ty : TypeId) (field : Field) (i : Nat) :
    Condition → Prop
  | same {j : Nat} : table.isMemory field.ty = true → i ≤ j → j < (table.fieldCost ty i).next →
      FieldCondition table ty field i (.same j)
  | block : table.isMemory field.ty = true →
      FieldCondition table ty field i (.block i (table.fieldCost ty i).size)
  | lengths : table.isMemory field.ty = false → table.isString field.ty = true →
      FieldCondition table ty field i (.lengths i)
  | contents : table.isMemory field.ty = false → table.isString field.ty = true →
      FieldCondition table ty field i (.contents i)
  | element : table.isMemory field.ty = false → table.isString field.ty = false →
      FieldCondition table ty field i (.element i field.ty)

theorem of_mem_fieldConditions {c : Condition} (hc : c ∈ table.fieldConditions ty field i) :
    FieldCondition table ty field i c := by
  simp only [fieldConditions] at hc
  split at hc
  · next hmemory =>
    split at hc
    · obtain ⟨j, hj, rfl⟩ := List.mem_map.1 hc
      have hrange := List.mem_range'_1.1 hj
      exact .same hmemory hrange.1 (by omega)
    · cases List.mem_singleton.1 hc
      exact .block hmemory
  · next hmemory =>
    have hmemory := Bool.eq_false_iff.2 hmemory
    split at hc
    · next hstring =>
      rcases List.mem_cons.1 hc with rfl | hc
      · exact .lengths hmemory hstring
      · cases List.mem_singleton.1 hc
        exact .contents hmemory hstring
    · next hstring =>
      cases List.mem_singleton.1 hc
      exact .element hmemory (Bool.eq_false_iff.2 hstring)

theorem of_mem_comparedFields (hget : table.get ty = .ok e) {stop : Field × Nat}
    (hstop : stop ∈ table.comparedFields ty) :
    e.fields[stop.2]? = some stop.1 ∧ stop.1.isBlank = false := by
  obtain ⟨hmem, hblank⟩ := mem_of_mem_leaders hstop
  rw [fields_of_get hget] at hmem
  exact ⟨List.mem_zipIdx_iff_getElem?.1 hmem, hblank⟩

/-- However the conditions of a struct are arranged, each belongs to a field that is not blank. -/
theorem of_mem_conditions (hget : table.get ty = .ok e) {c : Condition}
    (hc : c ∈ table.conditions ty) : ∃ field i,
      e.fields[i]? = some field ∧ field.isBlank = false ∧ FieldCondition table ty field i c := by
  rcases Condition.mem_arrange.1 hc with hc | ⟨group, hgroup, hc⟩
  · cases hc
  · obtain ⟨⟨field, i⟩, hstop, rfl⟩ := List.mem_map.1 hgroup
    obtain ⟨hi, hblank⟩ := of_mem_comparedFields hget hstop
    exact ⟨field, i, hi, hblank, of_mem_fieldConditions hc⟩

/-! ### The checks of an array -/

/-- The ways in which an array is compared: strings, and structs that allow it, in two passes, and
    all other elements in one. -/
inductive ArrayChecks (table : TypeTable) (ty elem : TypeId) (len : Nat) : List Stmt → Prop
  | strings {first second : List Stmt} : table.kind elem = .string →
      checkAll 3 false len (atElements ty elem fun p q => return lengthsEqual p q) = .ok first →
      checkAll 1 true len (atElements ty elem fun p q => return contentsEqual p q) = .ok second →
      ArrayChecks table ty elem len (first ++ second)
  | floats {stmts : List Stmt} : table.kind elem = .float32 ∨ table.kind elem = .float64 →
      checkAll 2 true len (atElements ty elem fun p q => return .eq p q) = .ok stmts →
      ArrayChecks table ty elem len stmts
  | structs {name : Option String} {members : List Member} {first second : List Stmt} :
      table.kind elem = .struct name members → table.comparesInPasses elem = true →
      checkAll 4 false len (atElements ty elem (table.conditionsThat false elem)) = .ok first →
      checkAll 2 true len (atElements ty elem (table.conditionsThat true elem)) = .ok second →
      ArrayChecks table ty elem len (first ++ second)
  | elements {stmts : List Stmt} : (∀ name members, table.kind elem = .struct name members →
        table.comparesInPasses elem = false) →
      checkAll 1 true len (atElements ty elem (table.elementEqual elem)) = .ok stmts →
      ArrayChecks table ty elem len stmts

theorem arrayChecks_cases {elem : TypeId} {len : Nat} {stmts : List Stmt}
    (hstmts : table.arrayChecks ty elem len = .ok stmts) : ArrayChecks table ty elem len stmts := by
  unfold arrayChecks at hstmts
  split at hstmts
  · next hkind =>
    obtain ⟨first, hfirst, hstmts⟩ := bind_eq_ok_iff.1 hstmts
    obtain ⟨second, hsecond, hstmts⟩ := bind_eq_ok_iff.1 hstmts
    cases hstmts
    exact .strings hkind hfirst hsecond
  · next hkind => exact .floats (.inl hkind) hstmts
  · next hkind => exact .floats (.inr hkind) hstmts
  · next hkind =>
    split at hstmts
    · next hpasses =>
      obtain ⟨first, hfirst, hstmts⟩ := bind_eq_ok_iff.1 hstmts
      obtain ⟨second, hsecond, hstmts⟩ := bind_eq_ok_iff.1 hstmts
      cases hstmts
      exact .structs hkind hpasses hfirst hsecond
    · next hpasses => exact .elements (fun _ _ _ => Bool.eq_false_iff.2 hpasses) hstmts
  · next hstruct => exact .elements (fun name members hkind => absurd hkind (hstruct name members)) hstmts

end TypeTable

end HashEq

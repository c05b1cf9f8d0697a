import HashEq.Proofs.Machine.EqualityCode
import Mathlib.Data.List.Forall2
import Mathlib.Data.List.Nodup

/-!
# The order of conditions

The conditions of a struct are those of its fields, rearranged: calls go behind what is
cheaper, but nothing is moved across a field whose comparison can panic. Between two
such fields the conditions that are no calls come first, then the calls, both in the
order of the fields.

Every field with a name is compared by one condition, or by the two for a string, the
one for the lengths first. Some conditions compare several fields at once, as one block
of memory.

* `Condition.arrange_append_pinned`: nothing is moved across what can panic;
* `Condition.filter_arrange`: what belongs to one group is arranged by itself;
* `conditions_arranged`: all of this for the conditions of a struct.
-/

namespace HashEq

namespace Condition

variable {isCall p : Condition → Bool} {pending own l : List Condition}
  {before groups after : List (Bool × List Condition)}

theorem callsLast_perm : (callsLast isCall l).Perm l :=
  List.perm_append_comm.trans (List.filter_append_perm isCall l)

/-- Conditions of one sort are arranged by themselves. -/
theorem filter_callsLast_eq : (callsLast isCall l).filter p = callsLast isCall (l.filter p) := by
  simp only [callsLast, List.filter_append, List.filter_filter, Bool.and_comm]

theorem arrange_perm :
    (arrange isCall pending groups).Perm (pending ++ groups.flatMap (·.2)) := by
  fun_induction arrange isCall pending groups with
  | case1 pending => simpa using callsLast_perm
  | case2 pending conditions rest ih => simpa using ih
  | case3 pending conditions rest ih =>
    rw [List.flatMap_cons, ← List.append_assoc]
    exact (callsLast_perm.append callsLast_perm).append ih

/-- Nothing is moved across the conditions of a field that can panic. -/
theorem arrange_append_pinned : arrange isCall pending (before ++ (true, own) :: after) =
    arrange isCall pending before ++ callsLast isCall own ++ arrange isCall [] after := by
  fun_induction arrange isCall pending before with
  | case1 pending => rfl
  | case2 pending conditions rest ih => exact ih
  | case3 pending conditions rest ih =>
    rw [List.cons_append, arrange, ih]
    simp only [List.append_assoc]

theorem arrange_append_of_last
    (h : before = [] ∨ ∃ init own, before = init ++ [(true, own)]) :
    arrange isCall [] (before ++ after) = arrange isCall [] before ++ arrange isCall [] after := by
  rcases h with rfl | ⟨init, own, rfl⟩
  · rfl
  · rw [List.append_assoc, List.singleton_append, arrange_append_pinned, arrange_append_pinned]
    simp [arrange, callsLast]

theorem arrange_append_of_head (h : after = [] ∨ ∃ own rest, after = (true, own) :: rest) :
    arrange isCall pending (before ++ after) =
      arrange isCall pending before ++ arrange isCall [] after := by
  rcases h with rfl | ⟨own, rest, rfl⟩
  · simp [arrange, callsLast]
  · rw [arrange_append_pinned, arrange]
    simp [callsLast]

theorem filter_arrange_of_groups (h : ∀ group ∈ groups, ∀ c ∈ group.2, p c = false) :
    (arrange isCall pending groups).filter p = callsLast isCall (pending.filter p) := by
  fun_induction arrange isCall pending groups with
  | case1 pending => exact filter_callsLast_eq
  | case2 pending conditions rest ih =>
    have hnone : conditions.filter p = [] :=
      List.filter_eq_nil_iff.2 fun c hc => by simp [h _ List.mem_cons_self c hc]
    rw [ih fun group hgroup => h group (List.mem_cons_of_mem _ hgroup), List.filter_append, hnone,
      List.append_nil]
  | case3 pending conditions rest ih =>
    have hnone : conditions.filter p = [] :=
      List.filter_eq_nil_iff.2 fun c hc => by simp [h _ List.mem_cons_self c hc]
    rw [List.filter_append, List.filter_append, filter_callsLast_eq, filter_callsLast_eq, hnone,
      ih fun group hgroup => h group (List.mem_cons_of_mem _ hgroup)]
    simp [callsLast]

/-- Conditions that all belong to one group are arranged by themselves. -/
theorem filter_arrange {group : Bool × List Condition} (hpending : ∀ c ∈ pending, p c = false)
    (hbefore : ∀ group ∈ before, ∀ c ∈ group.2, p c = false)
    (hafter : ∀ group ∈ after, ∀ c ∈ group.2, p c = false) :
    (arrange isCall pending (before ++ group :: after)).filter p =
      callsLast isCall (group.2.filter p) := by
  have hnil : ∀ {l : List Condition}, (∀ c ∈ l, p c = false) → l.filter p = [] := fun hl =>
    List.filter_eq_nil_iff.2 fun c hc => by simp [hl c hc]
  fun_induction arrange isCall pending before with
  | case1 pending =>
    obtain ⟨canPanic, own⟩ := group
    cases canPanic with
    | false =>
      rw [List.nil_append, arrange, filter_arrange_of_groups hafter, List.filter_append,
        hnil hpending, List.nil_append]
    | true =>
      rw [List.nil_append, arrange, List.filter_append, List.filter_append, filter_callsLast_eq,
        filter_callsLast_eq, hnil hpending, filter_arrange_of_groups hafter]
      simp [callsLast]
  | case2 pending conditions rest ih =>
    refine ih (List.forall_mem_append.2 ⟨hpending, hbefore _ List.mem_cons_self⟩) ?_
    exact fun group hgroup => hbefore group (List.mem_cons_of_mem _ hgroup)
  | case3 pending conditions rest ih =>
    rw [List.cons_append, arrange, List.filter_append, List.filter_append, filter_callsLast_eq,
      filter_callsLast_eq, hnil hpending, hnil (hbefore _ List.mem_cons_self),
      ih (List.forall_mem_nil _) fun group hgroup => hbefore group (List.mem_cons_of_mem _ hgroup)]
    simp [callsLast]

end Condition

/-- The fields that a condition compares. -/
def Condition.fields (table : TypeTable) (ty : TypeId) : Condition → List Nat
  | same i | lengths i | contents i | element i _ => [i]
  | block i _ => List.range' i ((table.fieldCost ty i).next - i)

namespace TypeTable

/-- Field `g` has a name, and comparing it can panic. -/
def Pins (table : TypeTable) (ty : TypeId) (g : Nat) : Prop :=
  ∃ field, (table.fields ty)[g]? = some field ∧ field.isBlank = false ∧
    table.isMemory field.ty = false ∧ table.canPanic field.ty = true

/-- The conditions of a struct field by field. -/
def declaredConditions (table : TypeTable) (ty : TypeId) : List Condition :=
  (table.comparedFields ty).flatMap fun (field, i) => table.fieldConditions ty field i

/-- Those that compare fields from field `lo` up to field `hi`. -/
def conditionsWithin (table : TypeTable) (ty : TypeId) (lo hi : Nat) : List Condition :=
  (table.declaredConditions ty).filter fun c => (c.fields table ty).all fun j => lo ≤ j && j < hi

/-- Those that compare field `j`, in the order of evaluation. -/
def conditionsOn (table : TypeTable) (ty : TypeId) (j : Nat) : List Condition :=
  (table.conditions ty).filter fun c => (c.fields table ty).contains j

variable {table : TypeTable} {ty : TypeId} {e : Entry} {field : Field} {i j g lo hi : Nat}

/-! ### The fields that stops cover -/

section Stops

variable (h : Lawful table) (hget : table.get ty = .ok e)
include h hget

/-- The conditions of a stop compare the fields that it covers. -/
theorem fields_of_mem_fieldConditions (hi : e.fields[i]? = some field) (hblank : field.isBlank = false)
    {c : Condition} (hc : c ∈ table.fieldConditions ty field i) :
    c.fields table ty ≠ [] ∧ ∀ j ∈ c.fields table ty, i ≤ j ∧ j < table.comparedUpTo ty i := by
  have hother : table.isMemory field.ty = false → table.comparedUpTo ty i = i + 1 := by
    intro hmemory
    simp only [comparedUpTo, fields_of_get hget, hi, hmemory, Bool.false_eq_true, if_false]
  have hplain : table.isMemory field.ty = true →
      table.comparedUpTo ty i = (table.fieldCost ty i).next := by
    intro hmemory
    simp only [comparedUpTo, fields_of_get hget, hi, hmemory, if_true]
  cases of_mem_fieldConditions hc with
  | same hmemory hle hlt =>
    rw [hplain hmemory]
    exact ⟨List.cons_ne_nil _ _, List.forall_mem_singleton.2 ⟨hle, hlt⟩⟩
  | block hmemory =>
    obtain ⟨hlt, _⟩ := h.run_compared hget hi hblank (beq_iff_eq.1 hmemory)
    rw [hplain hmemory]
    refine ⟨?_, fun j hj => ?_⟩
    · rw [Condition.fields, Ne, List.range'_eq_nil_iff]
      omega
    · have hrange := List.mem_range'_1.1 hj
      exact ⟨hrange.1, by omega⟩
  | lengths hmemory | contents hmemory | element hmemory =>
    rw [hother hmemory]
    exact ⟨List.cons_ne_nil _ _, List.forall_mem_singleton.2 ⟨Nat.le_refl i, Nat.lt_succ_self i⟩⟩

theorem lt_comparedUpTo : ∀ stop ∈ (table.fields ty).zipIdx, stop.1.isBlank = false →
    stop.2 < table.comparedUpTo ty stop.2 := by
  rintro ⟨field, i⟩ hstop hblank
  rw [fields_of_get hget, List.mem_zipIdx_iff_getElem?] at hstop
  exact (h.covered_compared hget hstop hblank).1

/-- The stops are in order, and each covers nothing that a later one does. -/
theorem pairwise_comparedFields :
    (table.comparedFields ty).Pairwise fun a b => table.comparedUpTo ty a.2 ≤ b.2 :=
  pairwise_leaders (lt_comparedUpTo h hget)

/-- Every field with a name is covered by a stop. -/
theorem exists_comparedField (hj : e.fields[j]? = some field) (hblank : field.isBlank = false) :
    ∃ stop ∈ table.comparedFields ty, stop.2 ≤ j ∧ j < table.comparedUpTo ty stop.2 := by
  rw [← fields_of_get hget] at hj
  exact exists_leader_zipIdx (lt_comparedUpTo h hget) hj hblank

/-- A field that is no plain memory is a stop. -/
theorem mem_comparedFields (hj : e.fields[j]? = some field) (hblank : field.isBlank = false)
    (hmemory : table.isMemory field.ty = false) : (field, j) ∈ table.comparedFields ty := by
  obtain ⟨⟨first, i⟩, hstop, hle, hlt⟩ := exists_comparedField h hget hj hblank
  obtain ⟨hi, hfirst⟩ := of_mem_comparedFields hget hstop
  simp only [comparedUpTo, fields_of_get hget, hi] at hlt
  split at hlt
  · next hmemory' =>
    -- A stop at plain memory covers plain memory only.
    obtain ⟨_, _, hrun⟩ := h.run_compared hget hi hfirst (beq_iff_eq.1 hmemory')
    have hplain := (hrun.plain field (mem_covered hj hle hlt)).2.2
    rw [isMemory, hplain] at hmemory
    cases hmemory
  · obtain rfl : i = j := by omega
    rw [hi] at hj
    cases hj
    exact hstop

omit h in
theorem pins_iff : table.Pins ty g ↔ ∃ field, e.fields[g]? = some field ∧ field.isBlank = false ∧
    table.fieldCanPanic field = true := by
  simp only [Pins, fieldCanPanic, fields_of_get hget, Bool.and_eq_true, Bool.not_eq_true']

/-- A field that can panic is a stop, and compared by one condition. -/
theorem Pins.stop (hpins : table.Pins ty g) :
    ∃ field, e.fields[g]? = some field ∧ (field, g) ∈ table.comparedFields ty ∧
      table.fieldCanPanic field = true ∧ table.comparedUpTo ty g = g + 1 ∧
      table.fieldConditions ty field g = [.element g field.ty] := by
  obtain ⟨field, hg, hblank, hmemory, hpanic⟩ := hpins
  rw [fields_of_get hget] at hg
  have hstring : table.isString field.ty = false := by
    rw [← Bool.not_eq_true]
    intro hstring
    obtain ⟨e', hget'⟩ := h.field_has hget (List.mem_of_getElem? hg)
    rw [canPanic_of_isString h hget' hstring] at hpanic
    cases hpanic
  refine ⟨field, hg, mem_comparedFields h hget hg hblank hmemory, ?_, ?_, ?_⟩
  · rw [fieldCanPanic, hmemory, hpanic]
    rfl
  · simp only [comparedUpTo, fields_of_get hget, hg, hmemory, Bool.false_eq_true, if_false]
  · simp only [fieldConditions, hmemory, hstring, Bool.false_eq_true, if_false]

/-! ### Where conditions go -/

/-- The stops before a field that can panic, and those behind it. -/
theorem Pins.split (hpins : table.Pins ty g) {skipped stops : List (Field × Nat)}
    (hstops : table.comparedFields ty = skipped ++ stops)
    (hskipped : ∀ stop ∈ skipped, table.comparedUpTo ty stop.2 ≤ g) :
    ∃ field before after, stops = before ++ (field, g) :: after ∧
      table.fieldCanPanic field = true ∧ table.fieldConditions ty field g = [.element g field.ty] ∧
      (∀ stop ∈ before, table.comparedUpTo ty stop.2 ≤ g) ∧ ∀ stop ∈ after, g + 1 ≤ stop.2 := by
  obtain ⟨field, _, hstop, hpanic, hupTo, hconditions⟩ := hpins.stop h hget
  -- The stops that are skipped cover fields before it.
  have hmem : (field, g) ∈ stops := by
    rw [hstops] at hstop
    refine (List.mem_append.1 hstop).resolve_left fun hmem => ?_
    have hle := hskipped _ hmem
    rw [hupTo] at hle
    omega
  obtain ⟨before, after, rfl⟩ := List.append_of_mem hmem
  have hpairwise := pairwise_comparedFields h hget
  rw [hstops] at hpairwise
  have hinner := (List.pairwise_append.1 hpairwise).2.1
  obtain ⟨_, hcons, hcross⟩ := List.pairwise_append.1 hinner
  refine ⟨field, before, after, rfl, hpanic, hconditions,
    fun stop hs => hcross stop hs _ List.mem_cons_self, fun stop hs => ?_⟩
  have hle := (List.pairwise_cons.1 hcons).1 stop hs
  rwa [hupTo] at hle

/-- What a stop contributes to the conditions. -/
def group (table : TypeTable) (ty : TypeId) (stop : Field × Nat) : Bool × List Condition :=
  (table.fieldCanPanic stop.1, table.fieldConditions ty stop.1 stop.2)

/-- The conditions of some stops, in the order of evaluation. -/
def arranged (table : TypeTable) (ty : TypeId) (stops : List (Field × Nat)) : List Condition :=
  Condition.arrange (Condition.isCall table) [] (stops.map (table.group ty))

omit h hget in
theorem conditions_eq : table.conditions ty = table.arranged ty (table.comparedFields ty) :=
  rfl

theorem fields_of_mem_arranged {stops : List (Field × Nat)}
    (hstops : ∀ stop ∈ stops, stop ∈ table.comparedFields ty) {c : Condition}
    (hc : c ∈ table.arranged ty stops) :
    ∃ stop ∈ stops, c.fields table ty ≠ [] ∧
      ∀ j ∈ c.fields table ty, stop.2 ≤ j ∧ j < table.comparedUpTo ty stop.2 := by
  rcases Condition.mem_arrange.1 hc with hc | ⟨_, hgroup, hc⟩
  · cases hc
  · obtain ⟨stop, hstop, rfl⟩ := List.mem_map.1 hgroup
    obtain ⟨hi, hblank⟩ := of_mem_comparedFields hget (hstops stop hstop)
    exact ⟨stop, hstop, fields_of_mem_fieldConditions h hget hi hblank hc⟩

/-- The conditions of the fields before one that can panic stay before its condition, and those of
    the fields behind it stay behind. -/
theorem conditions_pinned (hpins : table.Pins ty g) : ∃ field before after,
    (table.fields ty)[g]? = some field ∧
    table.conditions ty = before ++ .element g field.ty :: after ∧
    (∀ c ∈ before, ∀ j ∈ c.fields table ty, j < g) ∧
    ∀ c ∈ after, ∀ j ∈ c.fields table ty, g < j := by
  obtain ⟨field, before, after, hstops, hpanic, hconditions, hbefore, hafter⟩ :=
    hpins.split h hget (List.nil_append _).symm nofun
  have hmem : ∀ stop ∈ before ++ (field, g) :: after, stop ∈ table.comparedFields ty :=
    fun stop hs => hstops ▸ hs
  have hg := (of_mem_comparedFields hget (hmem (field, g) (by simp))).1
  refine ⟨field, table.arranged ty before, table.arranged ty after,
    by rw [fields_of_get hget]; exact hg, ?_, fun c hc j hj => ?_, fun c hc j hj => ?_⟩
  · rw [conditions_eq, hstops, arranged, List.map_append, List.map_cons, group, hpanic, hconditions,
      Condition.arrange_append_pinned, Condition.callsLast_singleton, List.append_assoc,
      List.singleton_append]
    rfl
  · obtain ⟨stop, hstop, _, hfields⟩ := fields_of_mem_arranged h hget
      (fun stop hs => hmem stop (List.mem_append_left _ hs)) hc
    exact Nat.lt_of_lt_of_le (hfields j hj).2 (hbefore stop hstop)
  · obtain ⟨stop, hstop, _, hfields⟩ := fields_of_mem_arranged h hget
      (fun stop hs => hmem stop (List.mem_append_right _ (List.mem_cons_of_mem _ hs))) hc
    exact Nat.lt_of_lt_of_le (hafter stop hstop) (hfields j hj).1

/-- The stops before field `lo`, if it follows one that can panic or is the first. -/
theorem exists_stops_before (hlo : lo = 0 ∨ ∃ g, lo = g + 1 ∧ table.Pins ty g) :
    ∃ first rest, table.comparedFields ty = first ++ rest ∧
      (first.map (table.group ty) = [] ∨
        ∃ init own, first.map (table.group ty) = init ++ [(true, own)]) ∧
      (∀ stop ∈ first, table.comparedUpTo ty stop.2 ≤ lo) ∧ ∀ stop ∈ rest, lo ≤ stop.2 := by
  rcases hlo with rfl | ⟨g, rfl, hpins⟩
  · exact ⟨[], _, rfl, .inl rfl, nofun, fun stop _ => Nat.zero_le _⟩
  · obtain ⟨field, before, after, hstops, hpanic, _, hbefore, hafter⟩ :=
      hpins.split h hget (List.nil_append _).symm nofun
    obtain ⟨_, _, _, _, hupTo, _⟩ := hpins.stop h hget
    refine ⟨before ++ [(field, g)], after, by rw [hstops, List.append_assoc]; rfl,
      .inr ⟨before.map (table.group ty), table.fieldConditions ty field g, ?_⟩, ?_, hafter⟩
    · rw [List.map_append, List.map_singleton, group, hpanic]
    · refine List.forall_mem_append.2 ⟨fun stop hs => Nat.le_succ_of_le (hbefore stop hs), ?_⟩
      exact List.forall_mem_singleton.2 (Nat.le_of_eq hupTo)

/-- The stops from field `hi` on, if it can panic or is behind the last one. -/
theorem exists_stops_behind (hhi : hi = (table.fields ty).length ∨ table.Pins ty hi) (hle : lo ≤ hi)
    {first rest : List (Field × Nat)} (hstops : table.comparedFields ty = first ++ rest)
    (hfirst : ∀ stop ∈ first, table.comparedUpTo ty stop.2 ≤ lo) :
    ∃ middle last, rest = middle ++ last ∧
      (last.map (table.group ty) = [] ∨
        ∃ own tail, last.map (table.group ty) = (true, own) :: tail) ∧
      (∀ stop ∈ middle, table.comparedUpTo ty stop.2 ≤ hi) ∧ ∀ stop ∈ last, hi ≤ stop.2 := by
  rcases hhi with rfl | hpins
  · refine ⟨rest, [], (List.append_nil _).symm, .inl rfl, fun stop hs => ?_, nofun⟩
    obtain ⟨hi, hblank⟩ := of_mem_comparedFields hget (hstops ▸ List.mem_append_right first hs)
    have hlt := (List.getElem?_eq_some_iff.1 hi).1
    simp only [comparedUpTo, fields_of_get hget, hi]
    split
    · next hmemory => exact (h.run_compared hget hi hblank (beq_iff_eq.1 hmemory)).2.1
    · exact hlt
  · obtain ⟨field, before, after, rfl, hpanic, _, hbefore, hafter⟩ :=
      hpins.split h hget hstops fun stop hs => Nat.le_trans (hfirst stop hs) hle
    refine ⟨before, (field, hi) :: after, rfl,
      .inr ⟨table.fieldConditions ty field hi, after.map (table.group ty), ?_⟩, hbefore, ?_⟩
    · rw [List.map_cons, group, hpanic]
    · exact List.forall_mem_cons.2 ⟨Nat.le_refl hi, fun stop hs => Nat.le_of_succ_le (hafter stop hs)⟩

/-- Of the conditions field by field, those of the stops between two fields compare fields between
    the two. -/
theorem conditionsWithin_eq {first middle last : List (Field × Nat)}
    (hstops : table.comparedFields ty = first ++ (middle ++ last))
    (hfirst : ∀ stop ∈ first, table.comparedUpTo ty stop.2 ≤ lo)
    (hmiddle : ∀ stop ∈ middle, lo ≤ stop.2 ∧ table.comparedUpTo ty stop.2 ≤ hi)
    (hlast : ∀ stop ∈ last, hi ≤ stop.2) :
    table.conditionsWithin ty lo hi = (middle.map (table.group ty)).flatMap (·.2) := by
  have hfields : ∀ stop ∈ first ++ (middle ++ last), ∀ c ∈ table.fieldConditions ty stop.1 stop.2,
      c.fields table ty ≠ [] ∧ ∀ j ∈ c.fields table ty,
        stop.2 ≤ j ∧ j < table.comparedUpTo ty stop.2 := fun stop hs c hc => by
    obtain ⟨hi, hblank⟩ := of_mem_comparedFields hget (hstops ▸ hs)
    exact fields_of_mem_fieldConditions h hget hi hblank hc
  -- A condition compares some field, so those of the other stops are left out.
  have hnil : ∀ stops : List (Field × Nat),
      (∀ stop ∈ stops, stop ∈ first ++ (middle ++ last) ∧
        (table.comparedUpTo ty stop.2 ≤ lo ∨ hi ≤ stop.2)) →
      (stops.flatMap fun (field, i) => table.fieldConditions ty field i).filter
        (fun c => (c.fields table ty).all fun j => lo ≤ j && j < hi) = [] := by
    intro stops hout
    refine List.filter_eq_nil_iff.2 fun c hc hall => ?_
    obtain ⟨stop, hs, hc⟩ := List.mem_flatMap.1 hc
    obtain ⟨hne, hfields⟩ := hfields stop (hout stop hs).1 c hc
    obtain ⟨j, hj⟩ := List.exists_mem_of_ne_nil _ hne
    have hbounds := hfields j hj
    have hwithin := List.all_eq_true.1 hall j hj
    rw [Bool.and_eq_true, decide_eq_true_iff, decide_eq_true_iff] at hwithin
    have hout := (hout stop hs).2
    omega
  have hself : (middle.flatMap fun (field, i) => table.fieldConditions ty field i).filter
        (fun c => (c.fields table ty).all fun j => lo ≤ j && j < hi) =
      middle.flatMap fun (field, i) => table.fieldConditions ty field i := by
    refine List.filter_eq_self.2 fun c hc => List.all_eq_true.2 fun j hj => ?_
    obtain ⟨stop, hs, hc⟩ := List.mem_flatMap.1 hc
    have hbounds := (hfields stop (by simp [hs]) c hc).2 j hj
    have hbetween := hmiddle stop hs
    rw [Bool.and_eq_true, decide_eq_true_iff, decide_eq_true_iff]
    omega
  rw [conditionsWithin, declaredConditions, hstops, List.flatMap_append, List.flatMap_append,
    List.filter_append, List.filter_append, hself,
    hnil first fun stop hs => ⟨by simp [hs], .inl (hfirst stop hs)⟩,
    hnil last fun stop hs => ⟨by simp [hs], .inr (hlast stop hs)⟩, List.append_nil,
    List.nil_append, List.flatMap_map]
  rfl

/-- Between two fields that can panic, or before the first or behind the last one, calls go last and
    nothing else is moved. -/
theorem conditions_between (hlo : lo = 0 ∨ ∃ g, lo = g + 1 ∧ table.Pins ty g)
    (hhi : hi = (table.fields ty).length ∨ table.Pins ty hi) (hle : lo ≤ hi)
    (hnone : ∀ g, lo ≤ g → g < hi → ¬table.Pins ty g) : ∃ before after,
    table.conditions ty =
      before ++ Condition.callsLast (Condition.isCall table) (table.conditionsWithin ty lo hi) ++ after ∧
    (∀ c ∈ before, ∀ j ∈ c.fields table ty, j < lo) ∧
    ∀ c ∈ after, ∀ j ∈ c.fields table ty, hi ≤ j := by
  obtain ⟨first, rest, hstops, hlast, hfirst, hrest⟩ := exists_stops_before h hget hlo
  obtain ⟨middle, last, rfl, hhead, hmiddle, hbehind⟩ :=
    exists_stops_behind h hget hhi hle hstops hfirst
  have hmem : ∀ stop ∈ first ++ (middle ++ last), stop ∈ table.comparedFields ty :=
    fun stop hs => by rwa [hstops]
  -- None of the stops between the two can panic, so they are arranged as one.
  have hgroups : ∀ group ∈ middle.map (table.group ty), group.1 = false := by
    refine List.forall_mem_map.2 fun stop hs => Bool.eq_false_iff.2 fun hpanic => ?_
    obtain ⟨hi, hblank⟩ := of_mem_comparedFields hget (hmem stop (by simp [hs]))
    have hpins : table.Pins ty stop.2 := (pins_iff hget).2 ⟨stop.1, hi, hblank, hpanic⟩
    obtain ⟨_, _, _, _, hupTo, _⟩ := hpins.stop h hget
    have hlt := hmiddle stop hs
    rw [hupTo] at hlt
    exact hnone stop.2 (hrest stop (List.mem_append_left _ hs)) hlt hpins
  have hwithin := conditionsWithin_eq h hget hstops hfirst
    (fun stop hs => ⟨hrest stop (List.mem_append_left _ hs), hmiddle stop hs⟩) hbehind
  refine ⟨table.arranged ty first, table.arranged ty last, ?_, fun c hc j hj => ?_,
    fun c hc j hj => ?_⟩
  · rw [conditions_eq, hstops, arranged, List.map_append, List.map_append,
      Condition.arrange_append_of_last hlast, Condition.arrange_append_of_head hhead,
      Condition.arrange_eq_callsLast hgroups, List.nil_append, hwithin, List.append_assoc]
    rfl
  · obtain ⟨stop, hstop, _, hfields⟩ := fields_of_mem_arranged h hget
      (fun stop hs => hmem stop (List.mem_append_left _ hs)) hc
    exact Nat.lt_of_lt_of_le (hfields j hj).2 (hfirst stop hstop)
  · obtain ⟨stop, hstop, _, hfields⟩ := fields_of_mem_arranged h hget
      (fun stop hs => hmem stop (by simp [hs])) hc
    exact Nat.le_trans (hbehind stop hstop) (hfields j hj).1

/-! ### What conditions compare -/

/-- The conditions that compare a field are those of the stop that covers it. -/
theorem conditionsOn_eq {stop : Field × Nat} (hstop : stop ∈ table.comparedFields ty)
    (hle : stop.2 ≤ j) (hlt : j < table.comparedUpTo ty stop.2) :
    table.conditionsOn ty j = Condition.callsLast (Condition.isCall table)
      ((table.fieldConditions ty stop.1 stop.2).filter fun c => (c.fields table ty).contains j) := by
  have hstops := hstop
  obtain ⟨before, after, heq⟩ := List.append_of_mem hstop
  have hpairwise := pairwise_comparedFields h hget
  rw [heq] at hpairwise
  obtain ⟨_, hcons, hcross⟩ := List.pairwise_append.1 hpairwise
  -- The other stops cover other fields.
  have hother : ∀ other ∈ before ++ stop :: after,
      table.comparedUpTo ty other.2 ≤ j ∨ j < other.2 →
      ∀ c ∈ (table.group ty other).2, (c.fields table ty).contains j = false := by
    intro other hmem hout c hc
    obtain ⟨hi, hblank⟩ := of_mem_comparedFields hget (heq ▸ hmem)
    have hfields := (fields_of_mem_fieldConditions h hget hi hblank hc).2
    refine Bool.eq_false_iff.2 fun hcontains => ?_
    have hbounds := hfields j (List.contains_iff_mem.1 hcontains)
    omega
  rw [conditionsOn, conditions_eq, arranged, heq, List.map_append, List.map_cons,
    Condition.filter_arrange (List.forall_mem_nil _)]
  · rfl
  · refine List.forall_mem_map.2 fun other hs => hother other (by simp [hs]) (.inl ?_)
    exact Nat.le_trans (hcross other hs stop List.mem_cons_self) hle
  · refine List.forall_mem_map.2 fun other hs => hother other (by simp [hs]) (.inr ?_)
    exact Nat.lt_of_lt_of_le hlt ((List.pairwise_cons.1 hcons).1 other hs)

/-- No condition compares a blank field. -/
theorem conditionsOn_blank (hj : e.fields[j]? = some field) (hblank : field.isBlank = true) :
    table.conditionsOn ty j = [] := by
  refine List.filter_eq_nil_iff.2 fun c hc hcontains => ?_
  obtain ⟨stop, hstop, _, hfields⟩ := fields_of_mem_arranged h hget (fun _ hs => hs) hc
  obtain ⟨hle, hlt⟩ := hfields j (List.contains_iff_mem.1 hcontains)
  obtain ⟨hi, hstopBlank⟩ := of_mem_comparedFields hget hstop
  have hnamed := (h.covered_compared hget hi hstopBlank).2 field (mem_covered hj hle hlt)
  rw [hblank] at hnamed
  cases hnamed

/-- A field of plain memory is compared by one condition, alone or as part of a block. -/
theorem conditionsOn_memory (hj : e.fields[j]? = some field) (hblank : field.isBlank = false)
    (hmemory : table.isMemory field.ty = true) :
    table.conditionsOn ty j = [.same j] ∨ ∃ i size, table.conditionsOn ty j = [.block i size] := by
  obtain ⟨⟨first, i⟩, hstop, hle, hlt⟩ := exists_comparedField h hget hj hblank
  obtain ⟨hi, hfirst⟩ := of_mem_comparedFields hget hstop
  rw [conditionsOn_eq h hget hstop hle hlt]
  -- The stop that covers the field is of plain memory too: any other one covers itself only.
  have hplain : table.isMemory first.ty = true := by
    rw [← Bool.not_eq_false]
    intro hother
    simp only [comparedUpTo, fields_of_get hget, hi, hother, Bool.false_eq_true, if_false] at hlt
    obtain rfl : i = j := by omega
    rw [hi] at hj
    cases hj
    rw [hmemory] at hother
    cases hother
  simp only [comparedUpTo, fields_of_get hget, hi, hplain, if_true] at hlt
  simp only [fieldConditions, hplain, if_true]
  split
  · left
    -- Among the conditions on the fields of the run one is on this field.
    have hcount : (List.range' i ((table.fieldCost ty i).next - i)).count j = 1 :=
      List.count_eq_one_of_mem List.nodup_range' (List.mem_range'_1.2 (by omega))
    have hone : (List.range' i ((table.fieldCost ty i).next - i)).filter
        (fun k => (Condition.same k).fields table ty |>.contains j) = [j] := by
      have hbeq : ∀ k, ((Condition.same k).fields table ty).contains j = (k == j) := fun k => by
        rw [Condition.fields, List.contains_cons, List.contains_nil, Bool.or_false, Bool.beq_comm]
      simp only [hbeq, List.filter_beq, hcount, List.replicate_one]
    rw [List.filter_map, Function.comp_def, hone, List.map_singleton, Condition.callsLast_singleton]
  · right
    refine ⟨i, (table.fieldCost ty i).size, ?_⟩
    rw [List.filter_cons_of_pos, List.filter_nil, Condition.callsLast_singleton]
    rw [List.contains_iff_mem, Condition.fields, List.mem_range'_1]
    omega

/-- Any other field is compared by one condition, or by the two for a string. -/
theorem conditionsOn_other (hj : e.fields[j]? = some field) (hblank : field.isBlank = false)
    (hmemory : table.isMemory field.ty = false) : table.conditionsOn ty j =
      if table.isString field.ty then [.lengths j, .contents j] else [.element j field.ty] := by
  have hstop := mem_comparedFields h hget hj hblank hmemory
  have hupTo : j < table.comparedUpTo ty j := (h.covered_compared hget hj hblank).1
  rw [conditionsOn_eq h hget hstop (Nat.le_refl j) hupTo]
  simp only [fieldConditions, hmemory, Bool.false_eq_true, if_false]
  split
  · simp [Condition.fields, Condition.callsLast, Condition.isCall]
  · simp only [Condition.fields, List.filter_cons, List.filter_nil, List.contains_cons, beq_self_eq_true,
      Bool.true_or, if_true, Condition.callsLast_singleton]

/-- Lengths are compared before contents. -/
theorem lengths_before_contents (hj : e.fields[j]? = some field) (hblank : field.isBlank = false)
    (hstring : table.isString field.ty = true) : ∃ before between after,
    table.conditions ty = before ++ .lengths j :: (between ++ .contents j :: after) := by
  have hmemory : table.isMemory field.ty = false := by
    have hhas := h.field_has hget (List.mem_of_getElem? hj)
    rw [isMemory, base_of_isString h hhas hstring]
    rfl
  have hon := conditionsOn_other h hget hj hblank hmemory
  rw [if_pos hstring, conditionsOn] at hon
  obtain ⟨before, rest, heq, _, _, hrest⟩ := List.filter_eq_cons_iff.1 hon
  obtain ⟨between, after, rfl, _, _, _⟩ := List.filter_eq_cons_iff.1 hrest
  exact ⟨before, between, after, heq⟩

/-- A block consists of fields of plain memory, with no gap between them. -/
theorem run_of_block {size : Word} (hblock : .block i size ∈ table.conditions ty) :
    ∃ first, e.fields[i]? = some first ∧
      Run table e first (covered e.fields i (table.fieldCost ty i).next) size := by
  obtain ⟨first, _, hi, hblank, hc⟩ := of_mem_conditions hget hblock
  cases hc with
  | block hmemory =>
    exact ⟨first, hi, (h.run_compared hget hi hblank (beq_iff_eq.1 hmemory)).2.2⟩

theorem conditionsCanPanic_iff : table.conditionsCanPanic ty = true ↔ ∃ g, table.Pins ty g := by
  rw [conditionsCanPanic, List.any_eq_true]
  constructor
  · rintro ⟨⟨field, g⟩, hstop, hpanic⟩
    obtain ⟨hg, hblank⟩ := of_mem_comparedFields hget hstop
    exact ⟨g, (pins_iff hget).2 ⟨field, hg, hblank, hpanic⟩⟩
  · rintro ⟨g, hpins⟩
    obtain ⟨field, _, hstop, hpanic, _⟩ := hpins.stop h hget
    exact ⟨_, hstop, hpanic⟩

end Stops

/-- A condition is written as a call exactly if it counts as one. -/
theorem isCall_of_expr_eq_ok {p q code : Expr} {c : Condition} (hc : c.expr table ty p q = .ok code) :
    code.isCall = c.isCall table := by
  cases c with
  | element i part =>
    have hcalls : (Condition.element i part).isCall table = table.comparesByCall part := rfl
    cases elementEqual_cases hc with
    | inPlace hbase =>
      simp only [List.mem_cons, List.not_mem_nil, or_false] at hbase
      rcases hbase with hbase | hbase | hbase | hbase | hbase <;>
        rw [hcalls, comparesByCall, hbase] <;> rfl
    | strings hbase | interface hbase | nilInterface hbase | special hbase _ =>
      rw [hcalls, comparesByCall, hbase]
      rfl
  | _ =>
    cases hc
    rfl

/-! ### The conditions of a struct -/

/-- The conditions of a struct are those of its fields, arranged so that calls go last as far as
    nothing is moved across a field that can panic. -/
structure Arranged (table : TypeTable) (ty : TypeId) : Prop where
  /-- The conditions are those of the fields. -/
  perm : (table.conditions ty).Perm (table.declaredConditions ty)
  /-- Nothing is moved across a field that can panic. -/
  pinned : ∀ g, table.Pins ty g → ∃ field before after, (table.fields ty)[g]? = some field ∧
    table.conditions ty = before ++ .element g field.ty :: after ∧
    (∀ c ∈ before, ∀ j ∈ c.fields table ty, j < g) ∧
    ∀ c ∈ after, ∀ j ∈ c.fields table ty, g < j
  /-- Between two such fields, before the first and behind the last one, calls go last and nothing
      else is moved. -/
  between : ∀ lo hi, (lo = 0 ∨ ∃ g, lo = g + 1 ∧ table.Pins ty g) →
    (hi = (table.fields ty).length ∨ table.Pins ty hi) → lo ≤ hi →
    (∀ g, lo ≤ g → g < hi → ¬table.Pins ty g) → ∃ before after,
      table.conditions ty = before ++ ((table.conditionsWithin ty lo hi).filter (!·.isCall table) ++
        (table.conditionsWithin ty lo hi).filter (·.isCall table)) ++ after ∧
      (∀ c ∈ before, ∀ j ∈ c.fields table ty, j < lo) ∧
      ∀ c ∈ after, ∀ j ∈ c.fields table ty, hi ≤ j
  /-- Lengths are compared before contents. -/
  strings : ∀ j field, (table.fields ty)[j]? = some field → field.isBlank = false →
    table.isString field.ty = true → ∃ before between after,
      table.conditions ty = before ++ .lengths j :: (between ++ .contents j :: after)
  /-- Every condition compares a field. -/
  nonempty : ∀ c ∈ table.conditions ty, c.fields table ty ≠ []
  /-- Blank fields are not compared. -/
  blank : ∀ j field, (table.fields ty)[j]? = some field → field.isBlank = true →
    table.conditionsOn ty j = []
  /-- Plain memory is compared once, alone or in a block. -/
  memory : ∀ j field, (table.fields ty)[j]? = some field → field.isBlank = false →
    table.isMemory field.ty = true →
      table.conditionsOn ty j = [.same j] ∨ ∃ i size, table.conditionsOn ty j = [.block i size]
  /-- A block consists of the fields that it compares, with no gap between them. -/
  blocks : ∀ i size, .block i size ∈ table.conditions ty → ∃ first,
    (table.fields ty)[i]? = some first ∧
      Run table (table.entry ty) first (covered (table.fields ty) i (table.fieldCost ty i).next) size
  /-- Every other field is compared once, and a string in two steps. -/
  others : ∀ j field, (table.fields ty)[j]? = some field → field.isBlank = false →
    table.isMemory field.ty = false → table.conditionsOn ty j =
      if table.isString field.ty then [.lengths j, .contents j] else [.element j field.ty]
  /-- Whether there is a field that can panic is known. -/
  canPanic : table.conditionsCanPanic ty = true ↔ ∃ g, table.Pins ty g

theorem Lawful.arranged (h : Lawful table) (hget : table.get ty = .ok e) : Arranged table ty where
  perm := by
    have hperm : (table.conditions ty).Perm
        ([] ++ ((table.comparedFields ty).map (table.group ty)).flatMap (·.2)) :=
      Condition.arrange_perm
    rw [List.nil_append, List.flatMap_map] at hperm
    exact hperm
  pinned := fun g hpins => conditions_pinned h hget hpins
  between := fun lo hi hlo hhi hle hnone => conditions_between h hget hlo hhi hle hnone
  strings := fun j field hj => lengths_before_contents h hget (fields_of_get hget ▸ hj)
  nonempty := fun c hc => by
    obtain ⟨_, _, hne, _⟩ := fields_of_mem_arranged h hget (fun _ hs => hs) hc
    exact hne
  blank := fun j field hj => conditionsOn_blank h hget (fields_of_get hget ▸ hj)
  memory := fun j field hj => conditionsOn_memory h hget (fields_of_get hget ▸ hj)
  blocks := fun i size hblock => by
    rw [fields_of_get hget, entry_of_get hget]
    exact run_of_block h hget hblock
  others := fun j field hj => conditionsOn_other h hget (fields_of_get hget ▸ hj)
  canPanic := conditionsCanPanic_iff h hget

theorem Lawful.base_ne_noEquality (h : Lawful table) (hget : table.get ty = .ok e)
    {name : Option String} {members : List Member} (hkind : e.kind = .struct name members)
    (hequality : ∀ field ∈ e.fields, table.base field.ty ≠ .noEquality) : e.base ≠ .noEquality := by
  have hnone : (e.fields.any fun field => table.base field.ty == .noEquality) = false :=
    List.any_eq_false.2 fun field hf hbase => hequality field hf (beq_iff_eq.1 hbase)
  intro hbase
  rw [h.base_struct hget hkind] at hbase
  unfold structBase at hbase
  split at hbase
  · next heq => exact hequality _ (heq ▸ List.mem_singleton_self _) hbase
  · rw [hnone, if_neg Bool.false_ne_true] at hbase
    split at hbase <;> cases hbase

/-- The conditions of a struct whose fields all have equality can be written as code, and are
    arranged. -/
theorem conditions_arranged (hbuilt : Built table) (hty : table.Has ty) {name : Option String}
    {members : List Member} (hkind : table.kind ty = .struct name members)
    (hequality : ∀ field ∈ table.fields ty, table.base field.ty ≠ .noEquality) :
    Arranged table ty ∧ ∀ p q, ∃ codes, table.structConditions ty p q = .ok codes ∧
      (table.conditions ty).Forall₂
        (fun c code => c.expr table ty p q = .ok code ∧ code.isCall = c.isCall table) codes := by
  have h := hbuilt.lawful
  obtain ⟨e, hget⟩ := hty
  rw [kind_of_get hget] at hkind
  rw [fields_of_get hget] at hequality
  have hne := h.base_ne_noEquality hget hkind hequality
  refine ⟨h.arranged hget, fun p q => ⟨_, Interpreter.structConditions_eq h hget hne p q, ?_⟩⟩
  rw [List.forall₂_map_right_iff, List.forall₂_same]
  intro c hc
  have hexpr := Interpreter.expr_eq_ok h hget hne p q hc
  exact ⟨hexpr, isCall_of_expr_eq_ok hexpr⟩

/-- A struct with two fields that can panic, strings before, between and behind them, numbers that
    are compared as one block, and a blank field. -/
def mixedTable : TypeTable :=
  ofKinds .amd64 [.array ⟨4⟩ 8, .struct none [⟨some "title", ⟨14⟩⟩, ⟨some "block", ⟨32⟩⟩,
    ⟨some "count", ⟨4⟩⟩, ⟨some "first", ⟨16⟩⟩, ⟨some "text", ⟨14⟩⟩, ⟨none, ⟨4⟩⟩,
    ⟨some "ratio", ⟨11⟩⟩, ⟨some "second", ⟨16⟩⟩, ⟨some "note", ⟨14⟩⟩]]

/-- Calls go last before, between and behind the fields that can panic. -/
theorem conditions_arranged_mixed :
    Built mixedTable ∧ mixedTable.Has ⟨33⟩ ∧
    (∀ field ∈ mixedTable.fields ⟨33⟩, mixedTable.base field.ty ≠ .noEquality) ∧
    Arranged mixedTable ⟨33⟩ ∧
    mixedTable.conditions ⟨33⟩ =
      [.lengths 0, .contents 0, .block 1 72, .element 3 ⟨16⟩,
        .lengths 4, .element 6 ⟨11⟩, .contents 4, .element 7 ⟨16⟩, .lengths 8, .contents 8] := by
  have hbuilt : Built mixedTable := built_ofKinds (by decide +kernel)
  have hhas : mixedTable.Has ⟨33⟩ := by decide +kernel
  have hequality : ∀ field ∈ mixedTable.fields ⟨33⟩, mixedTable.base field.ty ≠ .noEquality := by
    decide +kernel
  have hkind : mixedTable.kind ⟨33⟩ = .struct none [⟨some "title", ⟨14⟩⟩, ⟨some "block", ⟨32⟩⟩,
      ⟨some "count", ⟨4⟩⟩, ⟨some "first", ⟨16⟩⟩, ⟨some "text", ⟨14⟩⟩, ⟨none, ⟨4⟩⟩,
      ⟨some "ratio", ⟨11⟩⟩, ⟨some "second", ⟨16⟩⟩, ⟨some "note", ⟨14⟩⟩] := by decide +kernel
  exact ⟨hbuilt, hhas, hequality, (conditions_arranged hbuilt hhas hkind hequality).1,
    by decide +kernel⟩

end TypeTable

end HashEq

import HashEq.Proofs.Machine.ToldChecks

/-!
# Lengths before bytes

Equality functions compare the bytes of two strings only once the strings were found
equally long. In the body for a struct, the condition on the bytes of a string comes
behind the one on its length; for an array, all lengths are compared in a first pass
before any bytes in a second one.

* `Condition.LengthsFirst`, `lengthsFirst_conditions`: the order of the conditions of a
  struct;
* `quietInOrder_codes`: conditions in such an order raise no alarm;
* `execAll_tell_arrayChecks`: nor do the checks of an array;
* `invokeMonitored`: evaluations in which all equality functions are instrumented;
* `no_alarm_of_equalityFunction`: equality functions never raise the alarm.
-/

namespace HashEq

open EqualityCode

/-! ### The order of conditions -/

namespace Condition

variable {table : TypeTable} {l a b pending : List Condition} {groups : List (Bool × List Condition)}

/-- The strings whose bytes are compared by some of the conditions are compared in length, too. -/
def HasLengths (l : List Condition) : Prop :=
  ∀ i, .contents i ∈ l → .lengths i ∈ l

theorem HasLengths.nil : HasLengths [] :=
  fun _ hi => absurd hi List.not_mem_nil

/-- The bytes of strings are compared after the lengths. -/
def LengthsFirst (l : List Condition) : Prop :=
  ∀ before i after, l = before ++ .contents i :: after → .lengths i ∈ before

theorem LengthsFirst.append (ha : LengthsFirst a) (hb : LengthsFirst b) : LengthsFirst (a ++ b) := by
  intro before i after heq
  rcases List.append_eq_append_iff.1 heq with ⟨mid, rfl, hb'⟩ | ⟨mid, rfl, hmid⟩
  · exact List.mem_append_right _ (hb mid i after hb')
  · cases mid with
    | nil => exact absurd (hb [] i after hmid.symm) List.not_mem_nil
    | cons c mid =>
      rw [List.cons_append, List.cons.injEq] at hmid
      exact ha before i mid (hmid.1 ▸ rfl)

/-- Comparing lengths takes no call, and comparing bytes does. -/
theorem lengthsFirst_callsLast (h : HasLengths l) : LengthsFirst (callsLast (isCall table) l) := by
  intro before i after heq
  have hcontents : .contents i ∈ l :=
    mem_callsLast.1 (heq ▸ List.mem_append_right before List.mem_cons_self)
  have hlengths : .lengths i ∈ l.filter (!isCall table ·) := List.mem_filter.2 ⟨h i hcontents, rfl⟩
  rcases List.append_eq_append_iff.1 heq with ⟨mid, rfl, _⟩ | ⟨mid, hinline, hmid⟩
  · exact List.mem_append_left _ hlengths
  · cases mid with
    | nil =>
      rw [List.append_nil] at hinline
      exact hinline ▸ hlengths
    | cons c mid =>
      rw [List.cons_append, List.cons.injEq] at hmid
      have hmem : c ∈ l.filter (!isCall table ·) := hinline ▸ by simp
      rw [← hmid.1] at hmem
      cases (List.mem_filter.1 hmem).2

theorem lengthsFirst_arrange (hpending : HasLengths pending)
    (hgroups : ∀ group ∈ groups, HasLengths group.2) :
    LengthsFirst (arrange (isCall table) pending groups) := by
  fun_induction arrange (isCall table) pending groups with
  | case1 pending => exact lengthsFirst_callsLast hpending
  | case2 pending conditions rest ih =>
    obtain ⟨hconditions, hrest⟩ := List.forall_mem_cons.1 hgroups
    refine ih (fun i hi => List.mem_append.2 ?_) hrest
    exact (List.mem_append.1 hi).imp (hpending i) (hconditions i)
  | case3 pending conditions rest ih =>
    obtain ⟨hconditions, hrest⟩ := List.forall_mem_cons.1 hgroups
    exact ((lengthsFirst_callsLast hpending).append (lengthsFirst_callsLast hconditions)).append
      (ih .nil hrest)

end Condition

open Condition

theorem TypeTable.lengthsFirst_conditions (table : TypeTable) (ty : TypeId) :
    LengthsFirst (table.conditions ty) := by
  refine lengthsFirst_arrange .nil (List.forall_mem_map.2 fun (field, i) _ => ?_)
  intro j hj
  simp only [fieldConditions] at hj ⊢
  split at hj
  · split at hj <;> simp at hj
  · split at hj
    · next hstring => simp_all
    · simp at hj

namespace Interpreter

variable {table : TypeTable} {arena : Arena} {alarm : EvalM Word}
  {call : Callee → List Word → EvalM Word} {result : Option Nat} {frame : Frame} {P Q : Expr}

/-! ### The conditions of a struct -/

section Struct

variable {owner : TypeId} {cs : List Condition} {codes : List Expr}

/-- When codes can hold, so can the comparisons of lengths among them. -/
theorem canHold_lengths (hcodes : cs.mapM (Condition.expr table owner P Q) = .ok codes)
    (h : ∀ e ∈ codes, CanHold table arena call frame e) {i : Nat} (hi : .lengths i ∈ cs) :
    CanHold table arena call frame (lengthsEqual (.field P owner i) (.field Q owner i)) := by
  obtain ⟨e, he, hexpr⟩ := mem_of_mapM_eq_ok hcodes _ hi
  cases hexpr
  exact h _ he

variable (hP : P.containsCall = false) (hQ : Q.containsCall = false)
include hP hQ

/-- Conditions are quiet in an order in which the lengths of strings come before the bytes. Some of
    the lengths may be known beforehand. -/
theorem quietInOrder_codes (known : List Condition)
    (hcodes : cs.mapM (Condition.expr table owner P Q) = .ok codes)
    (hknown : ∀ i, .lengths i ∈ known →
      CanHold table arena call frame (lengthsEqual (.field P owner i) (.field Q owner i)))
    (hfirst : ∀ before i after, cs = before ++ .contents i :: after →
      .lengths i ∈ known ∨ .lengths i ∈ before) :
    QuietInOrder table arena alarm call frame codes := by
  rintro before e after rfl hbefore
  obtain ⟨init, c, rest, rfl, hinit, he⟩ := split_of_mapM_eq_ok hcodes
  refine quiet_condition hP hQ he fun i hi => ?_
  subst hi
  rcases hfirst init i rest rfl with hi | hi
  · exact hknown i hi
  · exact canHold_lengths hinit hbefore hi

theorem quietInOrder_structConditions (h : table.structConditions owner P Q = .ok codes) :
    QuietInOrder table arena alarm call frame codes :=
  quietInOrder_codes hP hQ [] h nofun fun before i after heq =>
    .inr (table.lengthsFirst_conditions owner before i after heq)

/-- The first pass over an array compares no bytes of strings. -/
theorem quiet_conditionsThat_false {e : Expr} (h : table.conditionsThat false owner P Q = .ok e) :
    Quiet table arena alarm call frame e := by
  obtain ⟨codes, hcodes, h⟩ := bind_eq_ok_iff.1 h
  cases h
  refine (quietInOrder_codes hP hQ [] hcodes nofun fun before i after heq => ?_).all
  have hcontents : .contents i ∈ before ++ .contents i :: after :=
    List.mem_append_right before List.mem_cons_self
  rw [← heq] at hcontents
  cases (List.mem_filter.1 hcontents).2

/-- The second pass over an array compares bytes of strings whose lengths were compared in the first. -/
theorem quiet_conditionsThat_true {e e' : Expr} (h : table.conditionsThat false owner P Q = .ok e)
    (hhold : CanHold table arena call frame e) (h' : table.conditionsThat true owner P Q = .ok e') :
    Quiet table arena alarm call frame e' := by
  obtain ⟨codes, hcodes, h⟩ := bind_eq_ok_iff.1 h
  cases h
  obtain ⟨codes', hcodes', h'⟩ := bind_eq_ok_iff.1 h'
  cases h'
  refine (quietInOrder_codes hP hQ _ hcodes' (fun i => canHold_lengths hcodes hhold.of_all)
    fun before i after heq => .inl ?_).all
  have hcontents : .contents i ∈ before ++ .contents i :: after :=
    List.mem_append_right before List.mem_cons_self
  rw [← heq] at hcontents
  have hlengths : .lengths i ∈ table.conditions owner := by
    obtain ⟨init, rest, hsplit⟩ := List.append_of_mem (List.mem_filter.1 hcontents).1
    rw [hsplit]
    exact List.mem_append_left _ (table.lengthsFirst_conditions owner init i rest hsplit)
  exact List.mem_filter.2 ⟨hlengths, rfl⟩

end Struct

/-! ### Whole functions -/

/-- The checks of an array are made quietly. -/
theorem execAll_tell_arrayChecks {ty elem : TypeId} {len : Word} {stmts : List Stmt}
    (hstmts : table.arrayChecks ty elem len.toNat = .ok stmts) (hframe : HasVars true stmts frame) :
    execAll table arena (monitored alarm call) result (Stmt.tellAll stmts) frame =
      execAll table arena call result stmts frame := by
  cases TypeTable.arrayChecks_cases hstmts with
  | strings _ hfirst hsecond =>
    refine execAll_tell_two onPlaces_lengthsEqual.buildsOnPlaces (buildsAlike_return _) (by decide)
      (fun P Q e hP hQ he => ?_) onPlaces_contentsEqual.buildsOnPlaces (buildsAlike_return _)
      (by decide) (fun P Q e e' hP hQ he hhold he' => ?_) hfirst hsecond hframe
    · cases he
      exact quiet_lengths hP.callFree hQ.callFree
    · cases he
      cases he'
      exact quiet_contents hP.callFree hQ.callFree hhold
  | floats _ hstmts =>
    refine execAll_tell_one (OnPlaces.binary .eq .left .right).buildsOnPlaces (buildsAlike_return _)
      (by decide) (fun P Q e hP hQ he => ?_) hstmts hframe
    cases he
    exact quiet_eq hP.callFree hQ.callFree
  | structs _ _ hfirst hsecond =>
    -- The first pass goes as far as that takes no calls.
    refine execAll_tell_two (buildsOnPlaces_conditionsThat table false elem)
      (buildsAlike_conditionsThat table false elem) (by decide)
      (fun P Q e hP hQ he => quiet_conditionsThat_false hP.callFree hQ.callFree he)
      (buildsOnPlaces_conditionsThat table true elem) (buildsAlike_conditionsThat table true elem)
      (by decide) (fun P Q e e' hP hQ he hhold he' => ?_) hfirst hsecond hframe
    exact quiet_conditionsThat_true hP.callFree hQ.callFree he hhold he'
  | elements _ hstmts =>
    refine execAll_tell_one (buildsOnPlaces_elementEqual table elem)
      (buildsAlike_elementEqual table elem) (by decide) (fun P Q e hP hQ he => ?_) hstmts hframe
    exact quiet_elementEqual hP.callFree hQ.callFree he

/-- Equality functions make their checks quietly, whatever the calls do. -/
theorem run_tell_equalityFunction {ty : TypeId} {f : Function}
    (hf : table.equalityFunction ty = .ok f) (arena : Arena) (alarm : EvalM Word)
    (call : Callee → List Word → EvalM Word) (args : List Word) :
    run table arena (monitored alarm call) f.tellLengths args = run table arena call f args := by
  obtain ⟨symbol, _, hf⟩ := bind_eq_ok_iff.1 hf
  obtain ⟨checks, hchecks, hf⟩ := bind_eq_ok_iff.1 hf
  cases hf
  -- Every function has a result, and one whose body has a loop has a counter.
  have hr : ∀ {counter : List Var} {frame : Frame},
      ([⟨"p", .pointer ty⟩, ⟨"q", .pointer ty⟩, ⟨"r", .bool⟩] ++ counter : List Var).length ≤
        frame.length → EqualityCode.r < frame.length := fun hvars =>
    Nat.lt_of_lt_of_le (by rw [List.length_append]; exact Nat.lt_add_right _ (Nat.lt_succ_self 2)) hvars
  rw [TypeTable.equalityChecks] at hchecks
  split at hchecks
  · next elem len hkind =>
    refine run_tell rfl (unlabelled_arrayChecks hchecks) fun frame hvars => ?_
    refine execAll_tell_arrayChecks hchecks ⟨fun _ => hr hvars, fun hloop => ?_⟩
    rw [if_pos hloop] at hvars
    exact hvars
  · obtain ⟨codes, hcodes, hchecks⟩ := bind_eq_ok_iff.1 hchecks
    cases hchecks
    refine run_tell rfl (unlabelled_checkConditions _) fun frame hvars => ?_
    exact execAll_tell_checkConditions (quietInOrder_structConditions rfl rfl hcodes) (hr hvars)
  · obtain ⟨_, _, hchecks⟩ := bind_eq_ok_iff.1 hchecks
    cases hchecks

end Interpreter

/-! ### Whole evaluations -/

namespace Evaluation

open Classical in
/-- Calls a primitive or a generated function like `invoke`, but all equality functions that are
    called by the way are instrumented and run under the monitor. -/
noncomputable def invokeMonitored (table : TypeTable) (arena : Arena) (alarm : EvalM Word) :
    Nat → Callee → List Word → EvalM Word
  | 0, _, _ => throw (.fault .unending)
  | depth + 1, .primitive primitive, args =>
    Primitives.run table arena (callClosure (invokeMonitored table arena alarm depth)) primitive args
  | depth + 1, .generated symbol, args => do
    match (← get).function? symbol with
    | none => throw (.unknownFunction symbol)
    | some f =>
      if table.equalityFunction f.ty = .ok f then
        Interpreter.run table arena (monitored alarm (invokeMonitored table arena alarm depth))
          f.tellLengths args
      else Interpreter.run table arena (invokeMonitored table arena alarm depth) f args

theorem invokeMonitored_eq (table : TypeTable) (arena : Arena) (alarm : EvalM Word) (depth : Nat) :
    invokeMonitored table arena alarm depth = invoke table arena depth := by
  induction depth with
  | zero =>
    funext callee args
    rw [invokeMonitored, invoke]
  | succ depth ih =>
    funext callee args
    cases callee with
    | primitive primitive => rw [invokeMonitored, invoke, ih]
    | generated symbol =>
      rw [invokeMonitored, invoke, ih]
      refine bind_congr fun s => ?_
      cases s.function? symbol with
      | none => rfl
      | some f =>
        dsimp only
        split
        · next hf => exact Interpreter.run_tell_equalityFunction hf arena alarm _ args
        · rfl

end Evaluation

namespace TypeTable

variable {table : TypeTable} {ty : TypeId} {f : Function}

/-- An equality function compares the bytes of two strings only once they were found equally long,
    and then as many bytes as both of them have. Whatever is raised as an alarm, and whatever the
    memory and the arguments are, the function comes to the same when it tells the lengths of strings
    and the monitor stands in front of the calls. It does so whatever the calls do, and also when the
    equality functions that are called are instrumented as well. -/
theorem no_alarm_of_equalityFunction (hf : table.equalityFunction ty = .ok f) (arena : Arena)
    (alarm : EvalM Word) (args : List Word) :
    (∀ call, Interpreter.run table arena (monitored alarm call) f.tellLengths args =
      Interpreter.run table arena call f args) ∧
    ∀ depth, Interpreter.run table arena
        (monitored alarm (Evaluation.invokeMonitored table arena alarm depth)) f.tellLengths args =
      Interpreter.run table arena (Evaluation.invoke table arena depth) f args := by
  refine ⟨fun call => Interpreter.run_tell_equalityFunction hf arena alarm call args, fun depth => ?_⟩
  rw [Evaluation.invokeMonitored_eq]
  exact Interpreter.run_tell_equalityFunction hf arena alarm _ args

/-- Strings in a struct, in an array, in an array of structs and as the only field of a struct. -/
def stringsTable : TypeTable :=
  ofKinds .amd64 [.struct none [⟨some "name", ⟨14⟩⟩, ⟨some "count", ⟨4⟩⟩, ⟨some "text", ⟨14⟩⟩],
    .array ⟨14⟩ 7, .array ⟨32⟩ 5, .struct none [⟨some "only", ⟨14⟩⟩], .array ⟨35⟩ 3,
    .struct none [⟨some "wrapped", ⟨35⟩⟩, ⟨some "ratio", ⟨11⟩⟩]]

theorem no_alarm_of_equalityFunction_strings :
    stringsTable.comparesInPasses ⟨32⟩ = true ∧ stringsTable.comparesInPasses ⟨35⟩ = true ∧
    ∀ ty ∈ [⟨32⟩, ⟨33⟩, ⟨34⟩, ⟨36⟩, ⟨37⟩], ∃ f, stringsTable.equalityFunction ty = .ok f ∧
      ∀ arena alarm args,
        (∀ call, Interpreter.run stringsTable arena (monitored alarm call) f.tellLengths args =
          Interpreter.run stringsTable arena call f args) ∧
        ∀ depth, Interpreter.run stringsTable arena
            (monitored alarm (Evaluation.invokeMonitored stringsTable arena alarm depth)) f.tellLengths
              args =
          Interpreter.run stringsTable arena (Evaluation.invoke stringsTable arena depth) f args := by
  refine ⟨by decide +kernel, by decide +kernel, fun ty hty => ?_⟩
  have hok : ∀ ty ∈ ([⟨32⟩, ⟨33⟩, ⟨34⟩, ⟨36⟩, ⟨37⟩] : List TypeId),
      (stringsTable.equalityFunction ty).toBool = true := by decide +kernel
  cases hf : stringsTable.equalityFunction ty with
  | error e =>
    have hbool := hok ty hty
    rw [hf] at hbool
    cases hbool
  | ok f => exact ⟨f, rfl, no_alarm_of_equalityFunction hf⟩

end TypeTable

end HashEq

import HashEq.Proofs.Machine.EqualityCode
import HashEq.Proofs.Machine.ToldLengths
import HashEq.Proofs.Machine.Unrolled

/-!
# Instrumented checks

The instrumented body of an equality function makes instrumented checks in the same
order. Those of an array are again the checks of one condition on the places of the
elements, so that they run like a plain loop, as the checks themselves do. When every
check is quiet that is reached, the instrumented function comes to the same as the
function.

* `OnPlaces.exists_tellLengths`, `checkAll_tell`: the instrumented checks of an array;
* `execAll_tell_checkConditions`: conditions in order;
* `execAll_tell_one`, `execAll_tell_two`: the checks of an array in one pass, and in two
  of which the second relies on the first;
* `run_tell`: a function that makes its checks quietly runs quietly.
-/

namespace HashEq

open EqualityCode

/-! ### What is built on places -/

section Steps

variable {ε α β : Type} {f : α → Except ε β} {l : List α} {bs bs' : List β} {b : β}

/-- What is answered in the middle is answered by a step in the middle. -/
theorem split_of_mapM_eq_ok (h : l.mapM f = .ok (bs ++ b :: bs')) :
    ∃ init a rest, l = init ++ a :: rest ∧ init.mapM f = .ok bs ∧ f a = .ok b := by
  induction l generalizing bs with
  | nil =>
    cases bs <;> cases h
  | cons a l ih =>
    rw [List.mapM_cons] at h
    obtain ⟨b', hb', h⟩ := bind_eq_ok_iff.1 h
    obtain ⟨rest, hrest, h⟩ := bind_eq_ok_iff.1 h
    cases bs with
    | nil =>
      cases h
      exact ⟨[], a, l, rfl, rfl, hb'⟩
    | cons b'' bs =>
      cases h
      obtain ⟨init, a', l', rfl, hinit, ha'⟩ := ih hrest
      refine ⟨a :: init, a', l', rfl, ?_, ha'⟩
      rw [List.mapM_cons, hb', hinit]
      rfl

theorem mem_of_mapM_eq_ok (h : l.mapM f = .ok bs) : ∀ a ∈ l, ∃ b ∈ bs, f a = .ok b := by
  intro a ha
  obtain ⟨init, rest, rfl⟩ := List.append_of_mem ha
  rw [List.mapM_append] at h
  obtain ⟨before, _, h⟩ := bind_eq_ok_iff.1 h
  obtain ⟨after, hafter, h⟩ := bind_eq_ok_iff.1 h
  rw [List.mapM_cons] at hafter
  obtain ⟨b, hb, hafter⟩ := bind_eq_ok_iff.1 hafter
  obtain ⟨bs', _, hafter⟩ := bind_eq_ok_iff.1 hafter
  cases hafter
  cases h
  exact ⟨b, List.mem_append_right before List.mem_cons_self, hb⟩

end Steps

section Built

variable {check : Expr → Expr → Except RequestError Expr}

/-- The condition that is built on two places, or a truth if none can be built. -/
def codeOf (check : Expr → Expr → Except RequestError Expr) (P Q : Expr) : Expr :=
  match check P Q with
  | .ok e => e
  | .error _ => .bool true

theorem codeOf_of_ok {P Q e : Expr} (h : check P Q = .ok e) : codeOf check P Q = e := by
  rw [codeOf, h]

theorem buildsAs_codeOf (check : Expr → Expr → Except RequestError Expr) :
    BuildsAs check (codeOf check) :=
  fun _ _ _ h => (codeOf_of_ok h).symm

/-- Whether a condition can be built does not depend on the places. -/
def BuildsAlike (check : Expr → Expr → Except RequestError Expr) : Prop :=
  ∀ P Q P' Q' e, check P Q = .ok e → ∃ e', check P' Q' = .ok e'

theorem buildsAlike_return (f : Expr → Expr → Expr) : BuildsAlike fun P Q => return f P Q :=
  fun _ _ _ _ _ _ => ⟨_, rfl⟩

theorem onPlaces_codeOf (h : BuildsOnPlaces check) (halike : BuildsAlike check) :
    OnPlaces (codeOf check) := by
  obtain ⟨f, hf, hbuilds⟩ := h
  by_cases hok : ∃ P Q e, check P Q = .ok e
  · obtain ⟨P, Q, e, he⟩ := hok
    have heq : codeOf check = f := by
      funext P' Q'
      obtain ⟨e', he'⟩ := halike P Q P' Q' e he
      rw [codeOf_of_ok he']
      exact hbuilds P' Q' e' he'
    rwa [heq]
  · have heq : codeOf check = fun _ _ => .bool true := by
      funext P Q
      cases hcheck : check P Q with
      | error _ => rw [codeOf, hcheck]
      | ok e => exact absurd ⟨P, Q, e, hcheck⟩ hok
    rw [heq]
    exact .bool true

variable (table : TypeTable)

theorem buildsAlike_elementEqual (ty : TypeId) : BuildsAlike (table.elementEqual ty) := by
  intro P Q P' Q' e he
  unfold TypeTable.elementEqual at he ⊢
  cases hbase : table.base ty with
  | special =>
    rw [hbase] at he
    obtain ⟨symbol, hsymbol, _⟩ := bind_eq_ok_iff.1 he
    exact ⟨_, by rw [hsymbol]; rfl⟩
  | noEquality =>
    rw [hbase] at he
    obtain ⟨_, _, he⟩ := bind_eq_ok_iff.1 he
    cases he
  | _ => exact ⟨_, rfl⟩

theorem buildsAlike_conditionsThat (calls : Bool) (ty : TypeId) :
    BuildsAlike (table.conditionsThat calls ty) := by
  intro P Q P' Q' e he
  obtain ⟨codes, hcodes, _⟩ := bind_eq_ok_iff.1 he
  have hok : ∀ c ∈ (table.conditions ty).filter fun c => c.isCall table == calls,
      ∃ code, c.expr table ty P' Q' = .ok code := by
    intro c hc
    obtain ⟨code, _, hcode⟩ := mem_of_mapM_eq_ok hcodes c hc
    cases c with
    | element i elem => exact buildsAlike_elementEqual table elem _ _ _ _ code hcode
    | _ => exact ⟨_, rfl⟩
  obtain ⟨codes', hcodes'⟩ := mapM_isOk hok
  exact ⟨_, bind_eq_ok_iff.2 ⟨codes', hcodes', rfl⟩⟩

end Built

/-! ### Instrumented conditions on places -/

/-- A place that is reached without any call. -/
structure PlainPlace (P : Expr) : Prop where
  isPlace : P.isPlace = true
  callFree : P.containsCall = false

/-- A condition on places tells by itself which of its parts are the bytes of a string. -/
theorem OnPlaces.strPtr_or {f : Expr → Expr → Expr} (h : OnPlaces f) :
    (∃ g, OnPlaces g ∧ f = fun P Q => .strPtr (g P Q)) ∨
      ∀ P Q, PlainPlace P → PlainPlace Q → ∀ place, f P Q ≠ .strPtr place := by
  cases h with
  | strPtr h => exact .inl ⟨_, h, rfl⟩
  | left =>
    -- The data pointer of a string is no place.
    refine .inr fun P Q hP _ place (hplace : P = .strPtr place) => ?_
    have hisPlace := hP.isPlace
    rw [hplace] at hisPlace
    cases hisPlace
  | right =>
    refine .inr fun P Q _ hQ place (hplace : Q = .strPtr place) => ?_
    have hisPlace := hQ.isPlace
    rw [hplace] at hisPlace
    cases hisPlace
  | _ => exact .inr fun _ _ _ _ _ => nofun

/-- What is told to a call on places is told about places. -/
theorem exists_lengthsToTell (callee : Callee) {args : List (Expr → Expr → Expr)}
    (h : ∀ arg ∈ args, OnPlaces arg) : ∃ more : List (Expr → Expr → Expr),
      (∀ arg ∈ more, OnPlaces arg) ∧ ∀ P Q, PlainPlace P → PlainPlace Q →
        callee.lengthsToTell (args.map fun arg => arg P Q) = more.map fun arg => arg P Q := by
  by_cases hcallee : callee = .primitive ⟨.equality, .memory⟩
  · subst hcallee
    by_cases hstrings : ∃ g g' size, OnPlaces g ∧ OnPlaces g' ∧
        args = [fun P Q => .strPtr (g P Q), fun P Q => .strPtr (g' P Q), size]
    · obtain ⟨g, g', size, hg, hg', rfl⟩ := hstrings
      refine ⟨[fun P Q => .strLen (g P Q), fun P Q => .strLen (g' P Q)], ?_, fun P Q _ _ => rfl⟩
      exact List.forall_mem_cons.2 ⟨.strLen hg, List.forall_mem_singleton.2 (.strLen hg')⟩
    · -- Arguments that come to two data pointers on some places do so on all.
      refine ⟨[], nofun, fun P Q hP hQ => Callee.lengthsToTell_eq_nil (fun p q size heq => ?_) _⟩
      obtain ⟨arg, rest, rfl, harg, hrest⟩ := List.map_eq_cons_iff.1 heq
      obtain ⟨arg', rest', rfl, harg', hrest'⟩ := List.map_eq_cons_iff.1 hrest
      obtain ⟨arg'', rest'', rfl, _, hnil⟩ := List.map_eq_cons_iff.1 hrest'
      cases List.map_eq_nil_iff.1 hnil
      rcases (h arg List.mem_cons_self).strPtr_or with ⟨g, hg, rfl⟩ | hne
      · rcases (h arg' (.tail _ List.mem_cons_self)).strPtr_or with ⟨g', hg', rfl⟩ | hne
        · exact hstrings ⟨g, g', arg'', hg, hg', rfl⟩
        · exact hne P Q hP hQ q harg'
      · exact hne P Q hP hQ p harg
  · exact ⟨[], nofun, fun P Q _ _ => Callee.lengthsToTell_of_ne hcallee _⟩

/-- Instrumenting a condition on places makes a condition on places. -/
theorem OnPlaces.exists_tellLengths {f : Expr → Expr → Expr} (h : OnPlaces f) :
    ∃ told, OnPlaces told ∧ ∀ P Q, PlainPlace P → PlainPlace Q → (f P Q).tellLengths = told P Q := by
  induction h with
  | left => exact ⟨_, .left, fun P Q hP _ => Expr.tellLengths_of_callFree hP.callFree⟩
  | right => exact ⟨_, .right, fun P Q _ hQ => Expr.tellLengths_of_callFree hQ.callFree⟩
  | var h => exact ⟨_, .var h, fun P Q _ _ => by rw [Expr.tellLengths]⟩
  | const value => exact ⟨_, .const value, fun P Q _ _ => by rw [Expr.tellLengths]⟩
  | bool value => exact ⟨_, .bool value, fun P Q _ _ => by rw [Expr.tellLengths]⟩
  | deref _ ty ih =>
    obtain ⟨told, honPlaces, htold⟩ := ih
    exact ⟨_, .deref honPlaces ty, fun P Q hP hQ => by rw [Expr.tellLengths, htold P Q hP hQ]⟩
  | field _ owner index ih =>
    obtain ⟨told, honPlaces, htold⟩ := ih
    exact ⟨_, .field honPlaces owner index, fun P Q hP hQ => by
      rw [Expr.tellLengths, htold P Q hP hQ]⟩
  | index _ _ elem bounded ih ih' =>
    obtain ⟨told, honPlaces, htold⟩ := ih
    obtain ⟨told', honPlaces', htold'⟩ := ih'
    exact ⟨_, .index honPlaces honPlaces' elem bounded, fun P Q hP hQ => by
      rw [Expr.tellLengths, htold P Q hP hQ, htold' P Q hP hQ]⟩
  | addr _ ih =>
    obtain ⟨told, honPlaces, htold⟩ := ih
    exact ⟨_, .addr honPlaces, fun P Q hP hQ => by rw [Expr.tellLengths, htold P Q hP hQ]⟩
  | strLen _ ih =>
    obtain ⟨told, honPlaces, htold⟩ := ih
    exact ⟨_, .strLen honPlaces, fun P Q hP hQ => by rw [Expr.tellLengths, htold P Q hP hQ]⟩
  | strPtr _ ih =>
    obtain ⟨told, honPlaces, htold⟩ := ih
    exact ⟨_, .strPtr honPlaces, fun P Q hP hQ => by rw [Expr.tellLengths, htold P Q hP hQ]⟩
  | binary op _ _ ih ih' =>
    obtain ⟨told, honPlaces, htold⟩ := ih
    obtain ⟨told', honPlaces', htold'⟩ := ih'
    exact ⟨_, .binary op honPlaces honPlaces', fun P Q hP hQ => by
      rw [Expr.tellLengths, htold P Q hP hQ, htold' P Q hP hQ]⟩
  | @call callee args hargs ih =>
    choose! told honPlaces htold using ih
    -- Only calls change: what they tell of the lengths is on the same places.
    obtain ⟨more, hmore, hlengths⟩ := exists_lengthsToTell callee hargs
    have hall : ∀ arg ∈ args.map told ++ more, OnPlaces arg :=
      List.forall_mem_append.2 ⟨List.forall_mem_map.2 honPlaces, hmore⟩
    refine ⟨_, .call callee hall, fun P Q hP hQ => ?_⟩
    rw [Expr.tellLengths, hlengths P Q hP hQ, List.map_append, Expr.tellAll_eq_map, List.map_map,
      List.map_map]
    exact congrArg (fun init => Expr.call callee (init ++ _))
      (List.map_congr_left fun arg harg => htold arg harg P Q hP hQ)

/-! ### Instrumented checks -/

section Checks

variable {check check' : Expr → Except RequestError Expr} {unroll len : Nat} {last : Bool}
  {stmts : List Stmt}

theorem tellAll_append (a b : List Stmt) :
    Stmt.tellAll (a ++ b) = Stmt.tellAll a ++ Stmt.tellAll b := by
  simp only [Stmt.tellAll_eq_map, List.map_append]

theorem tellAll_replicate_flatten (n : Nat) (round : List Stmt) :
    Stmt.tellAll (List.replicate n round).flatten =
      (List.replicate n (Stmt.tellAll round)).flatten := by
  rw [Stmt.tellAll_eq_map, List.map_flatten, List.map_replicate, Stmt.tellAll_eq_map]

theorem isLoop_tellLengths (stmt : Stmt) : stmt.tellLengths.isLoop = stmt.isLoop := by
  cases stmt with
  | ret value => cases value <;> rfl
  | _ => rfl

theorem any_isLoop_tellAll (stmts : List Stmt) :
    (Stmt.tellAll stmts).any Stmt.isLoop = stmts.any Stmt.isLoop := by
  rw [Stmt.tellAll_eq_map, List.any_map]
  exact congrArg stmts.any (funext isLoop_tellLengths)

theorem HasVars.tell {frame : Frame} (h : HasVars last stmts frame) :
    HasVars last (Stmt.tellAll stmts) frame where
  result := h.result
  counter hloop := h.counter (any_isLoop_tellAll stmts ▸ hloop)

theorem checkLoop_tell {bound : Nat}
    (h : ∀ e, check (.var i) = .ok e → check' (.var i) = .ok e.tellLengths)
    (hstmts : checkLoop unroll bound check = .ok stmts) :
    checkLoop unroll bound check' = .ok (Stmt.tellAll stmts) := by
  obtain ⟨condition, hcondition, hstmts⟩ := bind_eq_ok_iff.1 hstmts
  cases hstmts
  rw [checkLoop, h condition hcondition]
  simp only [Stmt.tellAll, Stmt.tellLengths, Stmt.tellOption, Expr.tellLengths,
    tellAll_replicate_flatten, Stmt.tellLengths_guard]
  rfl

theorem checkEach_tell
    (h : ∀ j e, check (.const (UInt64.ofNat j)) = .ok e →
      check' (.const (UInt64.ofNat j)) = .ok e.tellLengths)
    {js : List Nat} (hstmts : checkEach last check js = .ok stmts) :
    checkEach last check' js = .ok (Stmt.tellAll stmts) := by
  fun_induction checkEach last check js generalizing stmts with
  | case1 =>
    cases hstmts
    cases last <;> rfl
  | case2 j =>
    obtain ⟨condition, hcondition, hstmts⟩ := bind_eq_ok_iff.1 hstmts
    cases hstmts
    rw [checkEach, h j condition hcondition]
    cases last <;> rfl
  | case3 j js hne ih =>
    obtain ⟨condition, hcondition, hstmts⟩ := bind_eq_ok_iff.1 hstmts
    obtain ⟨rest, hrest, hstmts⟩ := bind_eq_ok_iff.1 hstmts
    cases hstmts
    rw [checkEach, h j condition hcondition, ih hrest]
    · rfl
    · exact hne

/-- The instrumented checks of an array check the instrumented conditions. -/
theorem checkAll_tell (h : ∀ position e, position.containsCall = false → check position = .ok e →
      check' position = .ok e.tellLengths)
    (hstmts : checkAll unroll last len check = .ok stmts) :
    checkAll unroll last len check' = .ok (Stmt.tellAll stmts) := by
  obtain ⟨loop, each, hloop, heach, rfl⟩ := checkAll_eq_ok hstmts
  have heach' := checkEach_tell (fun j e => h _ e rfl) heach
  rw [checkAll, tellAll_append]
  dsimp only
  split at hloop
  · next hbound =>
    cases hloop
    rw [if_pos hbound]
    exact bind_eq_ok_iff.2 ⟨[], rfl, bind_eq_ok_iff.2 ⟨_, heach', rfl⟩⟩
  · next hbound =>
    have hloop' := checkLoop_tell (fun e => h _ e rfl) hloop
    rw [if_neg hbound]
    exact bind_eq_ok_iff.2 ⟨_, hloop', bind_eq_ok_iff.2 ⟨_, heach', rfl⟩⟩

theorem check_of_checkEach {j : Nat} {js : List Nat}
    (h : checkEach last check (j :: js) = .ok stmts) :
    ∃ e, check (.const (UInt64.ofNat j)) = .ok e := by
  cases js with
  | nil | cons =>
    obtain ⟨e, he, _⟩ := bind_eq_ok_iff.1 h
    exact ⟨e, he⟩

/-- If an array has any elements, some condition was built. -/
theorem exists_of_checkAll (hlen : 0 < len) (hstmts : checkAll unroll last len check = .ok stmts) :
    ∃ position e, check position = .ok e := by
  obtain ⟨loop, each, hloop, heach, rfl⟩ := checkAll_eq_ok hstmts
  split at hloop
  · next hbound =>
    obtain ⟨n, rfl⟩ := Nat.exists_eq_add_one_of_ne_zero (Nat.ne_of_gt hlen)
    rw [hbound, Nat.sub_zero, List.range'_succ] at heach
    exact ⟨_, check_of_checkEach heach⟩
  · obtain ⟨e, he, _⟩ := bind_eq_ok_iff.1 hloop
    exact ⟨_, e, he⟩

end Checks

namespace Interpreter

variable {table : TypeTable} {arena : Arena} {alarm : EvalM Word}
  {call : Callee → List Word → EvalM Word} {result : Option Nat} {frame : Frame}

/-! ### Conditions in order -/

section InOrder

variable {es : List Expr} {e : Expr}

theorem QuietInOrder.head (h : QuietInOrder table arena alarm call frame (e :: es)) :
    Quiet table arena alarm call frame e :=
  h [] e es rfl nofun

theorem QuietInOrder.tail (h : QuietInOrder table arena alarm call frame (e :: es))
    (he : CanHold table arena call frame e) : QuietInOrder table arena alarm call frame es :=
  fun before e' after heq hbefore =>
    h (e :: before) e' after (by rw [heq, List.cons_append]) (List.forall_mem_cons.2 ⟨he, hbefore⟩)

theorem execAll_tell_result (h : Quiet table arena alarm call frame e) (hr : r < frame.length) :
    execAll table arena (monitored alarm call) result (Stmt.tellAll [.assign r e]) frame =
      execAll table arena call result [.assign r e] frame := by
  rw [Stmt.tellAll, Stmt.tellLengths, Stmt.tellAll, execAll_assign hr, execAll_assign hr, h]
  refine bind_congr fun word => ?_
  rw [execAll, execAll]

/-- Conditions that are quiet in order are checked quietly. -/
theorem execAll_tell_checkConditions (h : QuietInOrder table arena alarm call frame es)
    (hr : r < frame.length) :
    execAll table arena (monitored alarm call) result
        (Stmt.tellAll (TypeTable.checkConditions es)) frame =
      execAll table arena call result (TypeTable.checkConditions es) frame := by
  fun_induction TypeTable.checkConditions es with
  | case1 => exact execAll_tell_result (quiet_of_callFree rfl) hr
  | case2 condition => exact execAll_tell_result h.head hr
  | case3 condition conditions _ ih =>
    rw [Stmt.tellAll, Stmt.tellLengths_guard, execAll_guard, execAll_guard, h.head]
    refine bind_congr_of_ok fun s s' word hword => ?_
    split
    · rfl
    · next hne => exact ih (h.tail ⟨s, s', word, hword, hne⟩)

end InOrder

/-! ### Passes over an array -/

section PlainLoop

variable {holds holds' : Nat → EvalM Word} {word last : Word} {j n k : Nat} {s s' : Session}

theorem plainLoop_congr (h : ∀ k, j ≤ k → k < j + n → holds k = holds' k) :
    plainLoop holds word j n = plainLoop holds' word j n := by
  induction n generalizing j word with
  | zero => rw [plainLoop, plainLoop]
  | succ n ih =>
    rw [plainLoop, plainLoop, h j (Nat.le_refl j) (by omega)]
    refine bind_congr fun word => ?_
    split
    · rfl
    · exact ih fun k hk hlt => h k (by omega) (by omega)

/-- A plain loop ends with a check that holds only if all checks can hold. -/
theorem holds_of_plainLoop (h : plainLoop holds word j n s = (.ok (k, last), s')) (hlast : last ≠ 0)
    {index : Nat} (hle : j ≤ index) (hlt : index < j + n) :
    ∃ s s' word, holds index s = (.ok word, s') ∧ word ≠ 0 := by
  induction n generalizing j word s with
  | zero => omega
  | succ n ih =>
    rw [plainLoop, bind_apply] at h
    split at h
    · next word' s₁ hholds =>
      split at h
      · next hzero =>
        cases h
        exact absurd hzero hlast
      · next hone =>
        rcases Nat.eq_or_lt_of_le hle with rfl | hlt'
        · exact ⟨s, s₁, word', hholds, hone⟩
        · exact ih h hlt' (by omega)
    · cases h

end PlainLoop

theorem plainPlace_elementOf (id : Nat) (ty elem : TypeId) {position : Expr}
    (h : position.containsCall = false) : PlainPlace (elementOf id ty elem position) where
  isPlace := rfl
  callFree := by
    simp only [elementOf, Expr.elem, Expr.containsCall, h, Bool.or_self]

section Array

variable {check check' : Expr → Expr → Except RequestError Expr} {ty elem : TypeId}
  {unroll unroll' : Nat} {last : Bool} {len : Word} {stmts stmts' : List Stmt}

/-- The instrumented checks of an array are those of one condition on places. -/
theorem exists_tell_checkAll (hbuilds : BuildsOnPlaces check) (halike : BuildsAlike check)
    (hstmts : checkAll unroll last len.toNat (atElements ty elem check) = .ok stmts) :
    ∃ told, OnPlaces told ∧
      checkAll unroll last len.toNat (atElements ty elem fun P Q => return told P Q) =
        .ok (Stmt.tellAll stmts) ∧
      ∀ position, position.containsCall = false →
        conditionAt told ty elem position =
          (conditionAt (codeOf check) ty elem position).tellLengths := by
  obtain ⟨told, htold, heq⟩ := (onPlaces_codeOf hbuilds halike).exists_tellLengths
  have hconditionAt : ∀ position, position.containsCall = false →
      conditionAt told ty elem position = (conditionAt (codeOf check) ty elem position).tellLengths :=
    fun position hposition => (heq _ _ (plainPlace_elementOf p ty elem hposition)
      (plainPlace_elementOf q ty elem hposition)).symm
  refine ⟨told, htold, checkAll_tell (fun position e hposition he => ?_) hstmts, hconditionAt⟩
  rw [← codeOf_of_ok he]
  exact congrArg Except.ok (hconditionAt position hposition)

/-- If every condition that is built is quiet, so is every check. -/
theorem quiet_codeOf {P Q : Expr}
    (h : ∀ e, check P Q = .ok e → Quiet table arena alarm call frame e) :
    Quiet table arena alarm call frame (codeOf check P Q) := by
  cases hcheck : check P Q with
  | error _ =>
    rw [codeOf, hcheck]
    exact quiet_of_callFree rfl
  | ok e =>
    rw [codeOf_of_ok hcheck]
    exact h e hcheck

variable (hbuilds : BuildsOnPlaces check) (halike : BuildsAlike check) (hunroll : 0 < unroll)
  (hquiet : ∀ P Q e, PlainPlace P → PlainPlace Q → check P Q = .ok e →
    Quiet table arena alarm call frame e)
include hbuilds halike hunroll hquiet

/-- One pass over an array. -/
theorem execAll_tell_one
    (hstmts : checkAll unroll last len.toNat (atElements ty elem check) = .ok stmts)
    (hframe : HasVars last stmts frame) :
    execAll table arena (monitored alarm call) result (Stmt.tellAll stmts) frame =
      execAll table arena call result stmts frame := by
  obtain ⟨told, htold, htell, heq⟩ := exists_tell_checkAll hbuilds halike hstmts
  have hruns := runsPlainly_checkAll (buildsAs_codeOf check) (onPlaces_codeOf hbuilds halike) hunroll
    hstmts
  have hruns' := runsPlainly_checkAll (buildsAs_return told) htold hunroll htell
  rw [hruns.runs hframe, hruns'.runs hframe.tell]
  refine congrArg _ (plainLoop_congr fun j _ _ => ?_)
  rw [checkAt, checkAt, heq _ rfl]
  exact quiet_codeOf fun e => hquiet _ _ e (plainPlace_elementOf _ ty elem rfl)
    (plainPlace_elementOf _ ty elem rfl)

/-- Two passes over an array, the second of which is quiet at elements at which the first one can
    hold. -/
theorem execAll_tell_two (hbuilds' : BuildsOnPlaces check') (halike' : BuildsAlike check')
    (hunroll' : 0 < unroll')
    (hquiet' : ∀ P Q e e', PlainPlace P → PlainPlace Q → check P Q = .ok e →
      CanHold table arena call frame e → check' P Q = .ok e' → Quiet table arena alarm call frame e')
    (hstmts : checkAll unroll false len.toNat (atElements ty elem check) = .ok stmts)
    (hstmts' : checkAll unroll' last len.toNat (atElements ty elem check') = .ok stmts')
    (hframe : HasVars last (stmts ++ stmts') frame) :
    execAll table arena (monitored alarm call) result (Stmt.tellAll (stmts ++ stmts')) frame =
      execAll table arena call result (stmts ++ stmts') frame := by
  have hfirst : HasVars false stmts frame := ⟨nofun, fun h => hframe.counter (by simp [h])⟩
  have hsecond : HasVars last stmts' frame := ⟨hframe.result, fun h => hframe.counter (by simp [h])⟩
  obtain ⟨told, htold, htell, heq⟩ := exists_tell_checkAll hbuilds halike hstmts
  obtain ⟨told', htold', htell', heq'⟩ := exists_tell_checkAll hbuilds' halike' hstmts'
  have hruns : RunsBefore (codeOf check) ty elem unroll len stmts (codeOf check') unroll' last stmts' :=
    runsBefore_checkAll (buildsAs_codeOf check) (onPlaces_codeOf hbuilds halike) hunroll hstmts
      (buildsAs_codeOf check') (onPlaces_codeOf hbuilds' halike') hunroll' hstmts'
  have hruns' : RunsBefore told ty elem unroll len (Stmt.tellAll stmts) told' unroll' last
      (Stmt.tellAll stmts') :=
    runsBefore_checkAll (buildsAs_return told) htold hunroll htell (buildsAs_return told') htold'
      hunroll' htell'
  have hplace : ∀ id j, PlainPlace (elementOf id ty elem (.const (UInt64.ofNat j))) := fun id j =>
    plainPlace_elementOf id ty elem rfl
  have hchecks : checkAt table arena (monitored alarm call) frame told ty elem =
      checkAt table arena call frame (codeOf check) ty elem := by
    funext j
    rw [checkAt, checkAt, heq _ rfl]
    exact quiet_codeOf fun e => hquiet _ _ e (hplace p j) (hplace q j)
  rw [tellAll_append, hruns hfirst hsecond, hruns' hfirst.tell hsecond.tell, hchecks]
  refine bind_congr_of_ok fun s s' left hleft => ?_
  obtain ⟨k, word⟩ := left
  dsimp only
  split
  · rfl
  · next hword =>
    -- The second pass is made only if the first one found no difference.
    refine congrArg _ (plainLoop_congr fun j _ hj => ?_)
    rw [Nat.zero_add] at hj
    obtain ⟨position, e, he⟩ := exists_of_checkAll (Nat.zero_lt_of_lt hj) hstmts
    obtain ⟨e', he'⟩ := halike _ _ (elementOf p ty elem (.const (UInt64.ofNat j)))
      (elementOf q ty elem (.const (UInt64.ofNat j))) e he
    have hhold := holds_of_plainLoop hleft hword (Nat.zero_le j) (by omega)
    rw [checkAt, conditionAt, codeOf_of_ok he'] at hhold
    rw [checkAt, checkAt, heq' _ rfl]
    exact quiet_codeOf fun e'' => hquiet' _ _ e' e'' (hplace p j) (hplace q j) he' hhold

end Array

/-! ### Whole functions -/

theorem eq_ok_of_liftM {α : Type} {x : Except EvalError α} {a : α} {s s' : Session}
    (h : (liftM x : EvalM α) s = (.ok a, s')) : x = .ok a := by
  cases x with
  | error e => cases h
  | ok b =>
    cases h
    rfl

section Run

variable {call' : Callee → List Word → EvalM Word} {f f' : Function} {body body' : List Stmt}

/-- Two functions run alike if their statements do that are run first, and those behind each label. -/
theorem runFrom_congr (hlabels : ∀ label, fromLabel f' label = fromLabel f label)
    (hresult : f'.result = f.result)
    (hrest : ∀ label rest, fromLabel f label = .ok rest → ∀ frame,
      execAll table arena call' f.result rest frame = execAll table arena call f.result rest frame)
    (hbody : execAll table arena call' f.result body' frame =
      execAll table arena call f.result body frame) (jumps : Nat) :
    runFrom table arena call' f' jumps body' frame = runFrom table arena call f jumps body frame := by
  induction jumps generalizing body body' frame with
  | zero => rw [runFrom, runFrom, hresult, hbody]
  | succ jumps ih =>
    rw [runFrom, runFrom, hresult, hbody]
    refine bind_congr fun left => ?_
    obtain ⟨flow, frame'⟩ := left
    cases flow with
    | next | ret value => rfl
    | goto label =>
      dsimp only
      rw [hlabels label]
      exact bind_congr_of_ok fun s s' rest hlabel =>
        ih (hrest label rest (eq_ok_of_liftM hlabel) frame')

end Run

theorem execAll_congr {call' : Callee → List Word → EvalM Word} {body : List Stmt}
    (h : ∀ stmt ∈ body, ∀ frame, exec table arena call' result stmt frame =
      exec table arena call result stmt frame) (frame : Frame) :
    execAll table arena call' result body frame = execAll table arena call result body frame := by
  induction body generalizing frame with
  | nil => rw [execAll, execAll]
  | cons stmt body ih =>
    obtain ⟨hstmt, hbody⟩ := List.forall_mem_cons.1 h
    rw [execAll, execAll, hstmt]
    refine bind_congr fun left => ?_
    obtain ⟨flow, frame'⟩ := left
    cases flow with
    | next => exact ih hbody frame'
    | goto label | ret value => rfl

/-- Nothing is called at the end of a function. -/
theorem exec_equalityEnd {call' : Callee → List Word → EvalM Word} {back : Bool} :
    ∀ stmt ∈ TypeTable.equalityEnd back, ∀ frame,
      exec table arena call' result stmt frame = exec table arena call result stmt frame := by
  intro stmt hstmt frame
  simp only [TypeTable.equalityEnd, List.mem_cons, List.not_mem_nil, or_false] at hstmt
  rcases hstmt with rfl | rfl | rfl | rfl | rfl
  · rw [exec, exec]
  · simp only [exec]
  · rw [exec, exec]
  · rw [exec, exec, eval_bool, eval_bool]
  · cases back <;> simp only [Bool.false_eq_true, if_true, if_false, exec]

theorem mem_of_fromLabel {f : Function} {label : Nat} {rest : List Stmt}
    (h : fromLabel f label = .ok rest) : ∀ stmt ∈ rest, stmt ∈ f.body := by
  unfold fromLabel at h
  split at h
  · split at h <;> cases h
  · cases h
    exact fun stmt hstmt => (List.dropWhile_sublist _).subset hstmt

theorem unlabelled_tellAll {stmts : List Stmt} (h : Unlabelled stmts) :
    Unlabelled (Stmt.tellAll stmts) := by
  intro id hid
  rw [Stmt.tellAll_eq_map] at hid
  obtain ⟨stmt, hstmt, heq⟩ := List.mem_map.1 hid
  cases stmt with
  | label id' =>
    cases heq
    exact h id hstmt
  | ret value => cases value <;> cases heq
  | _ => cases heq

theorem tellAll_equalityEnd (back : Bool) :
    Stmt.tellAll (TypeTable.equalityEnd back) = TypeTable.equalityEnd back := by
  cases back <;> rfl

/-- A function that makes its checks quietly runs quietly. -/
theorem run_tell {f : Function} {checks : List Stmt} {back : Bool} {args : List Word}
    (hbody : f.body = checks ++ TypeTable.equalityEnd back) (hlabels : Unlabelled checks)
    (hchecks : ∀ frame, f.vars.length ≤ frame.length →
      execAll table arena (monitored alarm call) f.result (Stmt.tellAll checks) frame =
        execAll table arena call f.result checks frame) :
    run table arena (monitored alarm call) f.tellLengths args = run table arena call f args := by
  have htold : f.tellLengths.body = Stmt.tellAll checks ++ TypeTable.equalityEnd back := by
    rw [Function.tellLengths, hbody, tellAll_append, tellAll_equalityEnd]
  -- Labels stand behind the checks only, where nothing is told.
  have hlabel : ∀ label, fromLabel f.tellLengths label = fromLabel f label := by
    intro label
    rw [fromLabel_append hbody hlabels, fromLabel_append htold (unlabelled_tellAll hlabels)]
    rfl
  have hend : ∀ frame, execAll table arena (monitored alarm call) f.result (TypeTable.equalityEnd back)
      frame = execAll table arena call f.result (TypeTable.equalityEnd back) frame :=
    execAll_congr exec_equalityEnd
  rw [run, run]
  change (if args.length ≠ f.params then _ else runFrom _ _ _ _ _ _ (args ++ List.replicate
    (f.vars.length - args.length) 0)) = _
  split
  · rfl
  · have hframe : f.vars.length ≤ (args ++ List.replicate (f.vars.length - args.length) 0).length := by
      rw [List.length_append, List.length_replicate]
      omega
    refine runFrom_congr hlabel rfl (fun label rest hrest => execAll_congr fun stmt hstmt => ?_) ?_ _
    · rw [fromLabel_append hbody hlabels] at hrest
      exact exec_equalityEnd stmt (mem_of_fromLabel hrest stmt hstmt)
    · rw [htold, hbody, execAll_append, execAll_append, hchecks _ hframe]
      refine bind_congr fun left => ?_
      obtain ⟨flow, frame⟩ := left
      cases flow with
      | next => exact hend frame
      | goto label | ret value => rfl

end Interpreter

end HashEq

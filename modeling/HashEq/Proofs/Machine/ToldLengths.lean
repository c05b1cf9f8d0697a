import HashEq.Proofs.Machine.Evaluation
import Mathlib.Data.List.Induction

/-!
# Calls that are told lengths

Whether the bytes of two strings are compared only when the strings are equally long
shows in no answer: a comparison that reads on behind the shorter string still answers
something. To make it show, the code is instrumented. Every call that compares memory
at the bytes of two strings is told how long the strings are, by further arguments that
are evaluated with the others, and a monitor in front of the calls raises an alarm
unless exactly that many bytes are compared.

* `Expr.tellLengths`, `Function.tellLengths`: the instrumented code;
* `monitored`: the monitor;
* `settled_operand`: what contains no call comes to the same whatever is called;
* `Quiet`: under the monitor an instrumented expression comes to the same as the
  expression itself;
* `quiet_contents`, `alarm_of_lengths_ne`: the bytes of two strings are compared quietly
  once the comparison of their lengths can hold, and raise the alarm if it does not;
* `quiet_elementEqual`, `quiet_condition`: the conditions of equality functions.
-/

namespace HashEq

/-! ### Instrumented code -/

/-- Further arguments for a call: how long two strings are whose bytes it compares. -/
def Callee.lengthsToTell : Callee → List Expr → List Expr
  | .primitive ⟨.equality, .memory⟩, [.strPtr P, .strPtr Q, _] => [.strLen P, .strLen Q]
  | _, _ => []

theorem Callee.lengthsToTell_of_ne {callee : Callee} (h : callee ≠ .primitive ⟨.equality, .memory⟩)
    (args : List Expr) : callee.lengthsToTell args = [] := by
  unfold lengthsToTell
  split
  · exact absurd rfl h
  · rfl

theorem Callee.lengthsToTell_eq_nil {args : List Expr}
    (h : ∀ P Q size, args ≠ [.strPtr P, .strPtr Q, size]) (callee : Callee) :
    callee.lengthsToTell args = [] := by
  unfold lengthsToTell
  split
  · next P Q size => exact absurd rfl (h P Q size)
  · rfl

namespace Expr

mutual

/-- Tells every call that compares the bytes of two strings how long they are. -/
def tellLengths : Expr → Expr
  | var id => var id
  | const value => const value
  | bool value => bool value
  | deref pointer ty => deref pointer.tellLengths ty
  | field base owner position => field base.tellLengths owner position
  | index base position elem bounded => index base.tellLengths position.tellLengths elem bounded
  | addr place => addr place.tellLengths
  | strLen place => strLen place.tellLengths
  | strPtr place => strPtr place.tellLengths
  | binary op lhs rhs => binary op lhs.tellLengths rhs.tellLengths
  | call callee args => call callee (tellAll args ++ callee.lengthsToTell args)

/-- Instruments a list of expressions. -/
def tellAll : List Expr → List Expr
  | [] => []
  | e :: es => e.tellLengths :: tellAll es

end

theorem tellAll_eq_map (es : List Expr) : tellAll es = es.map tellLengths := by
  induction es with
  | nil => rfl
  | cons e es ih => rw [tellAll, List.map_cons, ih]

/-- Where nothing is called, nothing is told. -/
theorem tellLengths_of_callFree : ∀ {e : Expr}, e.containsCall = false → e.tellLengths = e
  | var _, _ | const _, _ | bool _, _ => by rw [tellLengths]
  | deref e _, h | field e _ _, h | addr e, h | strLen e, h | strPtr e, h => by
    rw [tellLengths, tellLengths_of_callFree (e := e) h]
  | index base position _ _, h => by
    rw [containsCall, Bool.or_eq_false_iff] at h
    rw [tellLengths, tellLengths_of_callFree h.1, tellLengths_of_callFree h.2]
  | binary _ lhs rhs, h => by
    rw [containsCall, Bool.or_eq_false_iff] at h
    rw [tellLengths, tellLengths_of_callFree h.1, tellLengths_of_callFree h.2]

end Expr

namespace Stmt

mutual

/-- Instruments all expressions of a statement. -/
def tellLengths : Stmt → Stmt
  | assign target value => assign target value.tellLengths
  | branch cond yes no => branch cond.tellLengths (tellAll yes) (tellAll no)
  | loop init cond post body =>
    loop (tellOption init) cond.tellLengths (tellOption post) (tellAll body)
  | label id => label id
  | goto id => goto id
  | ret none => ret none
  | ret (some value) => ret (some value.tellLengths)

/-- Instruments a statement that may be missing. -/
def tellOption : Option Stmt → Option Stmt
  | none => none
  | some stmt => some (tellLengths stmt)

/-- Instruments a list of statements. -/
def tellAll : List Stmt → List Stmt
  | [] => []
  | stmt :: body => tellLengths stmt :: tellAll body

end

theorem tellAll_eq_map (body : List Stmt) : tellAll body = body.map tellLengths := by
  induction body with
  | nil => rfl
  | cons stmt body ih => rw [tellAll, List.map_cons, ih]

theorem tellLengths_guard (cond : Expr) (label : Nat) :
    (guard cond label).tellLengths = guard cond.tellLengths label := by
  simp only [guard, tellLengths, tellAll]

end Stmt

/-- The instrumented function. -/
def Function.tellLengths (f : Function) : Function :=
  { f with body := Stmt.tellAll f.body }

/-- Makes calls, but raises an alarm instead of comparing memory at the bytes of two strings unless
    as many bytes are compared as both strings have. Calls that are told nothing are just made. -/
def monitored (alarm : EvalM Word) (call : Callee → List Word → EvalM Word) :
    Callee → List Word → EvalM Word
  | .primitive ⟨.equality, .memory⟩, [p, q, size, pLen, qLen] =>
    if size = pLen ∧ size = qLen then call (.primitive ⟨.equality, .memory⟩) [p, q, size] else alarm
  | callee, args => call callee args

namespace Interpreter

variable {table : TypeTable} {arena : Arena} {alarm : EvalM Word}
  {call : Callee → List Word → EvalM Word} {frame : Frame}

/-! ### Expressions without calls -/

/-- Whatever is called, an evaluation comes to the same, and it leaves the session alone. -/
def Settled {α : Type} (m : (Callee → List Word → EvalM Word) → EvalM α) : Prop :=
  ∃ answer : Except EvalError α, ∀ call, m call = liftM answer

namespace Settled

variable {α β : Type} {m : (Callee → List Word → EvalM Word) → EvalM α}
  {next : α → (Callee → List Word → EvalM Word) → EvalM β}

theorem lift (answer : Except EvalError α) : Settled fun _ => liftM answer :=
  ⟨answer, fun _ => rfl⟩

theorem pure (a : α) : Settled fun _ => Pure.pure a :=
  lift (.ok a)

theorem throw (e : EvalError) : Settled (α := α) fun _ => MonadExcept.throw e :=
  lift (.error e)

theorem bind (h : Settled m) (hnext : ∀ a, Settled (next a)) :
    Settled fun call => m call >>= fun a => next a call := by
  obtain ⟨answer, hanswer⟩ := h
  cases answer with
  | error e => exact ⟨.error e, fun call => congrArg (· >>= fun a => next a call) (hanswer call)⟩
  | ok a =>
    obtain ⟨answer, hanswer'⟩ := hnext a
    exact ⟨answer, fun call =>
      (congrArg (· >>= fun a => next a call) (hanswer call)).trans (hanswer' call)⟩

theorem eq (h : Settled m) (call call' : Callee → List Word → EvalM Word) : m call' = m call := by
  obtain ⟨answer, hanswer⟩ := h
  rw [hanswer, hanswer]

end Settled

theorem settled_wordOf {operand : (Callee → List Word → EvalM Word) → EvalM Operand}
    (h : Settled operand) : Settled fun call => wordOf table arena (operand call) :=
  h.bind fun _ => .lift _

theorem settled_placeOf {operand : (Callee → List Word → EvalM Word) → EvalM Operand} (e : Expr)
    (h : Settled operand) : Settled fun call => placeOf e (operand call) := by
  unfold placeOf
  split
  · exact h.bind fun _ => .lift _
  · exact .throw _

section CallFree

variable (table : TypeTable) (arena : Arena) (frame : Frame)

/-- What contains no call comes to the same whatever is called. -/
theorem settled_operand : ∀ {e : Expr}, e.containsCall = false →
    Settled fun call => operand table arena call frame e
  | .var id, _ => by
    simp only [operand]
    split
    · exact .pure _
    · exact .throw _
  | .const _, _ | .bool _, _ => by
    simp only [operand]
    exact .pure _
  | .deref pointer _, h => by
    have hpointer := settled_operand (e := pointer) h
    simp only [operand]
    exact (settled_wordOf hpointer).bind fun _ => .pure _
  | .field base _ _, h => by
    have hbase := settled_operand (e := base) h
    simp only [operand]
    exact (settled_placeOf base hbase).bind fun _ => .lift _
  | .index base position _ _, h => by
    rw [Expr.containsCall, Bool.or_eq_false_iff] at h
    have hbase := settled_operand h.1
    have hposition := settled_operand h.2
    simp only [operand]
    exact (settled_placeOf base hbase).bind fun _ => (settled_wordOf hposition).bind fun _ => .lift _
  | .addr place, h => by
    have hplace := settled_operand (e := place) h
    simp only [operand]
    exact (settled_placeOf place hplace).bind fun _ => .pure _
  | .strLen place, h | .strPtr place, h => by
    have hplace := settled_operand (e := place) h
    simp only [operand]
    exact (settled_placeOf place hplace).bind fun _ => (Settled.lift _).bind fun _ => .pure _
  | .binary op lhs rhs, h => by
    rw [Expr.containsCall, Bool.or_eq_false_iff] at h
    have hlhs := settled_operand h.1
    have hrhs := settled_operand h.2
    cases op with
    | eq =>
      simp only [operand]
      -- Two places are compared by their contents, anything else as words.
      split
      · refine hlhs.bind fun a => hrhs.bind fun b => (Settled.lift _).bind fun p =>
          (Settled.lift _).bind fun q => ?_
        split
        · exact (Settled.throw _).bind fun _ => (Settled.lift _).bind fun _ => .pure _
        · exact (Settled.lift _).bind fun _ => .pure _
      · exact (settled_wordOf hlhs).bind fun _ => (settled_wordOf hrhs).bind fun _ => .pure _
    | lt | add =>
      simp only [operand]
      exact (settled_wordOf hlhs).bind fun _ => (settled_wordOf hrhs).bind fun _ => .pure _
    | and =>
      simp only [operand]
      refine (settled_wordOf hlhs).bind fun word => ?_
      split
      · exact .pure _
      · exact (settled_wordOf hrhs).bind fun _ => .pure _

theorem settled_eval {e : Expr} (h : e.containsCall = false) :
    Settled fun call => eval table arena call frame e :=
  settled_wordOf (settled_operand table arena frame h)

end CallFree

/-! ### Evaluations in steps -/

/-- Only answers that can be given matter to what follows. -/
theorem bind_congr_of_ok {α β : Type} {m : EvalM α} {next next' : α → EvalM β}
    (h : ∀ s s' a, m s = (.ok a, s') → next a = next' a) : m >>= next = m >>= next' := by
  funext s
  rw [bind_apply, bind_apply]
  split
  · next a s' hm => rw [h s s' a hm]
  · rfl

theorem words_cons_eq (e : Expr) (es : List Expr) :
    words table arena call frame (e :: es) = eval table arena call frame e >>= fun value =>
      words table arena call frame es >>= fun values => pure (value :: values) := by
  rw [words, eval]

theorem eval_call_eq (callee : Callee) (args : List Expr) :
    eval table arena call frame (.call callee args) =
      words table arena call frame args >>= call callee := by
  rw [eval, operand, wordOf, bind_assoc]
  refine bind_congr fun values => ?_
  rw [bind_assoc]
  exact bind_pure _

theorem eval_and (lhs rhs : Expr) :
    eval table arena call frame (.binary .and lhs rhs) =
      eval table arena call frame lhs >>= fun word =>
        if word = 0 then pure 0
        else eval table arena call frame rhs >>= fun word => pure (wordOfBool (word != 0)) := by
  rw [eval, operand, wordOf, bind_assoc]
  refine bind_congr fun word => ?_
  split
  · rfl
  · rw [bind_assoc]
    rfl

theorem eval_lengthsEqual_eq (P Q : Expr) :
    eval table arena call frame (lengthsEqual P Q) =
      eval table arena call frame (.strLen P) >>= fun pLen =>
        eval table arena call frame (.strLen Q) >>= fun qLen => pure (wordOfBool (pLen == qLen)) := by
  have hwords : ¬((Expr.strLen P).isPlace && (Expr.strLen Q).isPlace) = true := Bool.false_ne_true
  rw [lengthsEqual, Expr.eq, eval, operand, if_neg hwords, wordOf, bind_assoc]
  refine bind_congr fun pLen => ?_
  rw [bind_assoc]
  rfl

/-- Arguments come to as many words. -/
theorem length_of_words {args : List Expr} {s s' : Session} {values : List Word}
    (h : words table arena call frame args s = (.ok values, s')) : values.length = args.length := by
  induction args generalizing s s' values with
  | nil =>
    rw [words] at h
    cases h
    rfl
  | cons e es ih =>
    rw [words_cons_eq, bind_apply] at h
    split at h
    · next value s'' _ =>
      rw [bind_apply] at h
      split at h
      · next values hvalues =>
        cases h
        rw [List.length_cons, List.length_cons, ih hvalues]
      · cases h
    · cases h

/-- Calls with other than five arguments are just made. -/
theorem monitored_of_length {callee : Callee} {values : List Word} (h : values.length ≠ 5) :
    monitored alarm call callee values = call callee values := by
  unfold monitored
  split
  · exact absurd rfl h
  · rfl

/-! ### Code that never raises the alarm -/

variable {P Q e e' : Expr}

/-- Under the monitor an instrumented expression comes to the same as the expression itself, so that
    the alarm is not raised. -/
def Quiet (table : TypeTable) (arena : Arena) (alarm : EvalM Word)
    (call : Callee → List Word → EvalM Word) (frame : Frame) (e : Expr) : Prop :=
  eval table arena (monitored alarm call) frame e.tellLengths = eval table arena call frame e

/-- From some session on an expression holds. -/
def CanHold (table : TypeTable) (arena : Arena) (call : Callee → List Word → EvalM Word)
    (frame : Frame) (e : Expr) : Prop :=
  ∃ s s' word, eval table arena call frame e s = (.ok word, s') ∧ word ≠ 0

theorem quiet_of_callFree (h : e.containsCall = false) : Quiet table arena alarm call frame e := by
  rw [Quiet, Expr.tellLengths_of_callFree h]
  exact (settled_eval table arena frame h).eq _ _

theorem tellAll_of_callFree {args : List Expr} (h : ∀ e ∈ args, e.containsCall = false) :
    Expr.tellAll args = args := by
  rw [Expr.tellAll_eq_map, List.map_congr_left fun e he => Expr.tellLengths_of_callFree (h e he),
    List.map_id']

theorem words_of_callFree {args : List Expr} (h : ∀ e ∈ args, e.containsCall = false)
    (call call' : Callee → List Word → EvalM Word) :
    words table arena call' frame args = words table arena call frame args := by
  induction args with
  | nil => rw [words, words]
  | cons e es ih =>
    obtain ⟨he, hes⟩ := List.forall_mem_cons.1 h
    rw [words_cons_eq, words_cons_eq, (settled_eval table arena frame he).eq call call', ih hes]

/-- Calls that are told nothing are made as ever. -/
theorem quiet_call {callee : Callee} {args : List Expr} (hargs : ∀ e ∈ args, e.containsCall = false)
    (htold : callee.lengthsToTell args = []) (hlength : args.length ≠ 5) :
    Quiet table arena alarm call frame (.call callee args) := by
  rw [Quiet, Expr.tellLengths, tellAll_of_callFree hargs, htold, List.append_nil, eval_call_eq,
    eval_call_eq, words_of_callFree hargs call]
  refine bind_congr_of_ok fun s s' values hvalues => ?_
  exact monitored_of_length (length_of_words hvalues ▸ hlength)

/-- If the comparison of their lengths can hold, two strings are equally long. -/
theorem lengths_of_canHold (hP : P.containsCall = false) (hQ : Q.containsCall = false)
    (h : CanHold table arena call frame (lengthsEqual P Q)) :
    ∃ len, ∀ call, eval table arena call frame (.strLen P) = pure len ∧
      eval table arena call frame (.strLen Q) = pure len := by
  obtain ⟨p, hp⟩ : Settled fun call => eval table arena call frame (.strLen P) :=
    settled_eval table arena frame hP
  obtain ⟨q, hq⟩ : Settled fun call => eval table arena call frame (.strLen Q) :=
    settled_eval table arena frame hQ
  dsimp only at hp hq
  obtain ⟨s, s', word, h, hne⟩ := h
  rw [eval_lengthsEqual_eq, hp, hq] at h
  cases p with
  | error _ => cases h
  | ok pLen =>
    cases q with
    | error _ => cases h
    | ok qLen =>
      cases h
      have hlen : pLen = qLen := by
        by_contra hlen
        exact hne (by rw [beq_eq_false_iff_ne.2 hlen]; rfl)
      exact ⟨pLen, fun call => ⟨hp call, hlen ▸ hq call⟩⟩

/-- The bytes of two strings are compared quietly once the comparison of their lengths can hold:
    both strings have as many bytes as are compared. -/
theorem quiet_contents (hP : P.containsCall = false) (hQ : Q.containsCall = false)
    (h : CanHold table arena call frame (lengthsEqual P Q)) :
    Quiet table arena alarm call frame (contentsEqual P Q) := by
  have hargs : ∀ e ∈ [Expr.strPtr P, .strPtr Q, .strLen P], e.containsCall = false := by
    simp [Expr.containsCall, hP, hQ]
  obtain ⟨len, hlen⟩ := lengths_of_canHold hP hQ h
  have hP' := (settled_eval table arena frame (e := .strPtr P) hP).eq call (monitored alarm call)
  have hQ' := (settled_eval table arena frame (e := .strPtr Q) hQ).eq call (monitored alarm call)
  rw [Quiet, contentsEqual, Expr.tellLengths, tellAll_of_callFree hargs, Callee.lengthsToTell,
    eval_call_eq, eval_call_eq]
  simp only [List.cons_append, List.nil_append, words_cons_eq, words_nil, hlen, pure_bind,
    bind_assoc]
  rw [hP', hQ']
  refine bind_congr fun p => bind_congr fun q => ?_
  rw [monitored, if_pos ⟨rfl, rfl⟩]

/-- The alarm is raised when the bytes of two strings are to be compared that are not equally long. -/
theorem alarm_of_lengths_ne {p q pData pLen qData qLen : Word} {ty : TypeId}
    (hPfree : P.containsCall = false) (hQfree : Q.containsCall = false)
    (hP : Denotes table arena (monitored alarm call) frame P p ty)
    (hQ : Denotes table arena (monitored alarm call) frame Q q ty)
    (hp : Primitives.loadPair table arena p = .ok (pData, pLen))
    (hq : Primitives.loadPair table arena q = .ok (qData, qLen)) (hne : pLen ≠ qLen) :
    eval table arena (monitored alarm call) frame (contentsEqual P Q).tellLengths = alarm := by
  have hargs : ∀ e ∈ [Expr.strPtr P, .strPtr Q, .strLen P], e.containsCall = false := by
    simp [Expr.containsCall, hPfree, hQfree]
  rw [contentsEqual, Expr.tellLengths, tellAll_of_callFree hargs, Callee.lengthsToTell]
  refine (eval_call (words_cons (hP.eval_strPtr hp) <| words_cons (hQ.eval_strPtr hq) <|
    words_cons (hP.eval_strLen hp) <| words_cons (hP.eval_strLen hp) <|
    words_cons (hQ.eval_strLen hq) words_nil) _).trans ?_
  rw [monitored, if_neg fun h => hne h.2]

theorem quiet_and (h : Quiet table arena alarm call frame e)
    (h' : CanHold table arena call frame e → Quiet table arena alarm call frame e') :
    Quiet table arena alarm call frame (.binary .and e e') := by
  rw [Quiet, Expr.tellLengths, eval_and, eval_and, h]
  refine bind_congr_of_ok fun s s' word hword => ?_
  split
  · rfl
  · next hne => rw [h' ⟨s, s', word, hword, hne⟩]

/-- When a conjunction can hold, so can both operands. -/
theorem CanHold.of_and (h : CanHold table arena call frame (.binary .and e e')) :
    CanHold table arena call frame e ∧ CanHold table arena call frame e' := by
  obtain ⟨s, s', word, h, hne⟩ := h
  rw [eval_and, bind_apply] at h
  split at h
  · next left s₁ hleft =>
    split at h
    · -- If the left operand does not hold, neither does the conjunction.
      cases h
      exact absurd rfl hne
    · next hne' =>
      rw [bind_apply] at h
      split at h
      · next right s₂ hright =>
        refine ⟨⟨s, s₁, left, hleft, hne'⟩, s₁, s₂, right, hright, ?_⟩
        rintro rfl
        cases h
        exact hne rfl
      · cases h
  · cases h

/-! ### Conjunctions -/

/-- Each of some expressions is quiet once those before it can hold. -/
def QuietInOrder (table : TypeTable) (arena : Arena) (alarm : EvalM Word)
    (call : Callee → List Word → EvalM Word) (frame : Frame) (es : List Expr) : Prop :=
  ∀ before e after, es = before ++ e :: after →
    (∀ e' ∈ before, CanHold table arena call frame e') → Quiet table arena alarm call frame e

variable {es : List Expr}

theorem all_concat {es : List Expr} (hne : es ≠ []) (e : Expr) :
    Expr.all (es ++ [e]) = .binary .and (Expr.all es) e := by
  obtain ⟨init, last, rfl⟩ := (List.eq_nil_or_concat' es).resolve_left hne
  simp only [Expr.all, List.foldl_append, List.foldl_cons, List.foldl_nil, Option.getD_some, Expr.and]

/-- When a conjunction can hold, so can all its members. -/
theorem CanHold.of_all (h : CanHold table arena call frame (.all es)) :
    ∀ e ∈ es, CanHold table arena call frame e := by
  induction es using List.reverseRecOn with
  | nil => exact nofun
  | append_singleton es e ih =>
    by_cases hne : es = []
    · subst hne
      exact List.forall_mem_singleton.2 h
    · rw [all_concat hne] at h
      exact List.forall_mem_append.2 ⟨ih h.of_and.1, List.forall_mem_singleton.2 h.of_and.2⟩

/-- A conjunction is quiet if its members are in order. -/
theorem QuietInOrder.all (h : QuietInOrder table arena alarm call frame es) :
    Quiet table arena alarm call frame (.all es) := by
  -- Conjunctions are nested to the left, so the last member comes off first.
  induction es using List.reverseRecOn with
  | nil => exact quiet_of_callFree rfl
  | append_singleton es e ih =>
    have hinit : QuietInOrder table arena alarm call frame es := fun before e' after heq =>
      h before e' (after ++ [e]) (by rw [heq, List.append_assoc, List.cons_append])
    by_cases hne : es = []
    · subst hne
      exact h [] e [] rfl nofun
    · rw [all_concat hne]
      exact quiet_and (ih hinit) fun hall => h es e [] rfl hall.of_all

/-! ### The conditions of equality functions -/

theorem quiet_eq (hP : P.containsCall = false) (hQ : Q.containsCall = false) :
    Quiet table arena alarm call frame (.eq P Q) := by
  refine quiet_of_callFree ?_
  rw [Expr.eq, Expr.containsCall, hP, hQ, Bool.or_self]

theorem quiet_lengths (hP : P.containsCall = false) (hQ : Q.containsCall = false) :
    Quiet table arena alarm call frame (lengthsEqual P Q) :=
  quiet_eq (P := .strLen P) (Q := .strLen Q) hP hQ

theorem quiet_callAddresses (callee : Callee) (hP : P.containsCall = false)
    (hQ : Q.containsCall = false) :
    Quiet table arena alarm call frame (.call callee [.addr P, .addr Q]) := by
  refine quiet_call ?_ ?_ (by simp)
  · simp [Expr.containsCall, hP, hQ]
  · simp [Callee.lengthsToTell]

/-- Elements are compared quietly: the lengths of two strings before their bytes. -/
theorem quiet_elementEqual {ty : TypeId} (hP : P.containsCall = false) (hQ : Q.containsCall = false)
    (he : table.elementEqual ty P Q = .ok e) : Quiet table arena alarm call frame e := by
  cases TypeTable.elementEqual_cases he with
  | inPlace _ => exact quiet_eq hP hQ
  | strings _ => exact quiet_and (quiet_lengths hP hQ) (quiet_contents hP hQ)
  | interface _ | nilInterface _ | special _ _ => exact quiet_callAddresses _ hP hQ

/-- The conditions on a field are quiet, the one on the bytes of a string once the one on its length
    can hold. -/
theorem quiet_condition {owner : TypeId} {c : Condition} (hP : P.containsCall = false)
    (hQ : Q.containsCall = false) (he : c.expr table owner P Q = .ok e)
    (h : ∀ i, c = .contents i →
      CanHold table arena call frame (lengthsEqual (.field P owner i) (.field Q owner i))) :
    Quiet table arena alarm call frame e := by
  have hfields : ∀ i, (Expr.field P owner i).containsCall = false ∧
      (Expr.field Q owner i).containsCall = false := fun _ => ⟨hP, hQ⟩
  cases c with
  | same i =>
    cases he
    exact quiet_eq (hfields i).1 (hfields i).2
  | block i size =>
    cases he
    refine quiet_call ?_ ?_ (by simp)
    · simp [Expr.containsCall, hP, hQ]
    · simp [Callee.lengthsToTell]
  | lengths i =>
    cases he
    exact quiet_lengths (hfields i).1 (hfields i).2
  | contents i =>
    cases he
    exact quiet_contents (hfields i).1 (hfields i).2 (h i rfl)
  | element i ty => exact quiet_elementEqual (hfields i).1 (hfields i).2 he

end Interpreter

end HashEq

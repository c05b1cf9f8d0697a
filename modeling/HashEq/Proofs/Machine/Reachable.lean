import HashEq.Machine.Basic
import HashEq.Proofs.Session.Sequences

/-!
# Sessions that can be reached

Whatever is asked of a machine, with whatever words and on whatever memory, its
session stays sound and forgets nothing. Running code touches the session only
through the closures that interfaces ask for.

* `Keeps`: what never does a sound session any harm;
* `Fetches`: what does nothing to a session but request closures;
* `fetches_invoke`: calls, of whatever code on whatever words;
* `Machine.Request.session_after`: what a request to a machine requests of its session;
* `Machine.Reachable`: the machines that requests lead to;
* `Machine.Reachable.sound`, `Machine.Reachable.settled`: their sessions are sound
  and know all that is needed for what they know.
-/

namespace HashEq

namespace Session

variable {table : TypeTable} {s : Session} {ε α β : Type}

/-- Begun in any sound session, it leaves a sound session that has forgotten nothing. -/
def Keeps (table : TypeTable) (request : ExceptT ε (StateM Session) α) : Prop :=
  ∀ s, Sound table s → Runs table s request fun _ _ => True

/-- A request that becomes part of an evaluation. -/
theorem Runs.ofRequest {request : SessionM α} {post : Except RequestError α → Session → Prop}
    {post' : Except EvalError α → Session → Prop} (h : Runs table s request post)
    (hpost : ∀ answer s', post answer s' → post' (answer.mapError EvalError.ofRequest) s') :
    Runs table s (EvalM.ofRequest request) post' :=
  ⟨h.sound, h.grows, hpost _ _ h.post⟩

namespace Keeps

variable {request : ExceptT ε (StateM Session) α} {next : α → ExceptT ε (StateM Session) β}

theorem of_runs {post : Session → Except ε α → Session → Prop}
    (h : ∀ s, Sound table s → Runs table s request (post s)) : Keeps table request :=
  fun s hs => (h s hs).mono fun _ _ _ _ _ => trivial

/-- What needs no session does it no harm. -/
theorem const {x : Except ε α} (h : ∀ s, request s = (x, s)) : Keeps table request := by
  intro s hs
  refine ⟨?_, ?_, trivial⟩ <;> rw [h]
  · exact hs
  · exact .refl s

theorem pure (a : α) : Keeps table (pure a : ExceptT ε (StateM Session) α) :=
  const fun _ => rfl

theorem throw (e : ε) : Keeps table (throw e : ExceptT ε (StateM Session) α) :=
  const fun _ => rfl

theorem bind (h : Keeps table request) (hnext : ∀ a, Keeps table (next a)) :
    Keeps table (request >>= next) :=
  fun s hs => (h s hs).bind (fun a s' hs' _ _ => hnext a s' hs') fun _ _ _ _ _ => trivial

theorem map (f : α → β) (h : Keeps table request) : Keeps table (f <$> request) := by
  rw [map_eq_pure_bind]
  exact h.bind fun a => pure (f a)

theorem recover {handle : ε → ExceptT ε (StateM Session) α} (h : Keeps table request)
    (hhandle : ∀ e, Keeps table (handle e)) : Keeps table (tryCatch request handle) := by
  intro s hs
  have happly := tryCatch_apply request handle s
  obtain ⟨hsound, hgrows, _⟩ := h s hs
  rcases hrequest : request s with ⟨e | a, s'⟩
  · rw [hrequest] at hsound hgrows happly
    obtain ⟨hsound', hgrows', _⟩ := hhandle e s' hsound
    refine ⟨?_, ?_, trivial⟩ <;> rw [happly]
    · exact hsound'
    · exact hgrows'.trans hgrows
  · rw [hrequest] at hsound hgrows happly
    refine ⟨?_, ?_, trivial⟩ <;> rw [happly]
    · exact hsound
    · exact hgrows

end Keeps

/-! ### Requests -/

section Requests

variable (h : TypeTable.Built table)
include h

theorem keeps_generate (purpose : Purpose) (ty : TypeId) :
    Keeps table (generate table purpose ty) :=
  .of_runs fun _ hs => runs_generate h.lawful hs purpose

theorem keeps_hashClosure (ty : TypeId) : Keeps table (hashClosure table ty) :=
  .of_runs fun _ hs => runs_hashClosure h hs

theorem keeps_equalityClosure (ty : TypeId) : Keeps table (equalityClosure table ty) :=
  .of_runs fun _ hs => runs_equalityClosure h hs

theorem keeps_hashCallee (ty : TypeId) : Keeps table (hashCallee table ty) := by
  unfold hashCallee
  refine .bind (.const fun _ => rfl) fun _ => ?_
  dsimp only
  split
  · exact ((keeps_generate h .hash ty).map _).bind fun _ => .const fun _ => rfl
  · exact .const fun _ => rfl

theorem keeps_equalityCallee (ty : TypeId) : Keeps table (equalityCallee table ty) := by
  unfold equalityCallee
  refine .bind (.const fun _ => rfl) fun e => ?_
  split
  · exact .pure _
  · exact (keeps_generate h .equality ty).bind fun _ => .pure _
  · exact .bind (.const fun _ => rfl) fun _ => .throw _

theorem keeps_closuresFor (ty : TypeId) : Keeps table (closuresFor table ty) := by
  unfold closuresFor
  refine .bind (.const fun _ => rfl) fun _ => ?_
  split
  · exact .pure _
  · exact (keeps_hashClosure h ty).bind fun _ => (keeps_equalityClosure h ty).bind fun _ => .pure _

theorem keeps_generateAll (types : List TypeId) : Keeps table (generateAll table types) := by
  unfold generateAll
  have hattempt : ∀ ty, Keeps table (attempt (closuresFor table ty)) := by
    intro ty
    refine ((keeps_closuresFor h ty).map _).recover fun e => ?_
    split
    · exact .throw _
    · exact .pure _
  induction types with
  | nil => exact .pure _
  | cons ty types ih =>
    rw [List.mapM_cons]
    exact (hattempt ty).bind fun _ => ih.bind fun _ => .pure _

/-- Requests to a session do it no harm. -/
theorem keeps_run (request : Request) : Keeps table (request.run table) := by
  cases request with
  | hashClosure ty => exact keeps_hashClosure h ty
  | equalityClosure ty => exact keeps_equalityClosure h ty
  | generate purpose ty => exact keeps_generate h purpose ty
  | hashCallee ty => exact keeps_hashCallee h ty
  | equalityCallee ty => exact keeps_equalityCallee h ty
  | generateAll types => exact keeps_generateAll h types

theorem sound_after (made : List Request) (hs : Sound table s) :
    Sound table (after table made s) ∧ Extends (after table made s) s := by
  induction made generalizing s with
  | nil => exact ⟨hs, .refl s⟩
  | cons request made ih =>
    obtain ⟨hsound, hextends, _⟩ := keeps_run h request s hs
    obtain ⟨hsound', hextends'⟩ := ih hsound
    exact ⟨hsound', hextends'.trans hextends⟩

end Requests

/-! ### Requests for closures -/

/-- Requests for the closure of one type; code that runs makes no others. -/
def Request.IsClosure : Request → Prop
  | hashClosure _ | equalityClosure _ => True
  | _ => False

/-- Whatever the session, all that is done to it is to request closures. -/
def Fetches (table : TypeTable) (action : ExceptT ε (StateM Session) α) : Prop :=
  ∀ s, ∃ made : List Request, (∀ request ∈ made, request.IsClosure) ∧
    (action s).2 = after table made s

namespace Fetches

variable {action : ExceptT ε (StateM Session) α} {next : α → ExceptT ε (StateM Session) β}

theorem const {x : Except ε α} (h : ∀ s, action s = (x, s)) : Fetches table action :=
  fun s => ⟨[], fun _ hmem => absurd hmem List.not_mem_nil, by rw [h]; rfl⟩

theorem pure (a : α) : Fetches table (pure a : ExceptT ε (StateM Session) α) :=
  const fun _ => rfl

theorem throw (e : ε) : Fetches table (throw e : ExceptT ε (StateM Session) α) :=
  const fun _ => rfl

theorem ofRequest (request : Request) (hclosure : request.IsClosure) :
    Fetches table (EvalM.ofRequest (request.run table)) :=
  fun _ => ⟨[request], fun _ hmem => List.mem_singleton.1 hmem ▸ hclosure, rfl⟩

/-- What follows a first step requests closures of the session that this leaves. -/
theorem after_bind (action : ExceptT ε (StateM Session) α) (hnext : ∀ a, Fetches table (next a))
    (s : Session) :
    ∃ made : List Request, (∀ request ∈ made, request.IsClosure) ∧
      ((action >>= next) s).2 = after table made (action s).2 := by
  rw [bind_apply]
  rcases action s with ⟨e | a, s'⟩
  · exact ⟨[], fun _ hmem => absurd hmem List.not_mem_nil, rfl⟩
  · exact hnext a s'

theorem bind (h : Fetches table action) (hnext : ∀ a, Fetches table (next a)) :
    Fetches table (action >>= next) := by
  intro s
  obtain ⟨made, hmade, hs⟩ := h s
  obtain ⟨rest, hrest, hs'⟩ := after_bind action hnext s
  refine ⟨made ++ rest, fun request hmem => ?_, ?_⟩
  · exact (List.mem_append.1 hmem).elim (hmade request) (hrest request)
  · rw [hs', hs, after_append]

theorem map (f : α → β) (h : Fetches table action) : Fetches table (f <$> action) := by
  rw [map_eq_pure_bind]
  exact h.bind fun a => pure (f a)

end Fetches

end Session

/-! ### Evaluations -/

namespace Interpreter

open Session

variable {table : TypeTable} {arena : Arena} {call : Callee → List Word → EvalM Word}

theorem fetches_wordOf {operand : EvalM Operand} (h : Fetches table operand) :
    Fetches table (wordOf table arena operand) :=
  h.bind fun _ => .const fun _ => rfl

theorem fetches_placeOf (e : Expr) {operand : EvalM Operand} (h : Fetches table operand) :
    Fetches table (placeOf e operand) := by
  unfold placeOf
  split
  · exact h.bind fun _ => .const fun _ => rfl
  · exact .throw _

mutual

theorem fetches_operand (hcall : ∀ callee args, Fetches table (call callee args))
    (frame : Frame) : ∀ e : Expr, Fetches table (operand table arena call frame e)
  | .var id => by
    rw [operand]
    cases frame[id]? with
    | some value => exact .pure _
    | none => exact .throw _
  | .const value => by
    rw [operand]
    exact .pure _
  | .bool value => by
    rw [operand]
    exact .pure _
  | .deref pointer ty => by
    rw [operand]
    exact (fetches_wordOf (fetches_operand hcall frame pointer)).bind fun _ => .pure _
  | .field base owner index => by
    rw [operand]
    exact (fetches_placeOf base (fetches_operand hcall frame base)).bind fun _ => .const fun _ => rfl
  | .index base position elem bounded => by
    rw [operand]
    exact (fetches_placeOf base (fetches_operand hcall frame base)).bind fun _ =>
      (fetches_wordOf (fetches_operand hcall frame position)).bind fun _ => .const fun _ => rfl
  | .addr place => by
    rw [operand]
    exact (fetches_placeOf place (fetches_operand hcall frame place)).bind fun _ => .pure _
  | .strLen place => by
    rw [operand]
    exact (fetches_placeOf place (fetches_operand hcall frame place)).bind fun _ =>
      .bind (.const fun _ => rfl) fun _ => .pure _
  | .strPtr place => by
    rw [operand]
    exact (fetches_placeOf place (fetches_operand hcall frame place)).bind fun _ =>
      .bind (.const fun _ => rfl) fun _ => .pure _
  | .binary .and lhs rhs => by
    rw [operand]
    refine (fetches_wordOf (fetches_operand hcall frame lhs)).bind fun _ => ?_
    split
    · exact .pure _
    · exact (fetches_wordOf (fetches_operand hcall frame rhs)).bind fun _ => .pure _
  | .binary .eq lhs rhs => by
    rw [operand]
    split
    · -- Two places are compared in the arena, and words by their value.
      refine (fetches_operand hcall frame lhs).bind fun _ => (fetches_operand hcall frame rhs).bind fun _ =>
        .bind (.const fun _ => rfl) fun _ => .bind (.const fun _ => rfl) fun _ => ?_
      dsimp only
      split
      · exact .bind (.throw _) fun _ => .bind (.const fun _ => rfl) fun _ => .pure _
      · exact .bind (.const fun _ => rfl) fun _ => .pure _
    · exact (fetches_wordOf (fetches_operand hcall frame lhs)).bind fun _ =>
        (fetches_wordOf (fetches_operand hcall frame rhs)).bind fun _ => .pure _
  | .binary .lt lhs rhs => by
    rw [operand]
    exact (fetches_wordOf (fetches_operand hcall frame lhs)).bind fun _ =>
      (fetches_wordOf (fetches_operand hcall frame rhs)).bind fun _ => .pure _
  | .binary .add lhs rhs => by
    rw [operand]
    exact (fetches_wordOf (fetches_operand hcall frame lhs)).bind fun _ =>
      (fetches_wordOf (fetches_operand hcall frame rhs)).bind fun _ => .pure _
  | .call callee args => by
    rw [operand]
    exact (fetches_words hcall frame args).bind fun _ => (hcall _ _).bind fun _ => .pure _

theorem fetches_words (hcall : ∀ callee args, Fetches table (call callee args))
    (frame : Frame) : ∀ es : List Expr, Fetches table (words table arena call frame es)
  | [] => by
    rw [words]
    exact .pure _
  | e :: es => by
    rw [words]
    exact (fetches_wordOf (fetches_operand hcall frame e)).bind fun _ =>
      (fetches_words hcall frame es).bind fun _ => .pure _

end

theorem fetches_eval (hcall : ∀ callee args, Fetches table (call callee args))
    (frame : Frame) (e : Expr) : Fetches table (eval table arena call frame e) :=
  fetches_wordOf (fetches_operand hcall frame e)

theorem fetches_rounds {holds : Frame → EvalM Word} {round : Frame → EvalM (Flow × Frame)}
    {step : Frame → EvalM Frame} (hholds : ∀ frame, Fetches table (holds frame))
    (hround : ∀ frame, Fetches table (round frame)) (hstep : ∀ frame, Fetches table (step frame))
    (limit : Nat) (frame : Frame) : Fetches table (rounds holds round step limit frame) := by
  induction limit generalizing frame with
  | zero => exact .throw _
  | succ limit ih =>
    rw [rounds]
    refine (hholds frame).bind fun _ => ?_
    split
    · exact .pure _
    · refine (hround frame).bind fun left => ?_
      split
      · exact (hstep _).bind fun _ => ih _
      · exact .pure _

mutual

theorem fetches_exec (hcall : ∀ callee args, Fetches table (call callee args))
    (result : Option Nat) : ∀ (stmt : Stmt) (frame : Frame),
    Fetches table (exec table arena call result stmt frame)
  | .assign target value, frame => by
    rw [exec]
    refine (fetches_eval hcall frame value).bind fun _ => ?_
    split
    · exact .pure _
    · exact .throw _
  | .branch cond yes no, frame => by
    rw [exec]
    refine (fetches_eval hcall frame cond).bind fun _ => ?_
    split
    · exact fetches_execAll hcall result yes frame
    · exact fetches_execAll hcall result no frame
  | .loop init cond post body, frame => by
    rw [exec]
    exact (fetches_execOption hcall result init frame).bind fun _ =>
      fetches_rounds (fun _ => fetches_eval hcall _ cond) (fetches_execAll hcall result body)
        (fetches_execOption hcall result post) _ _
  | .label _, frame => by
    rw [exec]
    exact .pure _
  | .goto label, frame => by
    rw [exec]
    exact .pure _
  | .ret (some value), frame => by
    rw [exec]
    exact (fetches_eval hcall frame value).bind fun _ => .pure _
  | .ret none, frame => by
    cases result with
    | none =>
      rw [exec]
      exact .throw _
    | some id =>
      rw [exec]
      cases frame[id]? with
      | some value => exact .pure _
      | none => exact .throw _

theorem fetches_execOption (hcall : ∀ callee args, Fetches table (call callee args))
    (result : Option Nat) : ∀ (stmt : Option Stmt) (frame : Frame),
    Fetches table (execOption table arena call result stmt frame)
  | none, frame => by
    rw [execOption]
    exact .pure _
  | some stmt, frame => by
    rw [execOption]
    exact (fetches_exec hcall result stmt frame).bind fun _ => .pure _

theorem fetches_execAll (hcall : ∀ callee args, Fetches table (call callee args))
    (result : Option Nat) : ∀ (body : List Stmt) (frame : Frame),
    Fetches table (execAll table arena call result body frame)
  | [], frame => by
    rw [execAll]
    exact .pure _
  | stmt :: body, frame => by
    rw [execAll]
    refine (fetches_exec hcall result stmt frame).bind fun left => ?_
    split
    · exact fetches_execAll hcall result body _
    · exact .pure _

end

theorem fetches_run (hcall : ∀ callee args, Fetches table (call callee args))
    (f : Function) (args : List Word) : Fetches table (run table arena call f args) := by
  have hfrom : ∀ (jumps : Nat) (body : List Stmt) (frame : Frame),
      Fetches table (runFrom table arena call f jumps body frame) := by
    intro jumps
    induction jumps with
    | zero =>
      intro body frame
      rw [runFrom]
      refine (fetches_execAll hcall f.result body frame).bind fun left => ?_
      split
      · exact .throw _
      · exact .pure _
      · exact .throw _
    | succ jumps ih =>
      intro body frame
      rw [runFrom]
      refine (fetches_execAll hcall f.result body frame).bind fun left => ?_
      split
      · exact .throw _
      · exact .pure _
      · exact .bind (.const fun _ => rfl) fun _ => ih _ _
  unfold run
  split
  · exact .throw _
  · exact hfrom _ _ _

end Interpreter

namespace Evaluation

open Session

variable {table : TypeTable} {arena : Arena}

theorem fetches_callClosure {invoke : Callee → List Word → EvalM Word}
    (hinvoke : ∀ callee args, Fetches table (invoke callee args)) (target : Callee)
    (payload : Option Word) (args : List Word) :
    Fetches table (callClosure invoke target payload args) := by
  unfold callClosure
  split
  · split
    · exact hinvoke _ _
    · exact hinvoke _ _
    · exact .throw _
  · exact hinvoke _ _

/-- Running a primitive only requests closures if calling closures does. -/
theorem fetches_primitive {call : Primitives.Caller}
    (hcall : ∀ target payload args, Fetches table (call target payload args)) (primitive : Primitive)
    (args : List Word) : Fetches table (Primitives.run table arena call primitive args) := by
  have hhash : ∀ p seed, Fetches table (Primitives.interfaceHash table arena call p seed) := by
    intro p seed
    unfold Primitives.interfaceHash
    refine .bind (.const fun _ => rfl) fun (word, data) => ?_
    dsimp only
    split
    · exact .pure _
    · refine .bind (.const fun _ => rfl) fun ty => .bind (.const fun _ => rfl) fun _ => ?_
      have hclosure := (.ofRequest (.hashClosure ty) trivial : Fetches table _).bind fun closure =>
        (hcall closure.target closure.payload [data, seed ^^^ mixIn]).map (mixOut * ·)
      simp only [map_eq_pure_bind] at hclosure
      split
      · -- The panic comes first, so that what stands behind it is never run.
        exact .bind (.const fun _ => rfl) fun _ => .bind (.throw _) fun _ => hclosure
      · exact hclosure
  have hequal : ∀ p q, Fetches table (Primitives.interfaceEqual table arena call p q) := by
    intro p q
    unfold Primitives.interfaceEqual
    refine .bind (.const fun _ => rfl) fun _ => .bind (.const fun _ => rfl) fun _ => ?_
    dsimp only
    split
    · exact .pure _
    · split
      · exact .pure _
      · refine .bind (.const fun _ => rfl) fun ty =>
          (.ofRequest (.equalityClosure ty) trivial : Fetches table _).bind fun answer => ?_
        cases answer with
        | none => exact .bind (.const fun _ => rfl) fun _ => .throw _
        | some closure => exact (hcall _ _ _).bind fun _ => .pure _
  unfold Primitives.run
  split
  case h_5 | h_6 => exact hhash _ _
  case h_15 | h_16 => exact (hequal _ _).map _
  case h_21 => exact .throw _
  case h_11 | h_12 | h_13 | h_14 | h_17 | h_18 | h_19 | h_20 =>
    exact .map _ (.const fun _ => rfl)
  all_goals exact .const fun _ => rfl

/-- Calls do nothing to a session but request closures. -/
theorem fetches_invoke (depth : Nat) (callee : Callee)
    (args : List Word) : Fetches table (invoke table arena depth callee args) := by
  induction depth generalizing callee args with
  | zero => exact .throw _
  | succ depth ih =>
    cases callee with
    | primitive primitive =>
      rw [invoke]
      exact fetches_primitive (fetches_callClosure ih) primitive args
    | generated symbol =>
      rw [invoke]
      refine .bind (fun s => ⟨[], fun _ hmem => absurd hmem List.not_mem_nil, rfl⟩) fun s => ?_
      split
      · exact .throw _
      · exact Interpreter.fetches_run ih _ _

end Evaluation

/-! ### Machines -/

namespace Machine

open Session

variable {table : TypeTable} {machine : Machine} {α β : Type}

theorem evaluate_apply (action : TypeTable → Arena → EvalM α) (machine : Machine) :
    evaluate action machine =
      ((action machine.table machine.arena machine.session).1,
        { machine with session := (action machine.table machine.arena machine.session).2 }) :=
  rfl

/-- Evaluating in two steps is evaluating both steps at once. -/
theorem evaluate_bind (first : TypeTable → Arena → EvalM α) (next : α → TypeTable → Arena → EvalM β) :
    (evaluate first >>= fun a => evaluate (next a)) =
      evaluate fun table arena => first table arena >>= fun a => next a table arena := by
  funext machine
  rw [bind_apply, evaluate_apply, evaluate_apply, bind_apply]
  rcases first machine.table machine.arena machine.session with ⟨_ | _, s⟩ <;> rfl

/-- Hashing is one evaluation, of the closure and of the call. -/
theorem hash_eq (ty : TypeId) (p seed : Word) :
    hash ty p seed = evaluate fun table arena => (do
      let closure ← EvalM.ofRequest (Session.hashClosure table ty)
      Evaluation.callClosure (Evaluation.invoke table arena Evaluation.callLimit) closure.target
        closure.payload [p, seed]) :=
  evaluate_bind _ _

/-- The answer to a comparison, given the closure of the type. -/
def compareBy (ty : TypeId) (p q : Word) (answer : Option Closure) (table : TypeTable)
    (arena : Arena) : EvalM Bool := do
  match answer with
  | some closure =>
    return (← Evaluation.callClosure (Evaluation.invoke table arena Evaluation.callLimit)
      closure.target closure.payload [p, q]) != 0
  | none => throw (.uncomparable (← table.text ty))

/-- Comparing is one evaluation, of the closure and of the call. -/
theorem equal_eq (ty : TypeId) (p q : Word) :
    equal ty p q = evaluate fun table arena =>
      EvalM.ofRequest (Session.equalityClosure table ty) >>= fun answer =>
        compareBy ty p q answer table arena := by
  rw [← evaluate_bind (fun table _ => EvalM.ofRequest (Session.equalityClosure table ty))
    (compareBy ty p q), equal, request]
  refine congrArg _ (funext fun answer => ?_)
  cases answer with
  | some closure => exact evaluate_bind _ fun answer _ _ => pure (answer != 0)
  | none =>
    funext machine
    rw [evaluate_apply, compareBy]
    change ((do throw (.uncomparable (← machine.table.text ty)) : Except EvalError Bool), machine) = _
    cases machine.table.text ty <;> rfl

/-! ### Requests to machines -/

/-- What can be asked of a machine. -/
inductive Request
  | hashClosure (ty : TypeId)
  | equalityClosure (ty : TypeId)
  | generate (purpose : Purpose) (ty : TypeId)
  | hashCallee (ty : TypeId)
  | equalityCallee (ty : TypeId)
  | generateAll (types : List TypeId)
  | store (ty : TypeId) (value : Value) (fill : UInt8)
  | call (callee : Callee) (args : List Word)
  | callClosure (target : Callee) (payload : Option Word) (args : List Word)
  | hash (ty : TypeId) (p seed : Word)
  | equal (ty : TypeId) (p q : Word)

/-- The machine after a request, answered or not. -/
def Request.after (machine : Machine) : Request → Machine
  | hashClosure ty => (Machine.request (Session.hashClosure · ty) machine).2
  | equalityClosure ty => (Machine.request (Session.equalityClosure · ty) machine).2
  | generate purpose ty => (Machine.request (Session.generate · purpose ty) machine).2
  | hashCallee ty => (Machine.request (Session.hashCallee · ty) machine).2
  | equalityCallee ty => (Machine.request (Session.equalityCallee · ty) machine).2
  | generateAll types => (Machine.request (Session.generateAll · types) machine).2
  | store ty value fill => (Machine.store ty value fill machine).2
  | call callee args => (Machine.call callee args machine).2
  | callClosure target payload args => (Machine.callClosure target payload args machine).2
  | hash ty p seed => (Machine.hash ty p seed machine).2
  | equal ty p q => (Machine.equal ty p q machine).2

/-- What a request to a machine requests of the session before any code runs. -/
def Request.direct : Request → List Session.Request
  | hashClosure ty | hash ty _ _ => [.hashClosure ty]
  | equalityClosure ty | equal ty _ _ => [.equalityClosure ty]
  | generate purpose ty => [.generate purpose ty]
  | hashCallee ty => [.hashCallee ty]
  | equalityCallee ty => [.equalityCallee ty]
  | generateAll types => [.generateAll types]
  | store _ _ _ | call _ _ | callClosure _ _ _ => []

/-- The machines that any requests lead to, on whatever memory. -/
inductive Leads (machine : Machine) : Machine → Prop
  | refl : Leads machine machine
  | request {later : Machine} (request : Request) : Leads machine later →
      Leads machine (request.after later)
  | memory {later : Machine} (arena : Arena) : Leads machine later →
      Leads machine { later with arena }

/-- The machines that requests lead to when nothing has been generated yet. -/
def Reachable (table : TypeTable) (machine : Machine) : Prop :=
  Leads (ofTable table) machine

variable {table : TypeTable} {machine : Machine} {α β : Type}

/-- A request leaves the types as they are. All that it does to the session is to make its own
    request and then requests for closures, which the code makes that it runs. -/
theorem Request.session_after (request : Request) (machine : Machine) :
    (request.after machine).table = machine.table ∧
      ∃ made : List Session.Request, (∀ inner ∈ made, inner.IsClosure) ∧
        (request.after machine).session =
          Session.after machine.table (request.direct ++ made) machine.session := by
  have hcode : ∀ callee args, Fetches machine.table
      (Evaluation.invoke machine.table machine.arena Evaluation.callLimit callee args) :=
    fun callee args => Evaluation.fetches_invoke Evaluation.callLimit callee args
  cases request with
  | hashClosure ty | equalityClosure ty | generate purpose ty | hashCallee ty | equalityCallee ty
  | generateAll types | store ty value fill =>
    exact ⟨rfl, [], fun _ hmem => absurd hmem List.not_mem_nil, rfl⟩
  | call callee args => exact ⟨rfl, hcode callee args machine.session⟩
  | callClosure target payload args =>
    exact ⟨rfl, Evaluation.fetches_callClosure hcode target payload args machine.session⟩
  | hash ty p seed =>
    rw [Request.after, hash_eq]
    refine ⟨rfl, Fetches.after_bind (EvalM.ofRequest (Session.hashClosure machine.table ty))
      (fun closure => ?_) machine.session⟩
    exact Evaluation.fetches_callClosure hcode closure.target closure.payload [p, seed]
  | equal ty p q =>
    rw [Request.after, equal_eq]
    refine ⟨rfl, Fetches.after_bind (EvalM.ofRequest (Session.equalityClosure machine.table ty))
      (fun answer => ?_) machine.session⟩
    cases answer with
    | none => exact .bind (.const fun _ => rfl) fun _ => .throw _
    | some closure =>
      exact (Evaluation.fetches_callClosure hcode closure.target closure.payload [p, q]).bind
        fun _ => .pure _

/-- All that requests do to a session is to make requests to it. -/
theorem Leads.session_after {later : Machine} (h : Leads machine later) :
    later.table = machine.table ∧
      ∃ made, later.session = Session.after machine.table made machine.session := by
  induction h with
  | refl => exact ⟨rfl, [], rfl⟩
  | @request later request _ ih =>
    obtain ⟨htable, made, hsession⟩ := ih
    obtain ⟨htable', rest, _, hsession'⟩ := request.session_after later
    refine ⟨htable'.trans htable, made ++ (request.direct ++ rest), ?_⟩
    rw [hsession', htable, hsession, Session.after_append made]
  | memory arena _ ih => exact ih

/-- Requests leave the types as they are and the session sound, and nothing is forgotten. -/
theorem Leads.sound {later : Machine} (h : Leads machine later)
    (hbuilt : TypeTable.Built machine.table) (hsound : Sound machine.table machine.session) :
    later.table = machine.table ∧ Sound machine.table later.session ∧
      Session.Extends later.session machine.session := by
  obtain ⟨htable, made, hsession⟩ := h.session_after
  rw [hsession]
  exact ⟨htable, Session.sound_after hbuilt made hsound⟩

/-- What is known to machines that can be reached has been requested. -/
theorem Reachable.session_after (h : Reachable table machine) :
    machine.table = table ∧ ∃ made, machine.session = Session.after table made .empty :=
  Leads.session_after h

/-- The sessions of machines that can be reached know all that is needed for what they know. -/
theorem Reachable.settled (hbuilt : TypeTable.Built table) (h : Reachable table machine) :
    Settled table machine.session := by
  obtain ⟨_, made, hsession⟩ := h.session_after
  rw [hsession]
  exact settled_after hbuilt made (settled_empty table)

/-- The sessions of machines that can be reached are sound. -/
theorem Reachable.sound (hbuilt : TypeTable.Built table) (h : Reachable table machine) :
    machine.table = table ∧ Sound table machine.session :=
  let hleads := Leads.sound h hbuilt (sound_empty table)
  ⟨hleads.1, hleads.2.1⟩

end Machine

end HashEq

import HashEq.Proofs.Machine.Evaluation

/-!
# Running checks

The body of an equality function makes checks in order: it jumps to a label at the
first that does not hold, and the last one becomes the result. A loop makes several
checks per round, and the checks after it are made one by one. Whatever the loop
looks like, the checks are made at every index in turn.

* `Outcome`: how a list of checks ends;
* `rounds_ends`: the rule for loops;
* `ends_checkConditions`, `ends_checkAll`: checks in order, and checks at every index
  of an array.
-/

namespace HashEq

namespace Interpreter

open Session

variable {table : TypeTable} {arena : Arena} {call : Callee → List Word → EvalM Word} {s : Session}
  {result : Option Nat} {frame : Frame}

/-! ### Statements in order -/

theorem execAll_append (a b : List Stmt) (frame : Frame) :
    execAll table arena call result (a ++ b) frame =
      execAll table arena call result a frame >>= fun left =>
        match left with
        | (.next, frame) => execAll table arena call result b frame
        | left => pure left := by
  induction a generalizing frame with
  | nil =>
    rw [List.nil_append, execAll, pure_bind]
  | cons stmt a ih =>
    rw [List.cons_append, execAll, execAll, bind_assoc]
    refine bind_congr fun left => ?_
    obtain ⟨flow, frame⟩ := left
    cases flow with
    | next => exact ih frame
    | goto label => exact (pure_bind _ _).symm
    | ret value => exact (pure_bind _ _).symm

theorem ends_assign {target : Nat} {value : Expr} {word : Except EvalError Word}
    {post : Except EvalError (Flow × Frame) → Prop} {rest : List Stmt}
    (h : Ends table s (eval table arena call frame value) (· = word))
    (htarget : target < frame.length)
    (hok : ∀ w, word = .ok w →
      Ends table s (execAll table arena call result rest (frame.set target w)) post)
    (herror : ∀ e, word = .error e → post (.error e)) :
    Ends table s (execAll table arena call result (.assign target value :: rest) frame) post := by
  rw [execAll, exec, bind_assoc]
  refine h.bind (fun w hw => ?_) fun e he => herror e he.symm
  rw [if_pos htarget, pure_bind]
  exact hok w hw.symm

/-- A check that does not hold jumps. -/
theorem ends_guard {condition : Expr} {check : Except EvalError Bool} {label : Nat}
    {post : Except EvalError (Flow × Frame) → Prop} {rest : List Stmt}
    (h : Decides table arena call s frame condition check)
    (htrue : check = .ok true → Ends table s (execAll table arena call result rest frame) post)
    (hfalse : check = .ok false → post (.ok (.goto label, frame)))
    (herror : ∀ e, check = .error e → post (.error e)) :
    Ends table s (execAll table arena call result (.guard condition label :: rest) frame) post := by
  rw [execAll, Stmt.guard, exec, bind_assoc]
  refine Ends.bind h (fun w hw => ?_) fun e he => ?_
  · cases check with
    | error _ => cases hw
    | ok b =>
      cases hw
      cases b with
      | true =>
        rw [if_pos (by decide), execAll, pure_bind]
        exact htrue rfl
      | false =>
        rw [if_neg (by decide), execAll, exec, pure_bind, pure_bind]
        exact .pure (hfalse rfl)
  · cases check with
    | error _ =>
      cases he
      exact herror _ rfl
    | ok _ => cases he

/-! ### Checks in order -/

/-- The variables of an equality function: its arguments, and `n` variables in all. -/
structure Running (p q : Word) (n : Nat) (frame : Frame) : Prop where
  p : frame[EqualityCode.p]? = some p
  q : frame[EqualityCode.q]? = some q
  length : frame.length = n

theorem Running.set {p q : Word} {n : Nat} (h : Running p q n frame) {id : Nat} (hid : 1 < id)
    (value : Word) : Running p q n (frame.set id value) where
  p := by rw [List.getElem?_set_ne (by unfold EqualityCode.p; omega), h.p]
  q := by rw [List.getElem?_set_ne (by unfold EqualityCode.q; omega), h.q]
  length := by rw [List.length_set, h.length]

/-- How checks end: at the first that does not hold by a jump, or, if they are the last ones, with
    the outcome in the result. -/
def Outcome (last : Bool) (inv : Frame → Prop) (check : Except EvalError Bool) :
    Except EvalError (Flow × Frame) → Prop
  | .error e => check = .error e
  | .ok (.next, frame) => inv frame ∧ ∃ b, check = .ok b ∧
      if last then frame[EqualityCode.r]? = some (wordOfBool b) else b = true
  | .ok (.goto label, frame) => inv frame ∧ label = EqualityCode.differ ∧ check = .ok false
  | .ok (.ret _, _) => False

variable {inv : Frame → Prop} {check check' : Except EvalError Bool} {last : Bool}

/-- Checks are followed by further ones if all of them hold. -/
theorem Outcome.append {a b : List Stmt}
    (h : Ends table s (execAll table arena call result a frame) (Outcome false inv check))
    (h' : ∀ frame', inv frame' → check = .ok true →
      Ends table s (execAll table arena call result b frame') (Outcome last inv check')) :
    Ends table s (execAll table arena call result (a ++ b) frame)
      (Outcome last inv (conj [check, check'])) := by
  rw [execAll_append]
  refine h.bind (fun left hleft => ?_) fun e he => ?_
  · obtain ⟨flow, frame'⟩ := left
    cases flow with
    | next =>
      obtain ⟨hinv, b, hcheck, hb⟩ := hleft
      rw [if_neg Bool.false_ne_true] at hb
      rw [hb] at hcheck
      rw [hcheck, conj_cons, conj_singleton]
      exact h' frame' hinv hcheck
    | goto label =>
      obtain ⟨hinv, hlabel, hcheck⟩ := hleft
      rw [hcheck]
      exact .pure ⟨hinv, hlabel, rfl⟩
    | ret value => exact hleft.elim
  · have hcheck : check = .error e := he
    rw [hcheck]
    rfl

variable {p q : Word} {n : Nat}

/-- One check, whose outcome becomes the result. -/
theorem ends_result {condition : Expr} (hframe : Running p q n frame) (hn : 2 < n)
    (h : Decides table arena call s frame condition check) :
    Ends table s (execAll table arena call result [.assign EqualityCode.r condition] frame)
      (Outcome true (Running p q n) check) := by
  have hr : EqualityCode.r < frame.length := by
    rw [hframe.length]
    exact hn
  refine ends_assign h hr (fun w hw => ?_) fun e he => ?_
  · rw [execAll]
    refine .pure ⟨hframe.set (by decide) w, ?_⟩
    cases check with
    | error _ => cases hw
    | ok b =>
      cases hw
      refine ⟨b, rfl, ?_⟩
      rw [if_pos rfl, List.getElem?_set_self hr]
  · cases check with
    | error _ =>
      cases he
      rfl
    | ok _ => cases he

/-- No checks at all: the result is true. -/
theorem ends_resultTrue (hframe : Running p q n frame) (hn : 2 < n) :
    Ends table s (execAll table arena call result [.assign EqualityCode.r (.bool true)] frame)
      (Outcome true (Running p q n) (.ok true)) :=
  ends_result hframe hn (.of_eq (eval_bool true))

/-- One check, which jumps if it does not hold. -/
theorem ends_check {condition : Expr} {rest : List Stmt} (hframe : inv frame)
    (h : Decides table arena call s frame condition check)
    (hrest : check = .ok true →
      Ends table s (execAll table arena call result rest frame) (Outcome last inv check')) :
    Ends table s
      (execAll table arena call result (.guard condition EqualityCode.differ :: rest) frame)
      (Outcome last inv (conj [check, check'])) := by
  refine ends_guard h (fun htrue => ?_) (fun hfalse => ?_) fun e he => ?_
  · have hconj : conj [check, check'] = check' := by
      rw [htrue, conj_cons]
      exact conj_singleton check'
    rw [hconj]
    exact hrest htrue
  · rw [hfalse]
    exact ⟨hframe, rfl, rfl⟩
  · rw [he]
    rfl

theorem conj_cons_eq {ε : Type} (check : Except ε Bool) (rest : List (Except ε Bool)) :
    conj (check :: rest) = conj [check, conj rest] := by
  rw [conj_cons, conj_cons, conj_singleton]

/-- Conditions are checked in order. -/
theorem ends_checkConditions {α : Type} {l : List α} {code : α → Expr}
    {checks : α → Except EvalError Bool} (hframe : Running p q n frame) (hn : 2 < n)
    (h : ∀ c ∈ l, Decides table arena call s frame (code c) (checks c)) :
    Ends table s (execAll table arena call result (TypeTable.checkConditions (l.map code)) frame)
      (Outcome true (Running p q n) (conj (l.map checks))) := by
  induction l with
  | nil => exact ends_resultTrue hframe hn
  | cons c l ih =>
    cases l with
    | nil =>
      rw [List.map_singleton, List.map_singleton, conj_singleton]
      exact ends_result hframe hn (h c List.mem_cons_self)
    | cons c' l =>
      rw [List.map_cons, List.map_cons (f := checks), conj_cons_eq]
      exact ends_check hframe (h c List.mem_cons_self) fun _ =>
        ih fun d hd => h d (List.mem_cons_of_mem c hd)

/-! ### Loops -/

/-- The rule for loops. An invariant holds before each of `m` rounds; a round that does not go on to
    the next one leaves the loop. -/
theorem rounds_ends {holds : Frame → EvalM Word} {round : Frame → EvalM (Flow × Frame)}
    {step : Frame → EvalM Frame} {inv : Nat → Frame → Prop} {m : Nat}
    {post : Except EvalError (Flow × Frame) → Prop}
    (hholds : ∀ k frame, k ≤ m → inv k frame →
      Ends table s (holds frame) (· = .ok (wordOfBool (decide (k < m)))))
    (hround : ∀ k frame, k < m → inv k frame → Ends table s (round frame) fun answer =>
      match answer with
      | .ok (.next, frame') => Ends table s (step frame') fun stepped =>
          match stepped with
          | .ok frame'' => inv (k + 1) frame''
          | .error e => post (.error e)
      | left => post left)
    (hexit : ∀ frame, inv m frame → post (.ok (.next, frame)))
    {k limit : Nat} {frame : Frame} (hk : k ≤ m) (hlimit : m - k < limit) (hinv : inv k frame) :
    Ends table s (rounds holds round step limit frame) post := by
  induction limit generalizing k frame with
  | zero => exact absurd hlimit (Nat.not_lt_zero _)
  | succ limit ih =>
    rw [rounds]
    refine (hholds k frame hk hinv).bind (fun word hword => ?_) fun e he => by cases he
    cases hword
    -- The condition holds in each of the `m` rounds, and does not after the last one.
    rcases Nat.lt_or_eq_of_le hk with hlt | rfl
    · rw [decide_eq_true hlt, if_neg (by decide)]
      refine (hround k frame hlt hinv).bind (fun left hleft => ?_) fun e he => he
      obtain ⟨flow, frame'⟩ := left
      cases flow with
      | next =>
        refine Ends.bind hleft (fun frame'' hinv' => ?_) fun e he => he
        exact ih hlt (by omega) hinv'
      | goto label => exact .pure hleft
      | ret value => exact .pure hleft
    · rw [decide_eq_false (Nat.lt_irrefl k), if_pos (by decide)]
      exact .pure (hexit frame hinv)

theorem execAll_singleton (stmt : Stmt) (frame : Frame) :
    execAll table arena call result [stmt] frame = exec table arena call result stmt frame := by
  have hlast : (fun left : Flow × Frame =>
      match left with
      | (.next, frame) => execAll table arena call result [] frame
      | left => pure left) = pure := by
    funext left
    obtain ⟨flow, frame⟩ := left
    cases flow with
    | next =>
      dsimp only
      rw [execAll]
    | goto label => rfl
    | ret value => rfl
  rw [execAll]
  exact (congrArg (exec table arena call result stmt frame >>= ·) hlast).trans (bind_pure _)

theorem decide_lt_ofNat {j bound : Nat} (hj : j ≤ bound) (hbound : bound < UInt64.size) :
    decide (UInt64.ofNat j < UInt64.ofNat bound) = decide (j < bound) := by
  rw [decide_eq_decide, UInt64.lt_iff_toNat_lt, UInt64.toNat_ofNat_of_lt' hbound,
    UInt64.toNat_ofNat_of_lt' (Nat.lt_of_le_of_lt hj hbound)]

/-- A condition that is built from an index answers the check at this index. -/
def ChecksAt (table : TypeTable) (arena : Arena) (call : Callee → List Word → EvalM Word)
    (s : Session) (inv : Frame → Prop) (check : Expr → Except RequestError Expr) (len : Nat)
    (checks : Nat → Except EvalError Bool) : Prop :=
  ∀ frame position condition j, inv frame → j < len →
    eval table arena call frame position = pure (UInt64.ofNat j) →
    check position = .ok condition → Decides table arena call s frame condition (checks j)

variable {check : Expr → Except RequestError Expr} {len : Nat}
  {checks : Nat → Except EvalError Bool} {stmts : List Stmt}

/-- One round of a loop makes the checks at the next indices. -/
theorem ends_round (h : ChecksAt table arena call s (Running p q n) check len checks)
    {condition : Expr} (hcondition : check (.var EqualityCode.i) = .ok condition)
    (hn : EqualityCode.i < n) (unroll j : Nat) (hj : j + unroll ≤ len)
    (hframe : Running p q n frame) (hi : frame[EqualityCode.i]? = some (UInt64.ofNat j)) :
    Ends table s
      (execAll table arena call result
        (List.replicate unroll [.guard condition EqualityCode.differ,
          .assign EqualityCode.i (.binary .add (.var EqualityCode.i) (.const 1))]).flatten frame)
      fun answer =>
        Outcome false (Running p q n) (conj ((List.range' j unroll).map checks)) answer ∧
          ∀ frame', answer = .ok (.next, frame') →
            frame'[EqualityCode.i]? = some (UInt64.ofNat (j + unroll)) := by
  induction unroll generalizing j frame with
  | zero =>
    rw [List.replicate_zero, List.flatten_nil, execAll]
    refine .pure ⟨⟨hframe, true, rfl, rfl⟩, fun frame' hframe' => ?_⟩
    cases hframe'
    exact hi
  | succ unroll ih =>
    rw [List.replicate_succ, List.flatten_cons, List.range'_succ, List.map_cons]
    have hdecides := h frame _ condition j hframe (by omega) (eval_var hi) hcondition
    -- The checks at the later indices are made only if the first one holds.
    refine ends_guard hdecides (fun htrue => ?_) (fun hfalse => ?_) fun e he => ?_
    · rw [htrue]
      have hlength : EqualityCode.i < frame.length := hframe.length ▸ hn
      have hstep : eval table arena call frame
          (.binary .add (.var EqualityCode.i) (.const 1)) = pure (UInt64.ofNat (j + 1)) := by
        rw [UInt64.ofNat_add]
        exact eval_add (eval_var hi) (eval_const 1)
      have hstep : Ends table s (eval table arena call frame
          (.binary .add (.var EqualityCode.i) (.const 1))) (· = .ok (UInt64.ofNat (j + 1))) := by
        rw [hstep]
        exact .pure rfl
      refine ends_assign hstep hlength (fun w hw => ?_) fun e he => by cases he
      cases hw
      have hcounter : 1 < EqualityCode.i := by decide
      have hnext := ih (j + 1) (by omega) (hframe.set hcounter _) (List.getElem?_set_self hlength)
      rw [Nat.add_right_comm, Nat.add_assoc] at hnext
      exact hnext
    · rw [hfalse]
      exact ⟨⟨hframe, rfl, rfl⟩, fun frame' hframe' => by cases hframe'⟩
    · rw [he]
      exact ⟨rfl, fun frame' hframe' => by cases hframe'⟩

/-- Checks end with the first of them that does not hold. -/
theorem conj_of_first {ε : Type} {before block after : List (Except ε Bool)} {outcome : Except ε Bool}
    (hbefore : conj before = .ok true) (hblock : conj block = outcome) (hne : outcome ≠ .ok true) :
    conj (before ++ block ++ after) = outcome := by
  rw [conj_append, conj_append, hbefore, hblock]
  rcases outcome with e | _ | _
  · rfl
  · rfl
  · exact absurd rfl hne

/-- A loop makes the checks at the indices that it covers. -/
theorem ends_checkLoop (h : ChecksAt table arena call s (Running p q n) check len checks)
    {unroll m : Nat} (hunroll : 0 < unroll) (hbound : m * unroll ≤ len) (hlen : len < UInt64.size)
    (hstmts : checkLoop unroll (m * unroll) check = .ok stmts) (hn : EqualityCode.i < n)
    (hframe : Running p q n frame) :
    Ends table s (execAll table arena call result stmts frame)
      (Outcome false (Running p q n) (conj ((List.range' 0 (m * unroll)).map checks))) := by
  obtain ⟨condition, hcondition, hstmts⟩ := bind_eq_ok_iff.1 hstmts
  cases hstmts
  have hlength : EqualityCode.i < frame.length := hframe.length ▸ hn
  rw [execAll_singleton, exec, execOption, exec, eval_const, pure_bind, if_pos hlength, pure_bind,
    pure_bind]
  -- Before round `k` all checks at indices below `k * unroll` hold, and the counter is there.
  let inv (k : Nat) (frame : Frame) : Prop := Running p q n frame ∧
    frame[EqualityCode.i]? = some (UInt64.ofNat (k * unroll)) ∧
    conj ((List.range' 0 (k * unroll)).map checks) = .ok true
  have hstart : inv 0 (frame.set EqualityCode.i 0) := by
    refine ⟨hframe.set (by decide) 0, ?_, ?_⟩
    · rw [List.getElem?_set_self hlength, Nat.zero_mul]
      rfl
    · rw [Nat.zero_mul]
      rfl
  refine rounds_ends (m := m) (fun k frame hk hinv => ?_) (fun k frame hk hinv => ?_)
    (fun frame hinv => ?_) (Nat.zero_le m) ?_ hstart
  · have hle : k * unroll ≤ m * unroll := Nat.mul_le_mul_right _ hk
    have hlt : k * unroll < m * unroll ↔ k < m := Nat.mul_lt_mul_right hunroll
    rw [eval_lt (eval_var hinv.2.1) (eval_const _), decide_lt_ofNat hle (by omega)]
    simp only [hlt]
    exact .pure rfl
  · obtain ⟨hframe', hi, hconj⟩ := hinv
    have hle : (k + 1) * unroll ≤ m * unroll := Nat.mul_le_mul_right _ hk
    have hsucc : (k + 1) * unroll = k * unroll + unroll := Nat.succ_mul k unroll
    obtain ⟨rest, hrest⟩ := Nat.exists_eq_add_of_le hle
    have hnext : List.range' 0 ((k + 1) * unroll) =
        List.range' 0 (k * unroll) ++ List.range' (k * unroll) unroll := by
      rw [hsucc, ← List.range'_append_1, Nat.zero_add]
    have hall : List.range' 0 (m * unroll) = List.range' 0 (k * unroll) ++
        List.range' (k * unroll) unroll ++ List.range' ((k + 1) * unroll) rest := by
      rw [← hnext, hrest, ← List.range'_append_1, Nat.zero_add]
    refine (ends_round h hcondition hn unroll (k * unroll) (by omega) hframe' hi).mono
      fun answer hanswer => ?_
    obtain ⟨houtcome, hcounter⟩ := hanswer
    rw [hall, List.map_append, List.map_append]
    cases answer with
    | error e => exact conj_of_first hconj houtcome (by intro heq; cases heq)
    | ok left =>
      obtain ⟨flow, frame''⟩ := left
      cases flow with
      | next =>
        obtain ⟨hframe'', b, hblock, hb⟩ := houtcome
        cases hb
        refine .pure ⟨hframe'', ?_, ?_⟩
        · rw [hsucc]
          exact hcounter frame'' rfl
        · rw [hnext, List.map_append, conj_append, hconj]
          exact hblock
      | goto label =>
        obtain ⟨hframe'', hlabel, hblock⟩ := houtcome
        exact ⟨hframe'', hlabel, conj_of_first hconj hblock (by intro heq; cases heq)⟩
      | ret value => exact houtcome.elim
  · exact ⟨hinv.1, true, hinv.2.2, rfl⟩
  · have hle : m ≤ m * unroll := Nat.le_mul_of_pos_right m hunroll
    rw [roundLimit]
    omega

/-- Checks at single indices are made in order. -/
theorem ends_checkEach (h : ChecksAt table arena call s (Running p q n) check len checks)
    {js : List Nat} (hjs : ∀ j ∈ js, j < len) (hstmts : checkEach last check js = .ok stmts)
    (hn : 2 < n) (hframe : Running p q n frame) :
    Ends table s (execAll table arena call result stmts frame)
      (Outcome last (Running p q n) (conj (js.map checks))) := by
  induction js generalizing stmts with
  | nil =>
    cases hstmts
    cases last with
    | true => exact ends_resultTrue hframe hn
    | false =>
      rw [if_neg Bool.false_ne_true, execAll]
      exact .pure ⟨hframe, true, rfl, rfl⟩
  | cons j js ih =>
    have hcheck : ∀ condition, check (.const (UInt64.ofNat j)) = .ok condition →
        Decides table arena call s frame condition (checks j) := fun condition =>
      h frame _ condition j hframe (hjs j List.mem_cons_self) (eval_const _)
    cases js with
    | nil =>
      obtain ⟨condition, hcondition, hstmts⟩ := bind_eq_ok_iff.1 hstmts
      cases hstmts
      rw [List.map_singleton, conj_singleton]
      cases last with
      | true => exact ends_result hframe hn (hcheck condition hcondition)
      | false =>
        -- Where more is to come, the last check is one like the others, with nothing after it.
        have hends : Ends table s
            (execAll table arena call result [.guard condition EqualityCode.differ] frame)
            (Outcome false (Running p q n) (conj [checks j, .ok true])) :=
          ends_check hframe (hcheck condition hcondition) fun _ => by
            rw [execAll]
            exact .pure ⟨hframe, true, rfl, rfl⟩
        have htrue : conj [checks j, .ok true] = checks j := by
          rcases checks j with e | _ | _ <;> rfl
        rwa [htrue] at hends
    | cons j' js =>
      obtain ⟨condition, hcondition, hstmts⟩ := bind_eq_ok_iff.1 hstmts
      obtain ⟨rest, hrest, hstmts⟩ := bind_eq_ok_iff.1 hstmts
      cases hstmts
      rw [List.map_cons, conj_cons_eq]
      exact ends_check hframe (hcheck condition hcondition) fun _ =>
        ih (fun i hi => hjs i (List.mem_cons_of_mem j hi)) hrest

/-- Checks are made at every index of an array. -/
theorem ends_checkAll (h : ChecksAt table arena call s (Running p q n) check len checks)
    {unroll : Nat} (hunroll : 0 < unroll) (hlen : len < UInt64.size)
    (hstmts : checkAll unroll last len check = .ok stmts) (hn : 2 < n)
    (hcounter : stmts.any Stmt.isLoop = true → EqualityCode.i < n) (hframe : Running p q n frame) :
    Ends table s (execAll table arena call result stmts frame)
      (Outcome last (Running p q n) (conj ((List.range' 0 len).map checks))) := by
  obtain ⟨loop, each, hloop, heach, rfl⟩ := checkAll_eq_ok hstmts
  split at hloop
  · next hbound =>
    cases hloop
    rw [hbound, Nat.sub_zero] at heach
    exact ends_checkEach h (fun j hj => by simpa using hj) heach hn hframe
  · next hbound =>
    have hle : len / unroll * unroll ≤ len := Nat.div_mul_le_self len unroll
    have hcovered : loopBound unroll len = len / unroll * unroll := by
      rw [loopBound] at hbound ⊢
      split
      · next hone => rw [if_pos hone] at hbound; exact absurd rfl hbound
      · rfl
    rw [hcovered] at hloop heach
    -- There is a loop, so there is a counter.
    have hi : EqualityCode.i < n := by
      refine hcounter ?_
      obtain ⟨condition, _, heq⟩ := bind_eq_ok_iff.1 hloop
      cases heq
      rfl
    obtain ⟨rest, hrest⟩ := Nat.exists_eq_add_of_le hle
    have hsplit : List.range' 0 len = List.range' 0 (len / unroll * unroll) ++
        List.range' (len / unroll * unroll) rest := by
      refine (congrArg (List.range' 0) hrest).trans ?_
      rw [← List.range'_append_1, Nat.zero_add]
    have hsize : len - len / unroll * unroll = rest := by omega
    -- The loop makes the checks of whole rounds, and single checks follow for the rest.
    have hends : Ends table s (execAll table arena call result (loop ++ each) frame)
        (Outcome last (Running p q n) (conj [conj ((List.range' 0 (len / unroll * unroll)).map checks),
          conj ((List.range' (len / unroll * unroll) (len - len / unroll * unroll)).map checks)])) :=
      Outcome.append (ends_checkLoop h hunroll hle hlen hloop hi hframe) fun frame' hframe' _ =>
        ends_checkEach h (fun j hj => by have := List.mem_range'_1.1 hj; omega) heach hn hframe'
    rw [hsize, conj_cons, conj_singleton, ← conj_append, ← List.map_append, ← hsplit] at hends
    exact hends

/-! ### Whole functions -/

/-- No label stands at the top level of some statements. -/
def Unlabelled (stmts : List Stmt) : Prop :=
  ∀ id, Stmt.label id ∉ stmts

theorem Unlabelled.append {a b : List Stmt} (ha : Unlabelled a) (hb : Unlabelled b) :
    Unlabelled (a ++ b) := fun id hid =>
  (List.mem_append.1 hid).elim (ha id) (hb id)

theorem unlabelled_checkConditions (conditions : List Expr) :
    Unlabelled (TypeTable.checkConditions conditions) := by
  intro id hid
  fun_induction TypeTable.checkConditions conditions with
  | case1 => simp at hid
  | case2 condition => simp at hid
  | case3 condition conditions hne ih =>
    rcases List.mem_cons.1 hid with hid | hid
    · cases hid
    · exact ih hid

theorem unlabelled_checkEach {js : List Nat} (hstmts : checkEach last check js = .ok stmts) :
    Unlabelled stmts := by
  induction js generalizing stmts with
  | nil =>
    cases hstmts
    intro id hid
    cases last <;> simp at hid
  | cons j js ih =>
    cases js with
    | nil =>
      obtain ⟨condition, _, hstmts⟩ := bind_eq_ok_iff.1 hstmts
      cases hstmts
      intro id hid
      cases last <;> simp [Stmt.guard] at hid
    | cons j' js =>
      obtain ⟨condition, _, hstmts⟩ := bind_eq_ok_iff.1 hstmts
      obtain ⟨rest, hrest, hstmts⟩ := bind_eq_ok_iff.1 hstmts
      cases hstmts
      intro id hid
      rcases List.mem_cons.1 hid with hid | hid
      · cases hid
      · exact ih hrest id hid

theorem unlabelled_checkAll {unroll : Nat} (hstmts : checkAll unroll last len check = .ok stmts) :
    Unlabelled stmts := by
  obtain ⟨loop, each, hloop, heach, rfl⟩ := checkAll_eq_ok hstmts
  refine .append (fun id hid => ?_) (unlabelled_checkEach heach)
  split at hloop
  · cases hloop
    cases hid
  · obtain ⟨condition, _, hloop⟩ := bind_eq_ok_iff.1 hloop
    cases hloop
    simp at hid

/-- What stands before a label is passed over on the way to it. -/
theorem fromLabel_append {f : Function} {rest : List Stmt} (hbody : f.body = stmts ++ rest)
    (hstmts : Unlabelled stmts) (label : Nat) :
    fromLabel f label = fromLabel { f with body := rest } label := by
  rw [fromLabel, hbody, List.dropWhile_append_of_pos]
  · rfl
  · intro stmt hstmt
    cases stmt with
    | label id => exact absurd hstmt (hstmts id)
    | _ => rfl

section Run

variable {f : Function} {back : Bool} (hresult : f.result = some EqualityCode.r)
  (hbody : f.body = stmts ++ TypeTable.equalityEnd back) (hlabels : Unlabelled stmts)
include hresult

/-- At the common return a function answers its result. -/
theorem ends_return {answer : Word} (hr : frame[EqualityCode.r]? = some answer) (jumps : Nat) :
    Ends table s (runFrom table arena call f jumps (TypeTable.equalityEnd back) frame)
      (· = .ok answer) := by
  rw [runFrom, TypeTable.equalityEnd, hresult, execAll, exec, pure_bind]
  dsimp only
  rw [execAll, exec, hr]
  exact .pure rfl

include hbody hlabels

/-- After a check that does not hold a function answers that the values differ. -/
theorem ends_differ (hn : EqualityCode.r < frame.length) (jumps : Nat) :
    Ends table s
      (do let rest ← fromLabel f EqualityCode.differ
          runFrom table arena call f (jumps + 1) rest frame) (· = .ok (wordOfBool false)) := by
  have hdiffer : fromLabel f EqualityCode.differ = .ok [.label EqualityCode.differ,
      .assign EqualityCode.r (.bool false),
      if back then .goto EqualityCode.done else .ret none] := by
    rw [fromLabel_append hbody hlabels]
    rfl
  have hdone : fromLabel f EqualityCode.done = .ok (TypeTable.equalityEnd back) := by
    rw [fromLabel_append hbody hlabels]
    rfl
  have hr := List.getElem?_set_self (a := wordOfBool false) hn
  rw [hdiffer]
  change Ends table s (runFrom table arena call f (jumps + 1) _ frame) _
  rw [runFrom, execAll, exec, pure_bind]
  dsimp only
  rw [execAll, exec, eval_bool, pure_bind, if_pos hn, pure_bind]
  dsimp only
  rw [execAll_singleton]
  cases back with
  | true =>
    rw [if_pos rfl, exec, pure_bind]
    dsimp only
    rw [hdone]
    exact ends_return hresult hr jumps
  | false =>
    rw [if_neg Bool.false_ne_true, hresult, exec, hr]
    exact .pure rfl

end Run

/-- A function that makes checks answers their outcome. -/
theorem ends_run {f : Function} {stmts : List Stmt} {back : Bool}
    (hparams : f.params = 2) (hvars : 2 < f.vars.length) (hresult : f.result = some EqualityCode.r)
    (hbody : f.body = stmts ++ TypeTable.equalityEnd back) (hlabels : Unlabelled stmts)
    (hchecks : ∀ frame, Running p q f.vars.length frame →
      Ends table s (execAll table arena call f.result stmts frame)
        (Outcome true (Running p q f.vars.length) check')) :
    Ends table s (run table arena call f [p, q]) (· = (wordOfBool <$> check')) := by
  have hstart : Running p q f.vars.length ([p, q] ++ List.replicate (f.vars.length - 2) 0) := by
    refine ⟨rfl, rfl, ?_⟩
    rw [List.length_append, List.length_replicate]
    change 2 + (f.vars.length - 2) = _
    omega
  have hargs : ¬[p, q].length ≠ f.params := by
    rw [hparams]
    exact not_not_intro rfl
  -- There are jumps enough for the one to the label behind the checks.
  have hlimit : ∃ jumps, roundLimit = jumps + 1 + 1 := ⟨UInt64.size - 2, rfl⟩
  obtain ⟨jumps, hjumps⟩ := hlimit
  rw [run, if_neg hargs, hjumps, runFrom, hbody, execAll_append, bind_assoc]
  refine (hchecks _ hstart).bind (fun left hleft => ?_) fun e he => ?_
  · obtain ⟨flow, frame⟩ := left
    cases flow with
    | next =>
      obtain ⟨hframe, b, hcheck, hr⟩ := hleft
      rw [if_pos rfl] at hr
      rw [hcheck]
      have hreturn : Ends table s (runFrom table arena call f (jumps + 1 + 1)
          (TypeTable.equalityEnd back) frame) (· = .ok (wordOfBool b)) :=
        ends_return hresult hr _
      rw [runFrom] at hreturn
      exact hreturn
    | goto label =>
      obtain ⟨hframe, hlabel, hcheck⟩ := hleft
      rw [hcheck, pure_bind, hlabel]
      exact ends_differ hresult hbody hlabels (hframe.length ▸ hvars) jumps
    | ret value => exact hleft.elim
  · have hcheck : check' = .error e := he
    rw [hcheck]
    rfl

end Interpreter

end HashEq

import HashEq.Proofs.Machine.Statements
import HashEq.Proofs.Synthesis.OnPlaces

/-!
# Unrolled loops

The elements of two arrays are checked in a loop that makes several checks per
round, as far as whole rounds go, and one by one after that. What the code does to
the session and the answers it comes to are those of a plain loop, which makes the
same checks in order and stops at the first that does not hold: the code equals the
plain loop, followed by what it leaves of the frame (`leave`).

* `OnPlaces.eval_conditionAt`: a condition comes to the same wherever its index is
  kept, and whatever the counter is;
* `plainLoop`: the plain loop, which answers where it stopped and the last word;
* `execAll_round`, `rounds_eq`, `execAll_checkLoop`, `execAll_checkEach`,
  `execAll_checkAll`: rounds, loops and the checks after them as plain loops;
* `ended_leave`, `counter_leave`: the flow, the result and the counter in the end;
* `countAll_checkAll`: the size of the code;
* `checkAll_runsPlainly`: all of this for the checks of an array, and for two
  passes that share the counter;
* `arrayChecks_runsPlainly`: the checks of every array are of this kind.
-/

namespace HashEq

open EqualityCode Interpreter

variable {table : TypeTable} {arena : Arena} {call : Callee → List Word → EvalM Word}
  {result : Option Nat} {frame frame' : Frame}

/-! ### Conditions in frames that differ in the counter -/

/-- In one frame, an expression comes to the same as another expression in another frame. -/
structure SameOperand (table : TypeTable) (arena : Arena) (call : Callee → List Word → EvalM Word)
    (frame frame' : Frame) (e e' : Expr) : Prop where
  isPlace : e'.isPlace = e.isPlace
  operand : operand table arena call frame' e' = operand table arena call frame e

/-- The frames differ in the counter at most. -/
def AgreeOffCounter (frame frame' : Frame) : Prop :=
  ∀ id, id ≠ i → frame'[id]? = frame[id]?

theorem AgreeOffCounter.set (frame : Frame) (value : Word) :
    AgreeOffCounter frame (frame.set i value) :=
  fun _ hid => List.getElem?_set_ne hid.symm

/-- Arguments come to the same words if each of them does. -/
theorem words_eq_of_sameOperand {args args' : List Expr}
    (h : args.Forall₂ (SameOperand table arena call frame frame') args') :
    words table arena call frame' args' = words table arena call frame args := by
  induction h with
  | nil => rw [words, words]
  | cons harg _ ih => rw [words, words, harg.operand, ih]

/-- A condition on places tells them only by what they come to. -/
theorem OnPlaces.sameOperand {f : Expr → Expr → Expr} (h : OnPlaces f)
    (hframe : AgreeOffCounter frame frame') {P P' Q Q' : Expr}
    (hP : SameOperand table arena call frame frame' P P')
    (hQ : SameOperand table arena call frame frame' Q Q') :
    SameOperand table arena call frame frame' (f P Q) (f P' Q') := by
  induction h with
  | left => exact hP
  | right => exact hQ
  | var h =>
    refine ⟨rfl, ?_⟩
    rw [operand, operand, hframe _ h]
  | const value | bool value =>
    refine ⟨rfl, ?_⟩
    rw [operand, operand]
  | deref h ty ih =>
    refine ⟨rfl, ?_⟩
    rw [operand, operand, ih.operand]
  | field h owner index ih =>
    refine ⟨rfl, ?_⟩
    rw [operand, operand, placeOf, placeOf, ih.isPlace, ih.operand]
  | index hf hg elem bounded ihf ihg =>
    refine ⟨rfl, ?_⟩
    rw [operand, operand, placeOf, placeOf, ihf.isPlace, ihf.operand, ihg.operand]
  | addr h ih | strLen h ih | strPtr h ih =>
    refine ⟨rfl, ?_⟩
    rw [operand, operand, placeOf, placeOf, ih.isPlace, ih.operand]
  | binary op hf hg ihf ihg =>
    refine ⟨rfl, ?_⟩
    -- Only comparing for equality asks whether its operands are places.
    cases op with
    | eq => rw [operand, operand, ihf.isPlace, ihg.isPlace, ihf.operand, ihg.operand]
    | lt | add | and => rw [operand, operand, ihf.operand, ihg.operand]
  | @call callee args h ih =>
    refine ⟨rfl, ?_⟩
    have hargs : (args.map fun arg => arg P Q).Forall₂ (SameOperand table arena call frame frame')
        (args.map fun arg => arg P' Q') :=
      List.forall₂_map_left_iff.2 (List.forall₂_map_right_iff.2 (List.forall₂_same.2 ih))
    rw [operand, operand, words_eq_of_sameOperand hargs]

/-- The element at a position of the array that a variable points to. -/
def elementOf (id : Nat) (ty elem : TypeId) (position : Expr) : Expr :=
  .elem (.deref (.var id) ty) position elem

/-- A condition on the elements of two arrays at a position. -/
def conditionAt (f : Expr → Expr → Expr) (ty elem : TypeId) (position : Expr) : Expr :=
  f (elementOf p ty elem position) (elementOf q ty elem position)

section Position

variable {f : Expr → Expr → Expr} {ty elem : TypeId} {position position' : Expr}

theorem sameOperand_const (frame frame' : Frame) (value : Word) :
    SameOperand table arena call frame frame' (.const value) (.const value) :=
  ⟨rfl, by rw [operand, operand]⟩

theorem sameOperand_counter (frame : Frame) {value : Word} (h : frame'[i]? = some value) :
    SameOperand table arena call frame frame' (.const value) (.var i) :=
  ⟨rfl, by rw [operand, operand, h]⟩

/-- What a condition comes to depends on what the position is, and not on the counter. -/
theorem OnPlaces.eval_conditionAt (h : OnPlaces f) (hframe : AgreeOffCounter frame frame')
    (hposition : SameOperand table arena call frame frame' position position') :
    eval table arena call frame' (conditionAt f ty elem position') =
      eval table arena call frame (conditionAt f ty elem position) := by
  have helement : ∀ id, id ≠ i → SameOperand table arena call frame frame'
      (elementOf id ty elem position) (elementOf id ty elem position') := fun id hid =>
    (OnPlaces.index (.deref (.var hid) ty) .left elem true).sameOperand hframe hposition hposition
  have hsame : SameOperand table arena call frame frame' (conditionAt f ty elem position)
      (conditionAt f ty elem position') :=
    h.sameOperand hframe (helement p (by decide)) (helement q (by decide))
  rw [eval, eval, hsame.operand]

end Position

/-! ### The plain loop -/

/-- Makes the checks at `n` indices from `j` on, one after the other, up to the first that does not
    hold. Answers the index at which that is so, or the one after the last, and what the last check
    came to; `word` stands for the check before. -/
def plainLoop (holds : Nat → EvalM Word) (word : Word) (j : Nat) : Nat → EvalM (Nat × Word)
  | 0 => return (j, word)
  | n + 1 => do
    let word ← holds j
    if word = 0 then return (j, word) else plainLoop holds word (j + 1) n

section PlainLoop

variable {holds : Nat → EvalM Word} {word : Word}

/-- What a plain loop answers: it stops where a check does not hold, or at the end. -/
def Stopped (stop : Nat) (k : Nat) (word : Word) : Prop :=
  word ≠ 0 ∧ k = stop ∨ word = 0 ∧ k < stop

theorem plainLoop_bind_congr {α : Type} {next next' : Nat × Word → EvalM α} {j n : Nat}
    (hword : word ≠ 0)
    (h : ∀ k word, j ≤ k → Stopped (j + n) k word → next (k, word) = next' (k, word)) :
    plainLoop holds word j n >>= next = plainLoop holds word j n >>= next' := by
  induction n generalizing j word with
  | zero =>
    rw [plainLoop, pure_bind, pure_bind]
    exact h j word (Nat.le_refl j) (.inl ⟨hword, rfl⟩)
  | succ n ih =>
    rw [plainLoop, bind_assoc, bind_assoc]
    refine bind_congr fun word => ?_
    split
    · next hzero =>
      rw [pure_bind, pure_bind]
      exact h j word (Nat.le_refl j) (.inr ⟨hzero, by omega⟩)
    · next hone =>
      refine ih hone fun k word hk hstopped => h k word (by omega) ?_
      rwa [Nat.add_right_comm, Nat.add_assoc] at hstopped

/-- A plain loop may be split. -/
theorem plainLoop_add (hword : word ≠ 0) (j m n : Nat) :
    plainLoop holds word j (m + n) = plainLoop holds word j m >>= fun left =>
      if left.2 = 0 then pure left else plainLoop holds left.2 left.1 n := by
  induction m generalizing j word with
  | zero =>
    rw [plainLoop, pure_bind]
    dsimp only
    rw [if_neg hword, Nat.zero_add]
  | succ m ih =>
    rw [Nat.add_right_comm, plainLoop, plainLoop, bind_assoc]
    refine bind_congr fun word => ?_
    split
    · next hzero => rw [pure_bind]; dsimp only; rw [if_pos hzero]
    · next hone => exact ih hone (j + 1)

end PlainLoop

/-! ### Running checks -/

section Run

variable {f : Expr → Expr → Expr} {ty elem : TypeId} {word : Word}

/-- The check of a condition at the elements with index `j`. -/
def checkAt (table : TypeTable) (arena : Arena) (call : Callee → List Word → EvalM Word)
    (frame : Frame) (f : Expr → Expr → Expr) (ty elem : TypeId) (j : Nat) : EvalM Word :=
  eval table arena call frame (conditionAt f ty elem (.const (UInt64.ofNat j)))

theorem execAll_guard (condition : Expr) (label : Nat) (rest : List Stmt) (frame : Frame) :
    execAll table arena call result (.guard condition label :: rest) frame =
      eval table arena call frame condition >>= fun word =>
        if word = 0 then pure (.goto label, frame)
        else execAll table arena call result rest frame := by
  rw [execAll, Stmt.guard, exec, bind_assoc]
  refine bind_congr fun word => ?_
  by_cases hword : word = 0
  · rw [if_neg (not_not_intro hword), if_pos hword, execAll, exec, pure_bind, pure_bind]
  · rw [if_pos hword, if_neg hword, execAll, pure_bind]

theorem execAll_assign {target : Nat} (h : target < frame.length) (value : Expr) (rest : List Stmt) :
    execAll table arena call result (.assign target value :: rest) frame =
      eval table arena call frame value >>= fun word =>
        execAll table arena call result rest (frame.set target word) := by
  rw [execAll, exec, bind_assoc]
  refine bind_congr fun word => ?_
  rw [if_pos h, pure_bind]

/-- A round makes the checks at the next indices, and counts. -/
theorem execAll_round (hf : OnPlaces f) (hlength : i < frame.length) (hword : word ≠ 0)
    (unroll j : Nat) :
    execAll table arena call result
      (List.replicate unroll [.guard (conditionAt f ty elem (.var i)) differ,
        .assign i (.binary .add (.var i) (.const 1))]).flatten (frame.set i (UInt64.ofNat j)) =
      plainLoop (checkAt table arena call frame f ty elem) word j unroll >>= fun left =>
        pure (if left.2 = 0 then .goto differ else .next, frame.set i (UInt64.ofNat left.1)) := by
  induction unroll generalizing j word with
  | zero =>
    rw [List.replicate_zero, List.flatten_nil, execAll, plainLoop, pure_bind, if_neg hword]
  | succ unroll ih =>
    have hcounter : (frame.set i (UInt64.ofNat j))[i]? = some (UInt64.ofNat j) :=
      List.getElem?_set_self hlength
    have hcheck : eval table arena call (frame.set i (UInt64.ofNat j))
        (conditionAt f ty elem (.var i)) = checkAt table arena call frame f ty elem j :=
      hf.eval_conditionAt (.set frame _) (sameOperand_counter frame hcounter)
    have hstep : eval table arena call (frame.set i (UInt64.ofNat j))
        (.binary .add (.var i) (.const 1)) = pure (UInt64.ofNat (j + 1)) := by
      rw [UInt64.ofNat_add]
      exact eval_add (eval_var hcounter) (eval_const 1)
    rw [List.replicate_succ, List.flatten_cons]
    change execAll table arena call result (.guard _ _ :: .assign _ _ :: _) _ = _
    rw [execAll_guard, hcheck, plainLoop, bind_assoc]
    refine bind_congr fun word => ?_
    split
    · next hzero => rw [pure_bind, if_pos hzero]
    · next hone =>
      rw [execAll_assign (by rwa [List.length_set]), hstep, pure_bind, List.set_set]
      exact ih hone (j + 1)

theorem eval_belowBound (hlength : i < frame.length) {j bound : Nat} (hj : j ≤ bound)
    (hbound : bound < UInt64.size) :
    eval table arena call (frame.set i (UInt64.ofNat j))
        (.binary .lt (.var i) (.const (UInt64.ofNat bound))) =
      pure (wordOfBool (decide (j < bound))) := by
  rw [eval_lt (eval_var (List.getElem?_set_self hlength)) (eval_const _), decide_lt_ofNat hj hbound]

/-- The rounds of a loop make the checks at the indices below its bound. -/
theorem rounds_eq (hf : OnPlaces f) (hlength : i < frame.length) {unroll : Nat}
    (hunroll : 0 < unroll) {m limit j bound : Nat} (hword : word ≠ 0) (hlimit : m < limit)
    (hbound : bound = j + m * unroll) (hsize : bound < UInt64.size) :
    rounds (eval table arena call · (.binary .lt (.var i) (.const (UInt64.ofNat bound))))
      (execAll table arena call result
        (List.replicate unroll [.guard (conditionAt f ty elem (.var i)) differ,
          .assign i (.binary .add (.var i) (.const 1))]).flatten)
      (execOption table arena call result none) limit (frame.set i (UInt64.ofNat j)) =
      plainLoop (checkAt table arena call frame f ty elem) word j (m * unroll) >>= fun left =>
        pure (if left.2 = 0 then .goto differ else .next, frame.set i (UInt64.ofNat left.1)) := by
  have hle : j ≤ bound := by omega
  induction m generalizing j limit word with
  | zero =>
    obtain ⟨limit, rfl⟩ := Nat.exists_eq_succ_of_ne_zero (Nat.ne_zero_of_lt hlimit)
    rw [rounds, eval_belowBound hlength hle hsize, pure_bind, decide_eq_false (by omega),
      if_pos (by decide), Nat.zero_mul, plainLoop, pure_bind, if_neg hword]
  | succ m ih =>
    obtain ⟨limit, rfl⟩ := Nat.exists_eq_succ_of_ne_zero (Nat.ne_zero_of_lt hlimit)
    have hsplit : (m + 1) * unroll = unroll + m * unroll := by rw [Nat.succ_mul, Nat.add_comm]
    rw [rounds, eval_belowBound hlength hle hsize, pure_bind, decide_eq_true (by omega),
      if_neg (by decide), execAll_round hf hlength hword, bind_assoc, hsplit, plainLoop_add hword,
      bind_assoc]
    refine plainLoop_bind_congr hword fun k word _ hstopped => ?_
    rw [pure_bind]
    rcases hstopped with ⟨hone, rfl⟩ | ⟨hzero, -⟩
    · rw [if_neg hone, if_neg hone]
      dsimp only
      rw [execOption, pure_bind]
      exact ih hone (Nat.lt_of_succ_lt_succ hlimit) (by omega) (by omega)
    · rw [if_pos hzero, if_pos hzero, pure_bind, if_pos hzero]

variable {check : Expr → Expr → Except RequestError Expr} {stmts : List Stmt} {last : Bool}

/-- A loop makes the checks that it covers like a plain loop, and the counter tells how many. -/
theorem execAll_checkLoop (hbuilds : BuildsAs check f) (hf : OnPlaces f) (hlength : i < frame.length)
    {unroll m : Nat} (hunroll : 0 < unroll) (hbound : m * unroll < UInt64.size)
    (hstmts : checkLoop unroll (m * unroll) (atElements ty elem check) = .ok stmts) :
    execAll table arena call result stmts frame =
      plainLoop (checkAt table arena call frame f ty elem) 1 0 (m * unroll) >>= fun left =>
        pure (if left.2 = 0 then .goto differ else .next, frame.set i (UInt64.ofNat left.1)) := by
  obtain ⟨condition, hcondition, hstmts⟩ := bind_eq_ok_iff.1 hstmts
  cases hstmts
  have hrounds := Nat.le_mul_of_pos_right m hunroll
  rw [execAll_singleton, exec, execOption, exec, eval_const, pure_bind, if_pos hlength, pure_bind,
    pure_bind, hbuilds _ _ _ hcondition]
  exact rounds_eq (j := 0) hf hlength hunroll (by decide) (by rw [roundLimit]; omega)
    (Nat.zero_add _).symm hbound

/-- How the checks at `n` single indices from `j` on leave a frame. -/
def leaveEach (last : Bool) (j n : Nat) (frame : Frame) (left : Nat × Word) : Flow × Frame :=
  if left.2 = 0 ∧ ¬(last = true ∧ left.1 + 1 = j + n) then (.goto differ, frame)
  else (.next, if last then frame.set r (if n = 0 then 1 else left.2) else frame)

theorem leaveEach_of_ne_zero (hword : word ≠ 0) (j n k : Nat) (frame : Frame) :
    leaveEach last j n frame (k, word) =
      (.next, if last then frame.set r (if n = 0 then 1 else word) else frame) :=
  if_neg fun h => hword h.1

theorem execAll_noCheck (hr : last = true → r < frame.length) :
    execAll table arena call result (if last then [.assign r (.bool true)] else []) frame =
      pure (.next, if last then frame.set r 1 else frame) := by
  cases last with
  | false => rw [if_neg Bool.false_ne_true, if_neg Bool.false_ne_true, execAll]
  | true =>
    rw [if_pos rfl, if_pos rfl, execAll_assign (hr rfl), eval_bool, pure_bind, execAll]
    rfl

/-- The last check is a guard like the others, or becomes the result. -/
theorem execAll_lastCheck (condition : Expr) (hr : last = true → r < frame.length) (j : Nat) :
    execAll table arena call result
        [if last then .assign r condition else .guard condition differ] frame =
      eval table arena call frame condition >>= fun word =>
        pure (leaveEach last j 1 frame (if word = 0 then j else j + 1, word)) := by
  cases last with
  | false =>
    rw [if_neg Bool.false_ne_true, execAll_guard]
    refine bind_congr fun word => ?_
    split
    · next hzero => rw [leaveEach, if_pos ⟨hzero, fun h => Bool.false_ne_true h.1⟩]
    · next hone => rw [leaveEach_of_ne_zero hone, execAll]; rfl
  | true =>
    rw [if_pos rfl, execAll_assign (hr rfl)]
    refine bind_congr fun word => ?_
    split
    · next hzero => rw [leaveEach, if_neg fun h => h.2 ⟨rfl, rfl⟩, execAll]; rfl
    · next hone => rw [leaveEach_of_ne_zero hone, execAll]; rfl

/-- Checks at single indices are made like in a plain loop. -/
theorem execAll_checkEach (hbuilds : BuildsAs check f) (hf : OnPlaces f)
    (hframe : AgreeOffCounter frame frame') (hr : last = true → r < frame'.length) {j n : Nat}
    (hword : word ≠ 0)
    (hstmts : checkEach last (atElements ty elem check) (List.range' j n) = .ok stmts) :
    execAll table arena call result stmts frame' =
      plainLoop (checkAt table arena call frame f ty elem) word j n >>= fun left =>
        pure (leaveEach last j n frame' left) := by
  have hcheck : ∀ k, eval table arena call frame' (conditionAt f ty elem (.const (UInt64.ofNat k))) =
      checkAt table arena call frame f ty elem k := fun k =>
    hf.eval_conditionAt hframe (sameOperand_const frame frame' _)
  induction n generalizing j word stmts with
  | zero =>
    cases hstmts
    rw [plainLoop, pure_bind, leaveEach_of_ne_zero hword]
    exact execAll_noCheck hr
  | succ n ih =>
    rw [List.range'_succ] at hstmts
    cases n with
    | zero =>
      obtain ⟨condition, hcondition, hstmts⟩ := bind_eq_ok_iff.1 hstmts
      cases hstmts
      cases hbuilds _ _ _ hcondition
      -- The last of these checks is the result if no others follow, and a guard otherwise.
      rw [execAll_lastCheck _ hr j, plainLoop, bind_assoc]
      refine (congrArg (· >>= _) (hcheck j)).trans (bind_congr fun word => ?_)
      split
      · rw [pure_bind]
      · rw [plainLoop, pure_bind]
    | succ n =>
      obtain ⟨condition, hcondition, hstmts⟩ := bind_eq_ok_iff.1 hstmts
      obtain ⟨rest, hrest, hstmts⟩ := bind_eq_ok_iff.1 hstmts
      cases hstmts
      cases hbuilds _ _ _ hcondition
      -- A check that does not hold leaves, like the plain loop.
      rw [execAll_guard, plainLoop, bind_assoc]
      refine (congrArg (· >>= _) (hcheck j)).trans (bind_congr fun word => ?_)
      split
      · next hzero =>
        rw [pure_bind, leaveEach, if_pos ⟨hzero, fun h => by have := h.2; dsimp only at this; omega⟩]
      · next hone =>
        have hstop : j + 1 + (n + 1) = j + (n + 1 + 1) := by omega
        rw [ih hone hrest]
        refine bind_congr fun left => ?_
        rw [leaveEach, leaveEach, hstop, if_neg (Nat.succ_ne_zero n), if_neg (Nat.succ_ne_zero (n + 1))]

/-- A loop covers whole rounds, and no index that is not there. -/
theorem loopBound_eq {unroll len : Nat} (h : loopBound unroll len ≠ 0) :
    loopBound unroll len = len / unroll * unroll := by
  rw [loopBound] at h ⊢
  split
  · next hone => rw [if_pos hone] at h; exact absurd rfl h
  · rfl

theorem loopBound_le (unroll len : Nat) : loopBound unroll len ≤ len := by
  rw [loopBound]
  split
  · exact Nat.zero_le len
  · exact Nat.div_mul_le_self len unroll

theorem any_isLoop_of_checkAll {position : Expr → Except RequestError Expr} {unroll len : Nat}
    (hbound : loopBound unroll len ≠ 0) (hstmts : checkAll unroll last len position = .ok stmts) :
    stmts.any Stmt.isLoop = true := by
  obtain ⟨loop, each, hloop, _, rfl⟩ := checkAll_eq_ok hstmts
  rw [if_neg hbound] at hloop
  obtain ⟨condition, _, heq⟩ := bind_eq_ok_iff.1 hloop
  cases heq
  rfl

/-- How the checks at all indices below `len` leave a frame. -/
def leave (unroll : Nat) (last : Bool) (len : Nat) (frame : Frame) (left : Nat × Word) :
    Flow × Frame :=
  let bound := loopBound unroll len
  if left.1 < bound then (.goto differ, frame.set i (UInt64.ofNat left.1))
  else
    leaveEach last bound (len - bound)
      (if bound = 0 then frame else frame.set i (UInt64.ofNat bound)) left

/-- The checks at all indices are made like in a plain loop. -/
theorem execAll_checkAll (hbuilds : BuildsAs check f) (hf : OnPlaces f) {unroll len : Nat}
    (hunroll : 0 < unroll) (hlen : len < UInt64.size)
    (hstmts : checkAll unroll last len (atElements ty elem check) = .ok stmts)
    (hr : last = true → r < frame.length)
    (hi : stmts.any Stmt.isLoop = true → i < frame.length) :
    execAll table arena call result stmts frame =
      plainLoop (checkAt table arena call frame f ty elem) 1 0 len >>= fun left =>
        pure (leave unroll last len frame left) := by
  obtain ⟨loop, each, hloop, heach, rfl⟩ := checkAll_eq_ok hstmts
  by_cases hbound : loopBound unroll len = 0
  · rw [if_pos hbound] at hloop
    cases hloop
    rw [hbound, Nat.sub_zero] at heach
    rw [List.nil_append, execAll_checkEach hbuilds hf (fun _ _ => rfl) hr
      (show (1 : Word) ≠ 0 by decide) heach]
    refine bind_congr fun left => ?_
    rw [leave, hbound]
    rfl
  · rw [if_neg hbound] at hloop
    have hlength := hi (any_isLoop_of_checkAll hbound hstmts)
    have hle := loopBound_le unroll len
    have hcovered := loopBound_eq hbound
    -- The loop covers whole rounds, and single checks the rest.
    have hsplit : len = loopBound unroll len + (len - loopBound unroll len) := by omega
    rw [hcovered] at hloop
    have hplain := (congrArg (plainLoop (checkAt table arena call frame f ty elem) 1 0) hsplit).trans
      (plainLoop_add (by decide) 0 _ _)
    rw [execAll_append, execAll_checkLoop hbuilds hf hlength hunroll (by omega) hloop, bind_assoc,
      ← hcovered, hplain, bind_assoc]
    refine plainLoop_bind_congr (by decide) fun k word _ hstopped => ?_
    rw [pure_bind]
    -- Either the loop has run to its end, or a check did not hold.
    rcases hstopped with ⟨hone, rfl⟩ | ⟨hzero, hlt⟩
    · rw [if_neg hone, if_neg hone, Nat.zero_add]
      dsimp only
      rw [execAll_checkEach hbuilds hf (.set frame _) (by rwa [List.length_set]) hone heach]
      refine plainLoop_bind_congr hone fun k word hk _ => ?_
      rw [leave, if_neg (Nat.not_lt.2 hk), if_neg hbound]
    · rw [Nat.zero_add] at hlt
      rw [if_pos hzero, if_pos hzero, pure_bind, leave, if_pos hlt]

end Run

/-! ### What the checks leave -/

section Ended

variable {unroll len k : Nat} {last : Bool} {word : Word}

/-- What checks leave of a frame once the last of them came to `word`: if they go on, all of them
    held, or, if they are the last ones, the result is true if and only if all held; otherwise they
    jump, and the last one did not hold. Other variables than the counter keep their words. -/
def Ended (last : Bool) (frame : Frame) (word : Word) : Flow × Frame → Prop
  | (.next, frame') =>
    (∀ id, id ≠ i → (last = true → id ≠ r) → frame'[id]? = frame[id]?) ∧
      if last then
        ∃ value, frame'[r]? = some value ∧ (value = 0 ↔ word = 0) ∧ (word = 0 ∨ word = 1 → value = word)
      else word ≠ 0
  | (.goto label, frame') => label = differ ∧ word = 0 ∧ AgreeOffCounter frame frame'
  | (.ret _, _) => False

theorem ended_leaveEach {j n : Nat} (hframe : AgreeOffCounter frame frame')
    (hr : last = true → r < frame'.length) (hj : j ≤ k) (hstopped : Stopped (j + n) k word) :
    Ended last frame word (leaveEach last j n frame' (k, word)) := by
  rw [leaveEach]
  split
  · next h => exact ⟨rfl, h.1, hframe⟩
  · next h =>
    cases last with
    | false =>
      exact ⟨fun id hid _ => hframe id hid, fun hword => h ⟨hword, fun h => Bool.false_ne_true h.1⟩⟩
    | true =>
      refine ⟨fun id hid hne => ?_, _, List.getElem?_set_self (hr rfl), ?_⟩
      · exact (List.getElem?_set_ne (hne rfl).symm).trans (hframe id hid)
      · by_cases hn : n = 0
        · have hword : word ≠ 0 := hstopped.elim (·.1) fun h => absurd h.2 (by omega)
          rw [if_pos hn]
          exact ⟨iff_of_false (by decide) hword, fun h => (h.resolve_left hword).symm⟩
        · rw [if_neg hn]
          exact ⟨.rfl, fun _ => rfl⟩

theorem ended_leave (unroll : Nat) (hr : last = true → r < frame.length)
    (hstopped : Stopped len k word) :
    Ended last frame word (leave unroll last len frame (k, word)) := by
  have hle := loopBound_le unroll len
  rw [leave]
  split
  · next hlt =>
    have hword : word = 0 := hstopped.elim (fun h => absurd h.2 (by dsimp only at hlt; omega)) (·.1)
    exact ⟨rfl, hword, .set frame _⟩
  · next hlt =>
    refine ended_leaveEach ?_ ?_ (Nat.not_lt.1 hlt) (by rwa [Nat.add_sub_cancel' hle])
    · split
      · exact fun _ _ => rfl
      · exact .set frame _
    · split
      · exact hr
      · rwa [List.length_set]

/-- The counter tells how many of the checks in the loop held. -/
theorem counter_leave (hlength : i < frame.length) (hbound : loopBound unroll len ≠ 0) (k : Nat)
    (word : Word) :
    (leave unroll last len frame (k, word)).2[i]? =
      some (UInt64.ofNat (min k (loopBound unroll len))) := by
  rw [leave]
  split
  · next hlt =>
    rw [Nat.min_eq_left (Nat.le_of_lt hlt)]
    exact List.getElem?_set_self hlength
  · next hlt =>
    rw [Nat.min_eq_right (Nat.not_lt.1 hlt), leaveEach]
    split
    · exact List.getElem?_set_self hlength
    · split
      · exact (List.getElem?_set_ne (by decide)).trans (List.getElem?_set_self hlength)
      · exact List.getElem?_set_self hlength

/-- What a plain loop answers. -/
theorem stopped_of_plainLoop {holds : Nat → EvalM Word} {j n : Nat} {s s' : Session}
    (hword : word ≠ 0) {word' : Word} (h : plainLoop holds word j n s = (.ok (k, word'), s')) :
    Stopped (j + n) k word' := by
  induction n generalizing j word s with
  | zero =>
    cases h
    exact .inl ⟨hword, rfl⟩
  | succ n ih =>
    rw [plainLoop, bind_apply] at h
    split at h
    · next word s'' hholds =>
      split at h
      · next hzero =>
        cases h
        exact .inr ⟨hzero, by omega⟩
      · next hone =>
        have := ih hone h
        rwa [Nat.add_right_comm, Nat.add_assoc] at this
    · cases h

theorem length_leave (unroll : Nat) (last : Bool) (len : Nat) (frame : Frame) (left : Nat × Word) :
    (leave unroll last len frame left).2.length = frame.length := by
  simp only [leave, leaveEach]
  split_ifs <;> simp only [List.length_set]

end Ended

/-! ### The size of the code -/

namespace Stmt

mutual

/-- The number of statements in a statement, itself included. -/
def count : Stmt → Nat
  | branch _ yes no => 1 + countAll yes + countAll no
  | loop init _ post body => 1 + countOption init + countOption post + countAll body
  | assign _ _ | label _ | goto _ | ret _ => 1

/-- The number of statements in a statement that may be missing. -/
def countOption : Option Stmt → Nat
  | none => 0
  | some stmt => count stmt

/-- The number of statements in a list of statements. -/
def countAll : List Stmt → Nat
  | [] => 0
  | stmt :: body => count stmt + countAll body

end

theorem countAll_append (a b : List Stmt) : countAll (a ++ b) = countAll a + countAll b := by
  induction a with
  | nil => rw [List.nil_append, countAll, Nat.zero_add]
  | cons stmt a ih => rw [List.cons_append, countAll, countAll, ih, Nat.add_assoc]

theorem countAll_replicate_flatten (n : Nat) (round : List Stmt) :
    countAll (List.replicate n round).flatten = n * countAll round := by
  induction n with
  | zero => rw [List.replicate_zero, List.flatten_nil, countAll, Nat.zero_mul]
  | succ n ih =>
    rw [List.replicate_succ, List.flatten_cons, countAll_append, ih, Nat.succ_mul, Nat.add_comm]

end Stmt

section Count

variable {position : Expr → Except RequestError Expr} {stmts : List Stmt} {unroll : Nat} {last : Bool}

theorem countAll_checkLoop {bound : Nat} (h : checkLoop unroll bound position = .ok stmts) :
    Stmt.countAll stmts = 3 * unroll + 2 := by
  obtain ⟨condition, _, h⟩ := bind_eq_ok_iff.1 h
  cases h
  simp only [Stmt.countAll, Stmt.count, Stmt.countOption, Stmt.countAll_replicate_flatten, Stmt.guard]
  omega

theorem countAll_checkEach {js : List Nat} (h : checkEach last position js = .ok stmts) :
    Stmt.countAll stmts ≤ max 1 (2 * js.length) := by
  induction js generalizing stmts with
  | nil =>
    cases h
    cases last <;> simp [Stmt.countAll, Stmt.count]
  | cons j js ih =>
    cases js with
    | nil =>
      obtain ⟨condition, _, h⟩ := bind_eq_ok_iff.1 h
      cases h
      cases last <;> simp [Stmt.countAll, Stmt.count, Stmt.guard]
    | cons j' js =>
      obtain ⟨condition, _, h⟩ := bind_eq_ok_iff.1 h
      obtain ⟨rest, hrest, h⟩ := bind_eq_ok_iff.1 h
      cases h
      have := ih hrest
      simp only [Stmt.countAll, Stmt.count, Stmt.guard, List.length_cons] at this ⊢
      omega

/-- However many elements there are, the code is bounded by the number of checks per round. -/
theorem countAll_checkAll (hunroll : 0 < unroll) {len : Nat}
    (h : checkAll unroll last len position = .ok stmts) : Stmt.countAll stmts ≤ 5 * unroll + 1 := by
  obtain ⟨loop, each, hloop, heach, rfl⟩ := checkAll_eq_ok h
  have hcount := countAll_checkEach heach
  rw [List.length_range'] at hcount
  rw [Stmt.countAll_append]
  by_cases hbound : loopBound unroll len = 0
  · rw [if_pos hbound] at hloop
    cases hloop
    have hrounds : len / unroll < 2 := by
      rw [loopBound] at hbound
      split at hbound
      · omega
      · exact (Nat.mul_eq_zero.1 hbound).elim (by omega) fun h => absurd h (Nat.ne_of_gt hunroll)
    have hlen := (Nat.div_lt_iff_lt_mul hunroll).1 hrounds
    rw [Stmt.countAll]
    omega
  · rw [if_neg hbound] at hloop
    have hrest := Nat.mod_lt len hunroll
    have hdiv := Nat.div_add_mod' len unroll
    rw [countAll_checkLoop hloop]
    rw [loopBound_eq hbound] at hcount
    omega

end Count

/-! ### All checks of an array -/

section Unrolled

variable {check check' : Expr → Expr → Except RequestError Expr} {f f' : Expr → Expr → Expr}
  {ty elem : TypeId} {unroll unroll' : Nat} {last last' : Bool} {len : Word}
  {stmts stmts' : List Stmt}

/-- A frame that has the variables which checks assign to. -/
structure HasVars (last : Bool) (stmts : List Stmt) (frame : Frame) : Prop where
  result : last = true → r < frame.length
  counter : stmts.any Stmt.isLoop = true → i < frame.length

/-- What the code does that checks a condition at all `len` elements of an array. -/
structure RunsPlainly (f : Expr → Expr → Expr) (ty elem : TypeId) (unroll : Nat) (last : Bool)
    (len : Word) (stmts : List Stmt) : Prop where
  /-- The conditions are evaluated as in a plain loop: at increasing indices, each once, and no more
      of them after one that fails or does not hold. -/
  runs : ∀ {table arena call result frame}, HasVars last stmts frame →
    execAll table arena call result stmts frame =
      leave unroll last len.toNat frame <$>
        plainLoop (checkAt table arena call frame f ty elem) 1 0 len.toNat
  /-- The plain loop stops at a condition that does not hold, or at the end, and what the code leaves
      tells which. -/
  leaves : ∀ {table arena call frame s s' k word}, HasVars last stmts frame →
    plainLoop (checkAt table arena call frame f ty elem) 1 0 len.toNat s = (.ok (k, word), s') →
    Stopped len.toNat k word ∧ Ended last frame word (leave unroll last len.toNat frame (k, word))
  /-- The loop does not go beyond the elements, so that its bound is a word. -/
  bound : loopBound unroll len.toNat ≤ len.toNat
  /-- The counter does not wrap: wherever the loop stops, it tells how many conditions held. -/
  counter : ∀ {frame k word}, loopBound unroll len.toNat ≠ 0 → HasVars last stmts frame →
    ∃ counter, (leave unroll last len.toNat frame (k, word)).2[i]? = some counter ∧
      counter.toNat = min k (loopBound unroll len.toNat)
  size : Stmt.countAll stmts ≤ 5 * unroll + 1

/-- Further checks of the same array may follow, with the same counter. -/
def RunsBefore (f : Expr → Expr → Expr) (ty elem : TypeId) (unroll : Nat) (len : Word)
    (stmts : List Stmt) (f' : Expr → Expr → Expr) (unroll' : Nat) (last' : Bool)
    (stmts' : List Stmt) : Prop :=
  ∀ {table arena call result frame}, HasVars false stmts frame → HasVars last' stmts' frame →
    execAll table arena call result (stmts ++ stmts') frame = (do
      let left ← plainLoop (checkAt table arena call frame f ty elem) 1 0 len.toNat
      let (flow, frame') := leave unroll false len.toNat frame left
      if left.2 = 0 then return (flow, frame')
      else
        leave unroll' last' len.toNat frame' <$>
          plainLoop (checkAt table arena call frame f' ty elem) 1 0 len.toNat)

theorem runsPlainly_checkAll (hbuilds : BuildsAs check f) (hf : OnPlaces f) (hunroll : 0 < unroll)
    (hstmts : checkAll unroll last len.toNat (atElements ty elem check) = .ok stmts) :
    RunsPlainly f ty elem unroll last len stmts where
  runs hframe := by
    rw [execAll_checkAll hbuilds hf hunroll len.toNat_lt hstmts hframe.result hframe.counter,
      map_eq_pure_bind]
  leaves hframe hplain := by
    have hstopped := stopped_of_plainLoop (by decide) hplain
    rw [Nat.zero_add] at hstopped
    exact ⟨hstopped, ended_leave unroll hframe.result hstopped⟩
  bound := loopBound_le unroll len.toNat
  counter hbound hframe := by
    refine ⟨_, counter_leave (hframe.counter (any_isLoop_of_checkAll hbound hstmts)) hbound _ _, ?_⟩
    exact UInt64.toNat_ofNat_of_lt' (Nat.lt_of_le_of_lt (Nat.min_le_right _ _)
      (Nat.lt_of_le_of_lt (loopBound_le unroll len.toNat) len.toNat_lt))
  size := countAll_checkAll hunroll hstmts

theorem runsBefore_checkAll (hbuilds : BuildsAs check f) (hf : OnPlaces f) (hunroll : 0 < unroll)
    (hstmts : checkAll unroll false len.toNat (atElements ty elem check) = .ok stmts)
    (hbuilds' : BuildsAs check' f') (hf' : OnPlaces f') (hunroll' : 0 < unroll')
    (hstmts' : checkAll unroll' last' len.toNat (atElements ty elem check') = .ok stmts') :
    RunsBefore f ty elem unroll len stmts f' unroll' last' stmts' := by
  intro table arena call result frame hframe hframe'
  rw [execAll_append, execAll_checkAll hbuilds hf hunroll len.toNat_lt hstmts hframe.result
    hframe.counter, bind_assoc]
  refine plainLoop_bind_congr (by decide) fun k word _ hstopped => ?_
  rw [Nat.zero_add] at hstopped
  have hlength := length_leave unroll false len.toNat frame (k, word)
  have hleft := ended_leave unroll hframe.result hstopped
  rw [pure_bind]
  rcases hleave : leave unroll false len.toNat frame (k, word) with ⟨flow, left⟩
  rw [hleave] at hleft hlength
  dsimp only at hlength
  cases flow with
  | next =>
    have hword : word ≠ 0 := hleft.2
    -- The first pass has only moved the counter, which the second one sets anew.
    have hagree : AgreeOffCounter frame left := fun id hid => hleft.1 id hid nofun
    have hchecks :
        checkAt table arena call left f' ty elem = checkAt table arena call frame f' ty elem :=
      funext fun j => hf'.eval_conditionAt hagree (sameOperand_const frame left _)
    dsimp only
    rw [execAll_checkAll hbuilds' hf' hunroll' len.toNat_lt hstmts' (hlength ▸ hframe'.result)
      (hlength ▸ hframe'.counter), hchecks, if_neg hword, map_eq_pure_bind]
  | goto label =>
    dsimp only
    rw [if_pos hleft.2.1]
  | ret value => exact hleft.elim

/-- The code that checks a condition at all elements of an array evaluates it as a plain loop does,
    and no more statements are written for more elements. A condition that reaches the elements
    through their places may be any. -/
theorem checkAll_runsPlainly (hbuilds : BuildsAs check f) (hf : OnPlaces f) (hunroll : 0 < unroll)
    (last : Bool) (len : Word) (ty elem : TypeId) :
    ((∀ P Q, ∃ condition, check P Q = .ok condition) →
      ∃ stmts, checkAll unroll last len.toNat (atElements ty elem check) = .ok stmts) ∧
    ∀ stmts, checkAll unroll last len.toNat (atElements ty elem check) = .ok stmts →
      RunsPlainly f ty elem unroll last len stmts ∧
      (last = false → ∀ {check' f' unroll' last' stmts'}, BuildsAs check' f' → OnPlaces f' →
        0 < unroll' → checkAll unroll' last' len.toNat (atElements ty elem check') = .ok stmts' →
        RunsBefore f ty elem unroll len stmts f' unroll' last' stmts') := by
  refine ⟨fun hok => ?_, fun stmts hstmts => ⟨runsPlainly_checkAll hbuilds hf hunroll hstmts, ?_⟩⟩
  · exact checkAll_isOk (fun position => hok _ _) unroll last len.toNat
  · rintro rfl check' f' unroll' last' stmts' hbuilds' hf' hunroll' hstmts'
    exact runsBefore_checkAll hbuilds hf hunroll hstmts hbuilds' hf' hunroll' hstmts'

/-- Strings are compared in two passes, first the lengths and then the bytes. -/
theorem checkAll_runsPlainly_strings :
    BuildsAs (fun p q => return lengthsEqual p q) lengthsEqual ∧ OnPlaces lengthsEqual ∧ 0 < 3 ∧
    ∃ first second,
      checkAll 3 false (7 : Word).toNat (atElements ⟨33⟩ ⟨14⟩ fun p q => return lengthsEqual p q) =
        .ok first ∧
      checkAll 1 true (7 : Word).toNat (atElements ⟨33⟩ ⟨14⟩ fun p q => return contentsEqual p q) =
        .ok second ∧
      RunsPlainly lengthsEqual ⟨33⟩ ⟨14⟩ 3 false 7 first ∧
      RunsPlainly contentsEqual ⟨33⟩ ⟨14⟩ 1 true 7 second ∧
      RunsBefore lengthsEqual ⟨33⟩ ⟨14⟩ 3 7 first contentsEqual 1 true second := by
  obtain ⟨hfirst, hruns⟩ := checkAll_runsPlainly (buildsAs_return lengthsEqual) onPlaces_lengthsEqual
    (show 0 < 3 by decide) false 7 ⟨33⟩ ⟨14⟩
  obtain ⟨hsecond, hruns'⟩ := checkAll_runsPlainly (buildsAs_return contentsEqual)
    onPlaces_contentsEqual (show 0 < 1 by decide) true 7 ⟨33⟩ ⟨14⟩
  obtain ⟨first, hfirst⟩ := hfirst fun _ _ => ⟨_, rfl⟩
  obtain ⟨second, hsecond⟩ := hsecond fun _ _ => ⟨_, rfl⟩
  refine ⟨buildsAs_return _, onPlaces_lengthsEqual, by decide, first, second, hfirst, hsecond,
    (hruns first hfirst).1, (hruns' second hsecond).1, ?_⟩
  exact (hruns first hfirst).2 rfl (buildsAs_return _) onPlaces_contentsEqual (by decide) hsecond

/-- Checks of all elements of an array, made in one pass or in two that share the counter. -/
inductive RunsInPasses (ty elem : TypeId) (len : Word) : List Stmt → Prop
  | one {f : Expr → Expr → Expr} {unroll : Nat} {stmts : List Stmt} :
    OnPlaces f → RunsPlainly f ty elem unroll true len stmts → RunsInPasses ty elem len stmts
  | two {f f' : Expr → Expr → Expr} {unroll unroll' : Nat} {first second : List Stmt} :
    OnPlaces f → OnPlaces f' → RunsPlainly f ty elem unroll false len first →
    RunsPlainly f' ty elem unroll' true len second →
    RunsBefore f ty elem unroll len first f' unroll' true second →
    RunsInPasses ty elem len (first ++ second)

theorem runsInPasses_one (hbuilds : BuildsOnPlaces check) (hunroll : 0 < unroll)
    (hstmts : checkAll unroll true len.toNat (atElements ty elem check) = .ok stmts) :
    RunsInPasses ty elem len stmts := by
  obtain ⟨f, hf, hbuilds⟩ := hbuilds
  exact .one hf (runsPlainly_checkAll hbuilds hf hunroll hstmts)

theorem runsInPasses_two (hbuilds : BuildsOnPlaces check) (hbuilds' : BuildsOnPlaces check')
    (hunroll : 0 < unroll) (hunroll' : 0 < unroll')
    (hstmts : checkAll unroll false len.toNat (atElements ty elem check) = .ok stmts)
    (hstmts' : checkAll unroll' true len.toNat (atElements ty elem check') = .ok stmts') :
    RunsInPasses ty elem len (stmts ++ stmts') := by
  obtain ⟨f, hf, hbuilds⟩ := hbuilds
  obtain ⟨f', hf', hbuilds'⟩ := hbuilds'
  exact .two hf hf' (runsPlainly_checkAll hbuilds hf hunroll hstmts)
    (runsPlainly_checkAll hbuilds' hf' hunroll' hstmts')
    (runsBefore_checkAll hbuilds hf hunroll hstmts hbuilds' hf' hunroll' hstmts')

/-- All array checks are made in this way. -/
theorem arrayChecks_runsPlainly {table : TypeTable}
    (hstmts : table.arrayChecks ty elem len.toNat = .ok stmts) : RunsInPasses ty elem len stmts := by
  cases TypeTable.arrayChecks_cases hstmts with
  | strings _ hfirst hsecond =>
    exact runsInPasses_two onPlaces_lengthsEqual.buildsOnPlaces onPlaces_contentsEqual.buildsOnPlaces
      (by decide) (by decide) hfirst hsecond
  | floats _ hstmts =>
    exact runsInPasses_one (OnPlaces.binary .eq .left .right).buildsOnPlaces (by decide) hstmts
  | structs _ _ hfirst hsecond =>
    exact runsInPasses_two (buildsOnPlaces_conditionsThat table false elem)
      (buildsOnPlaces_conditionsThat table true elem) (by decide) (by decide) hfirst hsecond
  | elements _ hstmts =>
    exact runsInPasses_one (buildsOnPlaces_elementEqual table elem) (by decide) hstmts

end Unrolled

end HashEq

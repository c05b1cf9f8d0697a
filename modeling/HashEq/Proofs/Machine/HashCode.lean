import HashEq.Proofs.Machine.Runs
import HashEq.Proofs.Machine.Statements

/-!
# The code of hash functions

The code generated for a type passes a hash state through an image of it leaf by leaf,
as long as what it calls does so for the parts that it is called on.

* `HashCalls`: what calls are relied on for;
* `ends_hashFields`, `ends_hashElements`: the bodies of hash functions;
* `ends_hashFunction`: what a hash function answers.
-/

namespace HashEq

open Session TypeTable

/-- A stop covers its own field at least, and no blank one. -/
theorem TypeTable.Lawful.covered_hashed {table : TypeTable} {ty : TypeId} {e : Entry}
    (h : Lawful table) (hget : table.get ty = .ok e) {field : Field} {i : Nat}
    (hi : e.fields[i]? = some field) (hblank : field.isBlank = false) :
    i < table.hashedUpTo ty i ∧
      ∀ f ∈ covered e.fields i (table.hashedUpTo ty i), f.isBlank = false := by
  simp only [hashedUpTo, fields_of_get hget, hi]
  split
  · next hmemory =>
    obtain ⟨hlt, _, hrun⟩ := (h.laidOut hget).run hget hi hblank (beq_iff_eq.1 hmemory)
    exact ⟨hlt, fun f hf => (hrun.plain f hf).2.1⟩
  · rw [covered_single hi]
    exact ⟨Nat.lt_succ_self i, List.forall_mem_singleton.2 hblank⟩

namespace Interpreter

/-- From the session `s` on calls hash blocks of memory, and images in which interfaces nest less
    than `n` deep. Functions are called for the types in `known` only. -/
structure HashCalls (table : TypeTable) (arena : Arena) (call : Callee → List Word → EvalM Word)
    (s : Session) (n : Nat) (known : List TypeId) : Prop where
  memory : ∀ p size seed : Word,
    Ends table s (call (.primitive ⟨.hash, .memory⟩) [p, size, seed])
      (· = Primitives.memoryHash arena p size seed)
  element : ∀ {ty : TypeId} {callee : Callee} {p : Word}, table.Has ty →
    (table.base ty = .special → ty ∈ known) → table.hashCallee ty = .ok callee →
    ImageWithin table arena n ty p → ∀ seed : Word,
    Ends table s (call callee [p, seed]) (· = Leaves.hashWithin table arena n ty p seed)

variable {table : TypeTable} {arena : Arena} {call : Callee → List Word → EvalM Word} {s : Session}
  {n : Nat} {known : List TypeId} {frame : Frame} {p state seed : Word} {ty : TypeId} {e : Entry}
  {result : Option Nat} {counter : Option Word} {stmts : List Stmt}

/-- The variables of a hash function: the address, the hash state, and the counter, if there is
    one. -/
structure Hashing (p state : Word) (counter : Option Word) (frame : Frame) : Prop where
  p : frame[HashCode.p]? = some p
  h : frame[HashCode.h]? = some state
  i : frame[HashCode.i]? = counter

/-- How hashing ends: with a state, unless it fails. -/
def Hashed (p : Word) (counter : Option Word) (outcome : Except EvalError Word) :
    Except EvalError (Flow × Frame) → Prop
  | .error e => outcome = .error e
  | .ok (.next, frame) => ∃ state, outcome = .ok state ∧ Hashing p state counter frame
  | .ok _ => False

theorem Hashing.set_state (h : Hashing p state counter frame) (state' : Word) :
    Hashing p state' counter (frame.set HashCode.h state') where
  p := by rw [List.getElem?_set_ne (by decide), h.p]
  h := List.getElem?_set_self (List.getElem?_eq_some_iff.1 h.h).1
  i := by rw [List.getElem?_set_ne (by decide), h.i]

theorem Hashing.set_counter {index : Word} (h : Hashing p state (some index) frame) (index' : Word) :
    Hashing p state (some index') (frame.set HashCode.i index') where
  p := by rw [List.getElem?_set_ne (by decide), h.p]
  h := by rw [List.getElem?_set_ne (by decide), h.h]
  i := List.getElem?_set_self (List.getElem?_eq_some_iff.1 h.i).1

/-- One step: the state is replaced by what a call answers. -/
theorem ends_step {value : Expr} {outcome : Except EvalError Word}
    (hframe : Hashing p state counter frame)
    (h : Ends table s (eval table arena call frame value) (· = outcome)) :
    Ends table s (exec table arena call result (.assign HashCode.h value) frame)
      (Hashed p counter outcome) := by
  have hlength : HashCode.h < frame.length := (List.getElem?_eq_some_iff.1 hframe.h).1
  rw [exec]
  refine h.bind (fun state' hstate => ?_) fun e he => he.symm
  rw [if_pos hlength]
  exact .pure ⟨state', hstate.symm, hframe.set_state state'⟩

/-- Steps are made one after the other. -/
theorem ends_steps {α : Type} {l : List α} {code : α → Except RequestError Stmt}
    {steps : Word → α → Except EvalError Word} (hstmts : l.mapM code = .ok stmts)
    (h : ∀ a ∈ l, ∀ stmt state frame, code a = .ok stmt → Hashing p state counter frame →
      Ends table s (exec table arena call result stmt frame) (Hashed p counter (steps state a)))
    (hframe : Hashing p state counter frame) :
    Ends table s (execAll table arena call result stmts frame)
      (Hashed p counter (l.foldlM steps state)) := by
  induction l generalizing state frame stmts with
  | nil =>
    rw [List.mapM_nil] at hstmts
    cases hstmts
    rw [execAll]
    exact .pure ⟨state, rfl, hframe⟩
  | cons a l ih =>
    rw [List.mapM_cons] at hstmts
    obtain ⟨stmt, hstmt, hstmts⟩ := bind_eq_ok_iff.1 hstmts
    obtain ⟨rest, hrest, hstmts⟩ := bind_eq_ok_iff.1 hstmts
    cases hstmts
    rw [execAll, List.foldlM_cons]
    refine (h a List.mem_cons_self stmt state frame hstmt hframe).bind (fun left hleft => ?_)
      fun e he => ?_
    · obtain ⟨flow, frame'⟩ := left
      cases flow with
      | next =>
        obtain ⟨state', hstate, hframe'⟩ := hleft
        rw [hstate]
        exact ih hrest (fun b hb => h b (List.mem_cons_of_mem a hb)) hframe'
      | goto label => exact hleft.elim
      | ret value => exact hleft.elim
    · have hstate : steps state a = .error e := he
      rw [hstate]
      rfl

section Body

variable (h : Lawful table) (hcalls : HashCalls table arena call s (n + 1) (table.callees .hash ty))
  (hget : table.get ty = .ok e) (hspecial : e.base = .special)
  (hp : ImageWithin table arena (n + 1) ty p)
include h hcalls hget hspecial hp

/-! ### Structs -/

section Struct

variable {name : Option String} {members : List Member} (hkind : e.kind = .struct name members)
include hkind

/-- The code for a field hashes all that a stop at the field covers. -/
theorem ends_hashField {field : Field} {i : Nat} {stmt : Stmt} (hi : e.fields[i]? = some field)
    (hblank : field.isBlank = false) (hstmt : table.hashField ty field i = .ok stmt)
    (hframe : Hashing p state counter frame) :
    Ends table s (exec table arena call result stmt frame)
      (Hashed p counter ((covered e.fields i (table.hashedUpTo ty i)).foldlM
        (fun state f => Leaves.hashWithin table arena (n + 1) f.ty (p + f.offset) state) state)) := by
  have hbase : e.base ≠ .memory := by rw [hspecial]; decide
  have hne : e.base ≠ .noEquality := by rw [hspecial]; decide
  have hmem := List.mem_of_getElem? hi
  have hpBounds := hp.readable.bounds
  rw [sizeOf_of_get hget] at hpBounds
  have hstruct : Denotes table arena call frame (.deref (.var HashCode.p) ty) p ty :=
    .deref hframe.p ty
  have hplace := hstruct.field_of_inBounds h hget hpBounds hi
  simp only [hashField] at hstmt
  simp only [hashedUpTo, fields_of_get hget, hi]
  split at hstmt
  · next hmemory =>
    obtain ⟨_, _, hrun⟩ := (h.laidOut hget).run hget hi hblank (beq_iff_eq.1 hmemory)
    cases hstmt
    rw [if_pos hmemory]
    refine ends_step hframe ?_
    rw [eval_call (words_cons hplace.eval_addr <| words_cons (eval_const _) <|
      words_cons (eval_var hframe.h) words_nil)]
    -- Hashing a run as one block is hashing its fields one after the other.
    exact hrun.hash h hget _ hpBounds state ▸ hcalls.memory _ _ _
  · next hmemory =>
    obtain ⟨callee, hcallee, hstmt⟩ := bind_eq_ok_iff.1 hstmt
    cases hstmt
    obtain ⟨hhas, _⟩ := h.base_part_ne hget hne (Entry.field_mem_parts hmem)
    have hpart := hp.field h hget hbase hmem hblank
    have hcallees : table.callees .hash ty = table.specialFields ty := by
      simp only [callees, kind_of_get hget, hkind]
    have hknown : table.base field.ty = .special → field.ty ∈ table.callees .hash ty :=
      fun hspecial' => hcallees ▸ mem_specialFields hget hmem hblank hspecial'
    -- Any other field is covered alone.
    rw [if_neg hmemory, covered_single hi, List.foldlM_cons]
    simp only [List.foldlM_nil, bind_pure]
    refine ends_step hframe ?_
    rw [eval_call (words_cons hplace.eval_addr <| words_cons (eval_var hframe.h) words_nil)]
    exact hcalls.element hhas hknown hcallee hpart state

/-- The code for a struct hashes its fields. -/
theorem ends_hashFields {steps : List Stmt}
    (hsteps : (table.hashedFields ty).mapM (fun (field, i) => table.hashField ty field i) = .ok steps)
    (hframe : Hashing p seed counter frame) :
    Ends table s (execAll table arena call result steps frame)
      (Hashed p counter (Leaves.hashWithin table arena (n + 1) ty p seed)) := by
  have hbase : e.base ≠ .memory := by rw [hspecial]; decide
  rw [hashedFields, fields_of_get hget] at hsteps
  rw [Leaves.hashWithin, Leaves.hashVia_struct hget hbase hkind,
    foldlM_leaders fun i field hi hblank => h.covered_hashed hget hi hblank]
  refine ends_steps hsteps (fun stop hstop stmt state frame hstmt hframe => ?_) hframe
  obtain ⟨hmem, hblank⟩ := mem_of_mem_leaders hstop
  exact ends_hashField h hcalls hget hspecial hp hkind (List.mem_zipIdx_iff_getElem?.1 hmem) hblank
    hstmt hframe

end Struct

/-! ### Arrays -/

section Array

variable {elem : TypeId} {len : Word}

/-- The hash state after the first `k` elements. -/
def hashedElements (table : TypeTable) (arena : Arena) (n : Nat) (elem : TypeId) (p seed : Word)
    (k : Nat) : Except EvalError Word :=
  (List.range' 0 k).foldlM (fun state j => Leaves.hashWithin table arena (n + 1) elem
    (p + UInt64.ofNat j * table.sizeOf elem) state) seed

omit h hcalls hget hspecial hp in
/-- Where the first elements have been hashed, the others go on from the state after them. -/
theorem hashedElements_add {k : Nat} (hstate : hashedElements table arena n elem p seed k = .ok state)
    (rest : Nat) : hashedElements table arena n elem p seed (k + (rest + 1)) =
      Leaves.hashWithin table arena (n + 1) elem (p + UInt64.ofNat k * table.sizeOf elem) state >>=
        (List.range' (k + 1) rest).foldlM fun state j => Leaves.hashWithin table arena (n + 1) elem
          (p + UInt64.ofNat j * table.sizeOf elem) state := by
  have hsplit : List.range' 0 (k + (rest + 1)) = List.range' 0 k ++ k :: List.range' (k + 1) rest := by
    rw [← List.range'_append_1, Nat.zero_add, List.range'_succ]
  unfold hashedElements at hstate ⊢
  rw [hsplit, List.foldlM_append, hstate]
  change List.foldlM _ _ _ = _
  rw [List.foldlM_cons]

variable (hkind : e.kind = .array elem len)
include hkind

omit h hcalls hp in
theorem hashWithin_array :
    Leaves.hashWithin table arena (n + 1) ty p seed =
      hashedElements table arena n elem p seed len.toNat :=
  Leaves.hashVia_array hget (by rw [hspecial]; decide) hkind

/-- The code for an element hashes the element that the counter stands at. -/
theorem ends_hashElement {callee : Callee} {k : Nat} (hcallee : table.hashCallee elem = .ok callee)
    (hk : k < len.toNat) (hframe : Hashing p state (some (UInt64.ofNat k)) frame) :
    Ends table s (exec table arena call result (.assign HashCode.h (.call callee
        [.addr (.elem (.deref (.var HashCode.p) ty) (.var HashCode.i) elem), .var HashCode.h])) frame)
      (Hashed p (some (UInt64.ofNat k)) (Leaves.hashWithin table arena (n + 1) elem
        (p + UInt64.ofNat k * table.sizeOf elem) state)) := by
  have hbase : e.base ≠ .memory := by rw [hspecial]; decide
  have hne : e.base ≠ .noEquality := by rw [hspecial]; decide
  obtain ⟨hhas, _⟩ := h.base_part_ne hget hne (Entry.elem_mem_parts hkind)
  have hpBounds := hp.readable.bounds
  rw [sizeOf_of_get hget] at hpBounds
  have hcallees : table.callees .hash ty = table.ownCallee elem := by
    simp only [callees, kind_of_get hget, hkind]
  have hknown : table.base elem = .special → elem ∈ table.callees .hash ty :=
    fun hspecial' => hcallees ▸ mem_ownCallee hspecial'
  have harray : Denotes table arena call frame (.deref (.var HashCode.p) ty) p ty :=
    .deref hframe.p ty
  have hplace := harray.elem_of_inBounds h hget hpBounds hkind hk (eval_var hframe.i)
  refine ends_step hframe ?_
  rw [eval_call (words_cons hplace.eval_addr <| words_cons (eval_var hframe.h) words_nil)]
  exact hcalls.element hhas hknown hcallee (hp.elem h hget hbase hkind hk) state

/-- The code for an array hashes its elements. -/
theorem ends_hashElements {steps : List Stmt} (hsteps : table.hashElements ty elem len = .ok steps)
    {index : Word} (hframe : Hashing p seed (some index) frame) :
    Ends table s (execAll table arena call result steps frame)
      (Hashed p (some len) (Leaves.hashWithin table arena (n + 1) ty p seed)) := by
  obtain ⟨callee, hcallee, hsteps⟩ := bind_eq_ok_iff.1 hsteps
  cases hsteps
  have hlength : HashCode.i < frame.length := (List.getElem?_eq_some_iff.1 hframe.i).1
  rw [execAll_singleton, exec, execOption, exec, eval_const, pure_bind, if_pos hlength, pure_bind,
    pure_bind, hashWithin_array hget hspecial hkind]
  -- Before round `k` the first `k` elements have been hashed.
  let inv (k : Nat) (frame : Frame) : Prop :=
    ∃ state, Hashing p state (some (UInt64.ofNat k)) frame ∧
      hashedElements table arena n elem p seed k = .ok state
  have hstart : inv 0 (frame.set HashCode.i 0) := ⟨seed, hframe.set_counter 0, rfl⟩
  refine rounds_ends (m := len.toNat) (fun k frame hk hinv => ?_) (fun k frame hk hinv => ?_)
    (fun frame hinv => ?_) (Nat.zero_le _) len.toNat_lt hstart
  · obtain ⟨state, hframe', _⟩ := hinv
    have hlt := decide_lt_ofNat hk len.toNat_lt
    rw [UInt64.ofNat_toNat] at hlt
    rw [eval_lt (eval_var hframe'.i) (eval_const _), hlt]
    exact .pure rfl
  · obtain ⟨state, hframe', hstate⟩ := hinv
    rw [execAll_singleton]
    refine (ends_hashElement h hcalls hget hspecial hp hkind hcallee hk hframe').mono
      fun answer hanswer => ?_
    cases answer with
    | error e =>
      -- The element fails, and with it the whole array, whatever comes after the element.
      obtain ⟨rest, hrest⟩ := Nat.exists_eq_add_of_lt hk
      have houtcome := hashedElements_add hstate rest
      rw [← Nat.add_assoc, ← hrest] at houtcome
      exact houtcome.trans (congrArg (· >>= _) hanswer)
    | ok left =>
      obtain ⟨flow, frame''⟩ := left
      cases flow with
      | next =>
        obtain ⟨state', hstate', hframe''⟩ := hanswer
        have hlength : HashCode.i < frame''.length := (List.getElem?_eq_some_iff.1 hframe''.i).1
        dsimp only
        rw [execOption, exec, eval_add (eval_var hframe''.i) (eval_const 1), pure_bind,
          if_pos hlength, pure_bind]
        refine .pure ⟨state', ?_, (hashedElements_add hstate 0).trans (congrArg (· >>= _) hstate')⟩
        rw [UInt64.ofNat_add]
        exact hframe''.set_counter _
      | goto label => exact hanswer.elim
      | ret value => exact hanswer.elim
  · obtain ⟨state, hframe', hstate⟩ := hinv
    rw [UInt64.ofNat_toNat] at hframe'
    exact ⟨state, hstate, hframe'⟩

end Array

end Body

/-! ### Whole functions -/

/-- A function that hashes answers the last state. -/
theorem ends_returnState {f : Function} {outcome : Except EvalError Word} (hparams : f.params = 2)
    (hbody : f.body = stmts ++ [.ret (some (.var HashCode.h))])
    (hstmts : Ends table s
      (execAll table arena call f.result stmts ([p, seed] ++ List.replicate (f.vars.length - 2) 0))
      (Hashed p counter outcome)) :
    Ends table s (run table arena call f [p, seed]) (· = outcome) := by
  have hargs : ¬[p, seed].length ≠ f.params := by
    rw [hparams]
    exact not_not_intro rfl
  rw [run, if_neg hargs, runFrom, hbody, execAll_append, bind_assoc]
  refine hstmts.bind (fun left hleft => ?_) fun e he => he.symm
  obtain ⟨flow, frame⟩ := left
  cases flow with
  | next =>
    obtain ⟨state, hstate, hframe⟩ := hleft
    dsimp only
    rw [execAll_singleton, exec, eval_var hframe.h, pure_bind, pure_bind]
    exact .pure hstate.symm
  | goto label => exact hleft.elim
  | ret value => exact hleft.elim

/-- The hash function of a type hashes an image leaf by leaf. -/
theorem ends_hashFunction {f : Function} (h : Lawful table)
    (hcalls : HashCalls table arena call s (n + 1) (table.callees .hash ty))
    (hty : table.Has ty) (hspecial : table.base ty = .special)
    (hp : ImageWithin table arena (n + 1) ty p) (hf : table.hashFunction ty = .ok f) (seed : Word) :
    Ends table s (run table arena call f [p, seed])
      (· = Leaves.hashWithin table arena (n + 1) ty p seed) := by
  obtain ⟨e, hget⟩ := hty
  rw [base_of_get hget] at hspecial
  obtain ⟨symbol, _, hf⟩ := bind_eq_ok_iff.1 hf
  obtain ⟨steps, hsteps, hf⟩ := bind_eq_ok_iff.1 hf
  cases hf
  rw [hashSteps, kind_of_get hget] at hsteps
  rcases (h.isAggregate_of_special hget hspecial).2 with ⟨elem, len, hkind⟩ | ⟨name, members, hkind⟩
  · have harray : (table.arrayElem? ty).isSome = true := by
      rw [arrayElem?, kind_of_get hget, hkind]
      rfl
    rw [hkind] at hsteps
    rw [harray]
    have hframe : Hashing p seed (some 0) [p, seed, 0] := ⟨rfl, rfl, rfl⟩
    exact ends_returnState rfl rfl
      (ends_hashElements h hcalls hget hspecial hp hkind hsteps hframe)
  · have hstruct : (table.arrayElem? ty).isSome = false := by
      rw [arrayElem?, kind_of_get hget, hkind]
      rfl
    rw [hkind] at hsteps
    rw [hstruct]
    have hframe : Hashing p seed none [p, seed] := ⟨rfl, rfl, rfl⟩
    exact ends_returnState rfl rfl (ends_hashFields h hcalls hget hspecial hp hkind hsteps hframe)

end Interpreter

end HashEq

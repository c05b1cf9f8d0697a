import HashEq.Proofs.Machine.CallGraph

/-!
# Generated code is never malformed

Well-typed code on two words, whatever these are and whatever lies in memory, ends with
a word, with a panic, or because memory is not as it should be. Of all complaints about
malformed code only the one about the type word of an interface remains, as that is read
from memory.

* `Permitted`: how generated code may fail;
* `Interpreter.lands_eval`, `Interpreter.lands_exec`, `Interpreter.lands_run`: well-typed code;
* `Primitives.lands_run`: primitives;
* `Evaluation.lands_invoke`: whatever can be called;
* `Machine.call_lands`: the functions of the sessions that can be reached.
-/

namespace HashEq

open Session TypeTable

/-- How generated code may fail. The last three are no answers of its own: the machine stops, at an
    address that there is not or a type that is not in the table, or goes on forever. -/
inductive Permitted (table : TypeTable) (arena : Arena) : EvalError → Prop
  /-- A value is hashed or compared whose type has no equality. -/
  | unhashable {ty : TypeId} {text : String} : table.base ty = .noEquality →
      table.text ty = .ok text → Permitted table arena (.unhashable text)
  | uncomparable {ty : TypeId} {text : String} : table.base ty = .noEquality →
      table.text ty = .ok text → Permitted table arena (.uncomparable text)
  | outOfBounds (addr len : Word) : Permitted table arena (.outOfBounds addr len)
  /-- A word in memory that should tell a type tells none. -/
  | typeWord {addr word : Word} : Primitives.loadWord table arena addr = .ok word →
      (∀ ty, typeOfWord word ≠ .ok ty) → Permitted table arena (.malformed (.typeWord word))
  | overflow : Permitted table arena (.fault .overflow)
  /-- A word in memory tells a type that is not in the table. -/
  | absent {addr word : Word} {ty : TypeId} {f : Fault} :
      Primitives.loadWord table arena addr = .ok word → typeOfWord word = .ok ty →
      table.get ty = .error f → Permitted table arena (.fault f)
  | unending : Permitted table arena (.fault .unending)

/-- An answer is good, or a failure that is permitted. -/
def Lands {α : Type} (table : TypeTable) (arena : Arena) (good : α → Prop) : Except EvalError α → Prop
  | .ok a => good a
  | .error e => Permitted table arena e

variable {table : TypeTable} {arena : Arena} {s : Session} {α β : Type}

namespace Lands

variable {good : α → Prop} {good' : β → Prop}

theorem mono {mid : α → Prop} {x : Except EvalError α} (h : Lands table arena mid x)
    (hgood : ∀ a, mid a → good a) : Lands table arena good x := by
  cases x with
  | ok a => exact hgood a h
  | error e => exact h

theorem bind {x : Except EvalError α} {next : α → Except EvalError β} (h : Lands table arena good x)
    (hnext : ∀ a, good a → Lands table arena good' (next a)) : Lands table arena good' (x >>= next) := by
  cases x with
  | ok a => exact hnext a h
  | error e => exact h

/-- What is computed with addresses may leave their range. -/
theorem ofChecked (n : Nat) :
    Lands table arena (fun _ => True) (liftM (Word.checked n) : Except EvalError Word) := by
  unfold Word.checked
  split
  · trivial
  · exact .overflow

end Lands

namespace Ends

variable {m : EvalM α} {good : α → Prop} {good' : β → Prop}

/-- An evaluation that lands is followed by another one. -/
theorem andThen {next : α → EvalM β} (h : Ends table s m (Lands table arena good))
    (hnext : ∀ a, good a → Ends table s (next a) (Lands table arena good')) :
    Ends table s (m >>= next) (Lands table arena good') :=
  h.bind hnext fun _ => id

theorem landsMap {f : α → β} (h : Ends table s m (Lands table arena good))
    (hf : ∀ a, good a → good' (f a)) : Ends table s (f <$> m) (Lands table arena good') := by
  rw [map_eq_pure_bind]
  exact h.andThen fun a ha => .pure (hf a ha)

end Ends

/-! ### Memory -/

section Memory

theorem lands_add (a b : Word) :
    Lands table arena (fun _ => True) (liftM (Word.add a b) : Except EvalError Word) :=
  .ofChecked _

theorem lands_mul (a b : Word) :
    Lands table arena (fun _ => True) (liftM (Word.mul a b) : Except EvalError Word) :=
  .ofChecked _

theorem lands_read (addr len : Word) :
    Lands table arena (fun bytes => bytes.length = len.toNat) (arena.read addr len) := by
  cases hread : arena.read addr len with
  | error e =>
    unfold Arena.read at hread
    split at hread
    · cases hread
    · cases hread
      exact .outOfBounds addr len
  | ok bytes =>
    obtain ⟨hbounds, hbytes⟩ := Arena.of_read_eq_ok hread
    change bytes.length = len.toNat
    rw [hbytes, Arena.length_bytesAt hbounds]

theorem lands_readWord {addr width : Word} (h : width.toNat ≤ 8) :
    Lands table arena (fun _ => True) (arena.readWord addr width) :=
  (lands_read addr width).bind fun bytes hbytes => by
    rw [← hbytes] at h
    simp only [if_pos h]
    trivial

theorem lands_memoryHash (p size h : Word) :
    Lands table arena (fun _ => True) (Primitives.memoryHash arena p size h) :=
  (lands_read p size).bind fun _ _ => trivial

theorem lands_memoryEqual (p q size : Word) :
    Lands table arena (fun _ => True) (Primitives.memoryEqual arena p q size) :=
  (lands_read p size).bind fun _ _ => (lands_read q size).bind fun _ _ => trivial

section Floats

variable {format : FloatFormat} (hwidth : format.width.toNat ≤ 8)
include hwidth

theorem lands_floatHash (p h : Word) :
    Lands table arena (fun _ => True) (Primitives.floatHash arena format p h) := by
  refine (lands_readWord hwidth).bind fun bits _ => ?_
  split
  · trivial
  · exact lands_memoryHash p format.width h

theorem lands_complexHash (p h : Word) :
    Lands table arena (fun _ => True) (Primitives.complexHash arena format p h) :=
  (lands_floatHash hwidth p h).bind fun _ _ => (lands_add p format.width).bind fun _ _ =>
    lands_floatHash hwidth _ _

theorem lands_floatEqual (p q : Word) :
    Lands table arena (fun _ => True) (Primitives.floatEqual arena format p q) :=
  (lands_readWord hwidth).bind fun _ _ => (lands_readWord hwidth).bind fun _ _ => trivial

theorem lands_complexEqual (p q : Word) :
    Lands table arena (fun _ => True) (Primitives.complexEqual arena format p q) := by
  refine (lands_floatEqual hwidth p q).bind fun equal _ => ?_
  split
  · exact (lands_add p format.width).bind fun _ _ => (lands_add q format.width).bind fun _ _ =>
      lands_floatEqual hwidth _ _
  · trivial

end Floats

section Words

variable (hpointer : table.target.pointerSize.toNat ≤ 8)
include hpointer

/-- Words are found in memory, or not at all. -/
theorem lands_loadWord (p : Word) :
    Lands table arena (fun word => Primitives.loadWord table arena p = .ok word)
      (Primitives.loadWord table arena p) := by
  have hlands : Lands table arena (fun _ => True) (Primitives.loadWord table arena p) :=
    lands_readWord hpointer
  cases hload : Primitives.loadWord table arena p with
  | error e =>
    rw [hload] at hlands
    exact hlands
  | ok word => rfl

theorem lands_loadPair (p : Word) :
    Lands table arena (fun pair => Primitives.loadWord table arena p = .ok pair.1)
      (Primitives.loadPair table arena p) :=
  (lands_loadWord hpointer p).bind fun _ hfirst => (lands_add p table.target.pointerSize).bind
    fun second _ => (lands_loadWord hpointer second).bind fun _ _ => hfirst

theorem lands_stringHash (p h : Word) :
    Lands table arena (fun _ => True) (Primitives.stringHash table arena p h) :=
  (lands_loadPair hpointer p).bind fun pair _ => lands_memoryHash pair.1 pair.2 h

theorem lands_stringEqual (p q : Word) :
    Lands table arena (fun _ => True) (Primitives.stringEqual table arena p q) :=
  (lands_loadPair hpointer p).bind fun _ _ => (lands_loadPair hpointer q).bind fun _ _ => by
    dsimp only
    split
    · exact lands_memoryEqual _ _ _
    · trivial

end Words

/-- A word in memory tells a type, or is reported. -/
theorem lands_typeOfWord {p word : Word} (h : Primitives.loadWord table arena p = .ok word) :
    Lands table arena (fun ty => typeOfWord word = .ok ty) (typeOfWord word) := by
  cases htype : typeOfWord word with
  | ok ty => rfl
  | error e =>
    have hnone : ∀ ty, typeOfWord word ≠ .ok ty := by simp [htype]
    unfold typeOfWord at htype
    simp only at htype
    split at htype
    · cases htype
    · cases htype
      exact .typeWord h hnone

end Memory

/-! ### Primitives -/

/-- The words of a type: truth values are zero or one. -/
def ExprType.Fits : ExprType → Word → Prop
  | .bool, value => value = 0 ∨ value = 1
  | _, _ => True

theorem ExprType.fits_wordOfBool (type : ExprType) (b : Bool) : type.Fits (wordOfBool b) := by
  cases type with
  | bool => cases b <;> simp [Fits, wordOfBool]
  | _ => trivial

theorem ExprType.fits_zero (type : ExprType) : type.Fits 0 :=
  type.fits_wordOfBool false

/-- A truth value as a word. -/
theorem Ends.ofBool {m : EvalM Bool} (h : Ends table s m (Lands table arena fun _ => True)) :
    Ends table s (wordOfBool <$> m) (Lands table arena ExprType.bool.Fits) :=
  h.landsMap fun b _ => ExprType.bool.fits_wordOfBool b

/-- What can be called ends with a word that its purpose calls for, if it ends. -/
def LandsCalls (table : TypeTable) (arena : Arena) (call : Callee → List Word → EvalM Word) : Prop :=
  ∀ {s : Session} {purpose : Purpose} {callee : Callee} {args : List Word}, Sound table s →
    s.Callable purpose callee args.length →
    Ends table s (call callee args) (Lands table arena purpose.exprType.Fits)

/-- Closures can be called on two words. -/
def LandsClosures (table : TypeTable) (arena : Arena) (call : Primitives.Caller) : Prop :=
  ∀ {s : Session} {purpose : Purpose} {c : Closure} (a b : Word), Sound table s →
    s.Callable purpose c.target c.count →
    Ends table s (call c.target c.payload [a, b]) (Lands table arena purpose.exprType.Fits)

/-- The closure is asked for that compares values of a type that a word in memory tells. -/
theorem runs_equalityRequest (h : Built table) (hs : Sound table s) {addr word : Word} {ty : TypeId}
    (hword : Primitives.loadWord table arena addr = .ok word) (htype : typeOfWord word = .ok ty) :
    Runs table s (EvalM.ofRequest (equalityClosure table ty)) fun answer s' =>
      Lands table arena (fun closure =>
        match closure with
        | some c => s'.Callable .equality c.target c.count
        | none => table.Has ty ∧ table.base ty = .noEquality) answer := by
  by_cases hty : table.Has ty
  · refine ((runs_equalityClosure_callable h hs).and (runs_equalityClosure h hs)).ofRequest
      fun answer s' hanswer => ?_
    match answer, hanswer with
    | .ok (some c), ⟨hcallable, _⟩ => exact hcallable c rfl
    | .ok none, ⟨_, hbase⟩ => exact ⟨hty, hbase⟩
    | .error e, ⟨_, hnot⟩ => exact absurd hty hnot
  · cases hget : table.get ty with
    | ok e => exact absurd ⟨e, hget⟩ hty
    | error f =>
      have hrequest : equalityClosure table ty = throw (.fault f) := by
        rw [equalityClosure, hget]
        rfl
      rw [hrequest]
      exact .throw hs (.absent hword htype hget)

/-- The closure that hashes values of a type is asked for. -/
theorem runs_hashRequest (h : Built table) (hs : Sound table s) {ty : TypeId} (hty : table.Has ty)
    (hne : table.base ty ≠ .noEquality) :
    Runs table s (EvalM.ofRequest (hashClosure table ty)) fun answer s' =>
      Lands table arena (fun c => s'.Callable .hash c.target c.count) answer :=
  ((runs_hashClosure_callable h hs).and (runs_hashClosure h hs)).ofRequest
    fun answer s' hanswer => by
      match answer, hanswer with
      | .ok c, ⟨hcallable, _⟩ => exact hcallable
      | .error e, ⟨_, hnot⟩ => exact absurd ⟨hty, hne⟩ hnot

/-- What a request answers is gone on with in the session that it leaves. -/
theorem Ends.andThen_request {m : EvalM α} {next : α → EvalM β} {ok : α → Session → Prop}
    {good : β → Prop}
    (h : ∀ s, Sound table s → Runs table s m fun answer s' => Lands table arena (ok · s') answer)
    (hnext : ∀ a s, Sound table s → ok a s → Ends table s (next a) (Lands table arena good)) :
    Ends table s (m >>= next) (Lands table arena good) :=
  fun s₁ hs₁ _ => (h s₁ hs₁).bind (fun a s₂ hs₂ _ ha => hnext a s₂ hs₂ ha s₂ hs₂ (.refl s₂))
    fun _ _ _ _ => id

namespace Primitives

section Interfaces

variable (h : Built table) (hpointer : table.target.pointerSize.toNat ≤ 8) {call : Caller}
  (hcall : LandsClosures table arena call)
include h hpointer hcall

theorem lands_interfaceHash (p seed : Word) :
    Ends table s (interfaceHash table arena call p seed) (Lands table arena fun _ => True) := by
  unfold interfaceHash
  refine (Ends.lift (lands_loadPair hpointer p)).andThen fun (word, data) hword => ?_
  dsimp only
  split
  · exact .pure trivial
  · refine (Ends.lift (lands_typeOfWord hword)).andThen fun ty htype => ?_
    have hget : Lands table arena (fun e => table.get ty = .ok e)
        (liftM (table.get ty) : Except EvalError Entry) := by
      cases hget : table.get ty with
      | ok e => rfl
      | error f => exact .absent hword htype hget
    refine (Ends.lift hget).andThen fun e hget => ?_
    have htext := h.lawful.text_eq ⟨e, hget⟩
    split
    · next halgorithm =>
      rw [htext]
      exact .throw (.unhashable (algorithm_eq_noEquality_iff.1 halgorithm) htext)
    · next halgorithm =>
      refine .andThen_request (fun _ hs => runs_hashRequest h hs ⟨e, hget⟩ fun hbase =>
        halgorithm (algorithm_eq_noEquality_iff.2 hbase)) fun c s' hs' hc => ?_
      exact (hcall data (seed ^^^ mixIn) hs' hc).andThen fun _ _ => .pure trivial

theorem lands_interfaceEqual (p q : Word) :
    Ends table s (interfaceEqual table arena call p q) (Lands table arena fun _ => True) := by
  unfold interfaceEqual
  refine (Ends.lift (lands_loadPair hpointer p)).andThen fun (pWord, pData) hword =>
    (Ends.lift (lands_loadPair hpointer q)).andThen fun (qWord, qData) _ => ?_
  dsimp only
  split
  · exact .pure trivial
  · split
    · exact .pure trivial
    · refine (Ends.lift (lands_typeOfWord hword)).andThen fun ty htype =>
        .andThen_request (fun _ hs => runs_equalityRequest h hs hword htype)
          fun closure s' hs' hclosure => ?_
      cases closure with
      | none =>
        have htext := h.lawful.text_eq hclosure.1
        rw [htext]
        exact .throw (.uncomparable hclosure.2 htext)
      | some c => exact (hcall pData qData hs' hclosure).andThen fun _ _ => .pure trivial

/-- A primitive that takes two words. -/
theorem lands_run_pair {operation : Operation} (hsize : operation.takesSize = false)
    (purpose : Purpose) (a b : Word) :
    Ends table s (run table arena call ⟨purpose, operation⟩ [a, b])
      (Lands table arena purpose.exprType.Fits) := by
  cases purpose with
  | hash =>
    suffices hlands : Ends table s (run table arena call ⟨.hash, operation⟩ [a, b])
        (Lands table arena fun _ => True) from hlands
    cases operation with
    | varMemory | memory => cases hsize
    | fixedMemory width => exact .lift (lands_memoryHash a width.bytes b)
    | string => exact .lift (lands_stringHash hpointer a b)
    | interface | nilInterface => exact lands_interfaceHash h hpointer hcall a b
    | float32 | float64 => exact .lift (lands_floatHash (by decide) a b)
    | complex64 | complex128 => exact .lift (lands_complexHash (by decide) a b)
  | equality =>
    suffices hlands : Ends table s (run table arena call ⟨.equality, operation⟩ [a, b])
        (Lands table arena ExprType.bool.Fits) from hlands
    cases operation with
    | varMemory | memory => cases hsize
    | fixedMemory width => exact .ofBool (.lift (lands_memoryEqual a b width.bytes))
    | string => exact .ofBool (.lift (lands_stringEqual hpointer a b))
    | interface | nilInterface =>
      exact .ofBool (lands_interfaceEqual h hpointer hcall a b)
    | float32 | float64 => exact .ofBool (.lift (lands_floatEqual (by decide) a b))
    | complex64 | complex128 => exact .ofBool (.lift (lands_complexEqual (by decide) a b))

/-- A primitive that gets as many arguments as it takes. -/
theorem lands_run (primitive : Primitive) {args : List Word}
    (hcount : primitive.contract.arity = args.length) :
    Ends table s (run table arena call primitive args)
      (Lands table arena primitive.purpose.exprType.Fits) := by
  obtain ⟨purpose, operation⟩ := primitive
  cases hsize : operation.takesSize with
  | false =>
    have hlength : args.length = 2 := by
      rw [← hcount, Primitive.contract]
      cases purpose <;> rw [hsize] <;> rfl
    rcases args with _ | ⟨a, _ | ⟨b, _ | _⟩⟩ <;> cases hlength
    exact lands_run_pair h hpointer hcall hsize purpose a b
  | true =>
    have hlength : args.length = 3 := by
      rw [← hcount, Primitive.contract]
      cases purpose <;> rw [hsize] <;> rfl
    rcases args with _ | ⟨a, _ | ⟨b, _ | ⟨c, _ | _⟩⟩⟩ <;> cases hlength
    cases operation with
    | varMemory | memory =>
      cases purpose with
      | hash => exact .lift (lands_memoryHash a b c)
      | equality => exact .ofBool (.lift (lands_memoryEqual a b c))
    | _ => cases hsize

end Interfaces

end Primitives

/-! ### Expressions -/

/-- Whether a type is that of places. -/
def ExprType.isPlace : ExprType → Bool
  | .place _ => true
  | _ => false

/-- The operands of a type. -/
def Operand.Fits : Operand → ExprType → Prop
  | .place _ ty, type => type = .place ty
  | .word value, type => type.isPlace = false ∧ type.Fits value

theorem VarType.isPlace_exprType (type : VarType) : type.exprType.isPlace = false := by
  cases type <;> rfl

theorem Purpose.isPlace_exprType (purpose : Purpose) : purpose.exprType.isPlace = false := by
  cases purpose <;> rfl

/-- Places are denoted by certain expressions only. -/
theorem Expr.HasType.isPlace_eq {callable : Callee → Nat → Prop} {f : Function} {e : Expr}
    {type : ExprType} (h : e.HasType table callable f type) : e.isPlace = type.isPlace := by
  induction h with
  | @var _ var _ => exact var.type.isPlace_exprType.symm
  | call => exact f.purpose.isPlace_exprType.symm
  | ofBool _ ih => exact ih
  | _ => rfl

/-- Where control can go in a function: on, to a label of the function, or back with a word. -/
def Flow.Fits (f : Function) : Flow → Prop
  | .next => True
  | .goto id => Stmt.label id ∈ f.body
  | .ret value => f.purpose.exprType.Fits value

/-- A frame has a word for every variable. -/
structure FrameFits (f : Function) (frame : Frame) : Prop where
  length : frame.length = f.vars.length
  fits : ∀ {id : Nat} {var : Var} {value : Word}, f.vars[id]? = some var →
    frame[id]? = some value → var.type.exprType.Fits value

namespace FrameFits

variable {f : Function} {frame : Frame} {id : Nat} {var : Var}

theorem lookup (h : FrameFits f frame) (hvar : f.vars[id]? = some var) :
    ∃ value, frame[id]? = some value ∧ var.type.exprType.Fits value := by
  have hid : id < frame.length := h.length ▸ (List.getElem?_eq_some_iff.1 hvar).1
  exact ⟨_, List.getElem?_eq_getElem hid, h.fits hvar (List.getElem?_eq_getElem hid)⟩

theorem set (h : FrameFits f frame) (hvar : f.vars[id]? = some var) {value : Word}
    (hvalue : var.type.exprType.Fits value) : FrameFits f (frame.set id value) := by
  refine ⟨by rw [List.length_set, h.length], fun {i var' value'} hvar' hvalue' => ?_⟩
  rw [List.getElem?_set] at hvalue'
  split at hvalue'
  · next heq =>
    subst heq
    split at hvalue'
    · cases hvalue'
      cases hvar.symm.trans hvar'
      exact hvalue
    · cases hvalue'
  · exact h.fits hvar' hvalue'

end FrameFits

namespace Interpreter

section Code

variable {f : Function} {call : Callee → List Word → EvalM Word} {frame : Frame}

/-- Where an expression of a word type goes on. -/
theorem lands_wordOf {m : EvalM Operand} {type : ExprType} (htype : type.isPlace = false)
    (h : Ends table s m (Lands table arena (·.Fits type))) :
    Ends table s (wordOf table arena m) (Lands table arena type.Fits) := by
  refine h.andThen fun operand hoperand => ?_
  match operand, hoperand with
  | .word value, hvalue => exact .pure hvalue.2
  | .place _ ty, hplace =>
    rw [hplace] at htype
    cases htype

theorem lands_placeOf {e : Expr} {ty : TypeId} (hplace : e.isPlace = true) {m : EvalM Operand}
    (h : Ends table s m (Lands table arena (·.Fits (.place ty)))) :
    Ends table s (placeOf e m) (Lands table arena (·.2 = ty)) := by
  rw [placeOf, if_pos hplace]
  refine h.andThen fun operand hoperand => ?_
  cases operand with
  | word value => cases hoperand.1
  | place addr ty' =>
    cases hoperand
    exact .pure rfl

theorem lands_placesEqual {ty : TypeId} (h : (table.base ty).ComparedInPlace) (p q : Word) :
    Lands table arena (fun _ => True) (placesEqual table arena p q ty) := by
  unfold placesEqual
  split
  · exact lands_memoryEqual p q _
  · exact lands_floatEqual (by decide) p q
  · exact lands_floatEqual (by decide) p q
  · exact lands_complexEqual (by decide) p q
  · exact lands_complexEqual (by decide) p q
  · next hmemory hfloat hdouble hcomplex hdoubles =>
    simp only [BaseAlgorithm.ComparedInPlace, List.mem_cons, List.not_mem_nil, or_false] at h
    rcases h with h | h | h | h | h
    · exact absurd h hmemory
    · exact absurd h hfloat
    · exact absurd h hdouble
    · exact absurd h hcomplex
    · exact absurd h hdoubles

/-- Arguments are evaluated to as many words. -/
theorem lands_words {args : List Expr} {good : Expr → Word → Prop}
    (h : ∀ e ∈ args, Ends table s (wordOf table arena (operand table arena call frame e))
      (Lands table arena (good e))) :
    Ends table s (words table arena call frame args) (Lands table arena (·.length = args.length)) := by
  induction args with
  | nil =>
    rw [words]
    exact .pure rfl
  | cons e args ih =>
    rw [words]
    exact (h e List.mem_cons_self).andThen fun _ _ =>
      (ih fun e he => h e (.tail _ he)).andThen fun values hvalues => .pure (congrArg (· + 1) hvalues)

variable (hpointer : table.target.pointerSize.toNat ≤ 8) (hs : Sound table s)
  (hcall : LandsCalls table arena call)
include hpointer hs hcall

/-- Well-typed expressions evaluate to operands of their type. -/
theorem lands_operand (hframe : FrameFits f frame) {e : Expr} {type : ExprType}
    (h : e.HasType table (s.Callable f.purpose) f type) :
    Ends table s (operand table arena call frame e) (Lands table arena (·.Fits type)) := by
  induction h with
  | @var id var hvar =>
    obtain ⟨value, hvalue, hfits⟩ := hframe.lookup hvar
    rw [operand, hvalue]
    exact .pure ⟨var.type.isPlace_exprType, hfits⟩
  | const value =>
    rw [operand]
    exact .pure ⟨rfl, trivial⟩
  | bool value =>
    rw [operand]
    exact .pure ⟨rfl, ExprType.bool.fits_wordOfBool value⟩
  | ofBool _ ih =>
    refine ih.mono fun answer hanswer => hanswer.mono fun value hvalue => ?_
    cases value with
    | word value => exact ⟨rfl, trivial⟩
    | place addr ty => cases hvalue
  | deref ty _ ih =>
    rw [operand]
    exact (lands_wordOf rfl ih).andThen fun _ _ => .pure rfl
  | @field base owner e index field hbase hget hfield ih =>
    rw [operand]
    refine (lands_placeOf hbase.isPlace_eq ih).andThen fun (addr, _) _ => .lift ?_
    rw [fieldPlace_eq hget hfield]
    exact (lands_add addr field.offset).bind fun _ _ => rfl
  | @elem base position array elem len hbase hkind hposition ih ih' =>
    rw [Expr.elem, operand]
    refine (lands_placeOf hbase.isPlace_eq ih).andThen fun (addr, _) _ =>
      (lands_wordOf rfl ih').andThen fun index _ => .lift ?_
    exact (lands_mul index (table.sizeOf elem)).bind fun offset _ =>
      (lands_add addr offset).bind fun _ _ => rfl
  | addr hplace ih =>
    rw [operand]
    exact (lands_placeOf hplace.isPlace_eq ih).andThen fun _ _ => .pure ⟨rfl, trivial⟩
  | strLen hplace _ ih | strPtr hplace _ ih =>
    rw [operand]
    exact (lands_placeOf hplace.isPlace_eq ih).andThen fun (addr, _) _ =>
      (Ends.lift (lands_loadPair hpointer addr)).andThen fun _ _ => .pure ⟨rfl, trivial⟩
  | @equalPlaces lhs rhs ty hlhs hrhs hbase ih ih' =>
    rw [Expr.eq, operand, if_pos (by rw [hlhs.isPlace_eq, hrhs.isPlace_eq]; rfl)]
    -- Both operands are places of the one type, so the comparison of places is defined on them.
    refine ih.andThen fun a ha => ih'.andThen fun b hb => ?_
    cases a with
    | word value => cases ha.1
    | place p pTy =>
      cases b with
      | word value => cases hb.1
      | place q qTy =>
        cases ha
        cases hb
        change Ends table s (if ty ≠ ty then _ else _) _
        rw [if_neg (fun hne => hne rfl)]
        exact (Ends.lift (lands_placesEqual hbase p q)).andThen fun b _ =>
          .pure ⟨rfl, ExprType.bool.fits_wordOfBool b⟩
  | @equalWords lhs rhs hlhs hrhs ih ih' =>
    rw [Expr.eq, operand, if_neg (by rw [hlhs.isPlace_eq]; exact Bool.false_ne_true)]
    exact (lands_wordOf rfl ih).andThen fun a _ => (lands_wordOf rfl ih').andThen fun b _ =>
      .pure ⟨rfl, ExprType.bool.fits_wordOfBool (a == b)⟩
  | lt _ _ ih ih' =>
    rw [operand]
    exact (lands_wordOf rfl ih).andThen fun a _ => (lands_wordOf rfl ih').andThen fun b _ =>
      .pure ⟨rfl, ExprType.bool.fits_wordOfBool (a < b)⟩
  | add _ _ ih ih' =>
    rw [operand]
    exact (lands_wordOf rfl ih).andThen fun _ _ => (lands_wordOf rfl ih').andThen fun _ _ =>
      .pure ⟨rfl, trivial⟩
  | and _ _ ih ih' =>
    rw [operand]
    refine (lands_wordOf rfl ih).andThen fun a _ => ?_
    split
    · exact .pure ⟨rfl, .inl rfl⟩
    · exact (lands_wordOf rfl ih').andThen fun b _ =>
        .pure ⟨rfl, ExprType.bool.fits_wordOfBool (b != 0)⟩
  | @call callee args hcallable hargs ih =>
    rw [operand]
    refine (lands_words fun e he => lands_wordOf rfl (ih e he)).andThen fun values hvalues => ?_
    rw [← hvalues] at hcallable
    exact (hcall hs hcallable).andThen fun value hvalue =>
      .pure ⟨f.purpose.isPlace_exprType, hvalue⟩

theorem lands_eval (hframe : FrameFits f frame) {e : Expr} {type : ExprType}
    (htype : type.isPlace = false) (h : e.HasType table (s.Callable f.purpose) f type) :
    Ends table s (eval table arena call frame e) (Lands table arena type.Fits) :=
  lands_wordOf htype (lands_operand hpointer hs hcall hframe h)

end Code

/-! ### Statements -/

/-- What statements leave behind: words for all variables, and control where it can go. Control
    goes on behind them unless `leaves` holds. -/
structure Left (f : Function) (leaves : Prop) (left : Flow × Frame) : Prop where
  flow : left.1.Fits f
  frame : FrameFits f left.2
  leaves : leaves → left.1 ≠ .next

section Statements

variable {f : Function} {call : Callee → List Word → EvalM Word}

theorem lands_execAll {result : Option Nat} {body : List Stmt}
    (h : ∀ stmt ∈ body, ∀ frame, FrameFits f frame →
      Ends table s (exec table arena call result stmt frame)
        (Lands table arena (Left f (stmt.leaves = true)))) {frame : Frame} (hframe : FrameFits f frame) :
    Ends table s (execAll table arena call result body frame)
      (Lands table arena (Left f (∃ stmt ∈ body.getLast?, stmt.leaves = true))) := by
  induction body generalizing frame with
  | nil =>
    rw [execAll]
    exact .pure ⟨trivial, hframe, nofun⟩
  | cons stmt body ih =>
    rw [execAll]
    refine (h stmt List.mem_cons_self frame hframe).andThen fun (flow, frame') hleft => ?_
    cases flow with
    | next =>
      refine (ih (fun stmt hstmt => h stmt (.tail _ hstmt)) hleft.frame).mono fun answer hanswer =>
        hanswer.mono fun left hrest => ⟨hrest.flow, hrest.frame, fun hlast => hrest.leaves ?_⟩
      cases body with
      | nil =>
        -- The statement is the last one, and would have left.
        obtain ⟨last, hmem, hlast⟩ := hlast
        obtain rfl : stmt = last := Option.some.inj hmem
        exact absurd rfl (hleft.leaves hlast)
      | cons => exact hlast
    | goto id => exact .pure ⟨hleft.flow, hleft.frame, nofun⟩
    | ret value => exact .pure ⟨hleft.flow, hleft.frame, nofun⟩

theorem lands_execOption {result : Option Nat} {stmt : Option Stmt}
    (h : ∀ stmt' ∈ stmt, ∀ frame, FrameFits f frame →
      Ends table s (exec table arena call result stmt' frame)
        (Lands table arena (Left f (stmt'.leaves = true)))) {frame : Frame}
    (hframe : FrameFits f frame) :
    Ends table s (execOption table arena call result stmt frame) (Lands table arena (FrameFits f)) := by
  cases stmt with
  | none =>
    rw [execOption]
    exact .pure hframe
  | some stmt =>
    rw [execOption]
    exact (h stmt rfl frame hframe).andThen fun _ hleft => .pure hleft.frame

theorem lands_rounds {holds : Frame → EvalM Word} {round : Frame → EvalM (Flow × Frame)}
    {step : Frame → EvalM Frame} {leaves : Prop}
    (hholds : ∀ frame, FrameFits f frame → Ends table s (holds frame) (Lands table arena fun _ => True))
    (hround : ∀ frame, FrameFits f frame → Ends table s (round frame) (Lands table arena (Left f leaves)))
    (hstep : ∀ frame, FrameFits f frame → Ends table s (step frame) (Lands table arena (FrameFits f)))
    (limit : Nat) {frame : Frame} (hframe : FrameFits f frame) :
    Ends table s (rounds holds round step limit frame) (Lands table arena (Left f False)) := by
  induction limit generalizing frame with
  | zero => exact .throw .unending
  | succ limit ih =>
    rw [rounds]
    refine (hholds frame hframe).andThen fun truth _ => ?_
    split
    · exact .pure ⟨trivial, hframe, False.elim⟩
    · refine (hround frame hframe).andThen fun left hleft => ?_
      obtain ⟨flow, frame'⟩ := left
      cases flow with
      | next => exact (hstep frame' hleft.frame).andThen fun _ hframe => ih hframe
      | goto id => exact .pure ⟨hleft.flow, hleft.frame, False.elim⟩
      | ret value => exact .pure ⟨hleft.flow, hleft.frame, False.elim⟩

variable (hpointer : table.target.pointerSize.toNat ≤ 8) (hs : Sound table s)
  (hcall : LandsCalls table arena call)
include hpointer hs hcall

/-- Well-typed statements leave frames for their function, and control where it can go. -/
theorem lands_exec {stmt : Stmt} (h : stmt.Typed table (s.Callable f.purpose) f) {frame : Frame}
    (hframe : FrameFits f frame) :
    Ends table s (exec table arena call f.result stmt frame)
      (Lands table arena (Left f (stmt.leaves = true))) := by
  induction h generalizing frame with
  | @assign target var value hvar hvalue =>
    -- The variable is there to be assigned, and what it is assigned fits its type.
    have htarget : target < frame.length := hframe.length ▸ (List.getElem?_eq_some_iff.1 hvar).1
    rw [exec]
    refine (lands_eval hpointer hs hcall hframe var.type.isPlace_exprType hvalue).andThen
      fun word hword => ?_
    rw [if_pos htarget]
    exact .pure ⟨trivial, hframe.set hvar hword, nofun⟩
  | @branch cond yes no hcond _ _ ihYes ihNo =>
    rw [exec]
    refine (lands_eval hpointer hs hcall hframe rfl hcond).andThen fun truth _ => ?_
    split
    · exact (lands_execAll (fun stmt hstmt _ => ihYes stmt hstmt) hframe).mono fun _ hanswer =>
        hanswer.mono fun _ hleft => ⟨hleft.flow, hleft.frame, nofun⟩
    · exact (lands_execAll (fun stmt hstmt _ => ihNo stmt hstmt) hframe).mono fun _ hanswer =>
        hanswer.mono fun _ hleft => ⟨hleft.flow, hleft.frame, nofun⟩
  | @loop init post cond body _ hcond _ _ ihInit ihPost ihBody =>
    rw [exec]
    refine (lands_execOption (fun stmt hstmt _ => ihInit stmt hstmt) hframe).andThen
      fun frame' hframe' => ?_
    refine (lands_rounds (fun _ hframe => (lands_eval hpointer hs hcall hframe rfl hcond).mono
        fun _ hanswer => hanswer.mono fun _ _ => trivial)
      (fun _ => lands_execAll fun stmt hstmt _ => ihBody stmt hstmt)
      (fun _ => lands_execOption fun stmt hstmt _ => ihPost stmt hstmt) roundLimit hframe').mono
        fun _ hanswer => hanswer.mono fun _ hleft => ⟨hleft.flow, hleft.frame, nofun⟩
  | label id =>
    rw [exec]
    exact .pure ⟨trivial, hframe, nofun⟩
  | goto hlabel =>
    rw [exec]
    exact .pure ⟨hlabel, hframe, nofun⟩
  | ret hvalue =>
    rw [exec]
    exact (lands_eval hpointer hs hcall hframe f.purpose.isPlace_exprType hvalue).andThen
      fun word hword => .pure ⟨hword, hframe, nofun⟩
  | @result id var hresult hvar htype =>
    obtain ⟨value, hvalue, hfits⟩ := hframe.lookup hvar
    rw [hresult, exec, hvalue]
    rw [htype] at hfits
    exact .pure ⟨hfits, hframe, nofun⟩

/-! ### Functions -/

omit hpointer hs hcall in
/-- What stands behind a label ends like the whole body. -/
theorem of_fromLabel {id : Nat} (hlabel : Stmt.label id ∈ f.body) :
    ∃ rest, fromLabel f id = .ok rest ∧ (∀ stmt ∈ rest, stmt ∈ f.body) ∧
      rest.getLast? = f.body.getLast? := by
  unfold fromLabel
  generalize hpassed : (fun stmt : Stmt => _) = passed
  have hlabel' : passed (.label id) = false := by
    rw [← hpassed]
    exact bne_self_eq_false id
  obtain ⟨before, hbefore⟩ := f.body.dropWhile_suffix passed
  cases hrest : f.body.dropWhile passed with
  | nil =>
    have htaken := List.takeWhile_append_dropWhile (p := passed) (l := f.body)
    rw [hrest, List.append_nil] at htaken
    have hall := List.all_takeWhile (p := passed) (l := f.body)
    rw [htaken] at hall
    rw [List.all_eq_true.1 hall _ hlabel] at hlabel'
    cases hlabel'
  | cons stmt rest =>
    rw [hrest] at hbefore
    refine ⟨stmt :: rest, rfl, fun stmt' hstmt => ?_, ?_⟩
    · exact hbefore ▸ List.mem_append_right before hstmt
    · rw [← hbefore, List.getLast?_append]
      rfl

theorem lands_runFrom (hf : f.Typed table (s.Callable f.purpose)) (jumps : Nat) {body : List Stmt}
    (hbody : ∀ stmt ∈ body, stmt ∈ f.body) (hlast : body.getLast? = f.body.getLast?) {frame : Frame}
    (hframe : FrameFits f frame) :
    Ends table s (runFrom table arena call f jumps body frame)
      (Lands table arena f.purpose.exprType.Fits) := by
  have hleft := lands_execAll (fun stmt hstmt _ => lands_exec hpointer hs hcall
    (hf.body stmt (hbody stmt hstmt))) hframe
  induction jumps generalizing body frame with
  | zero =>
    rw [runFrom]
    refine hleft.andThen fun left hleft => ?_
    obtain ⟨flow, frame'⟩ := left
    cases flow with
    | next => exact absurd rfl (hleft.leaves (hlast ▸ hf.leaves))
    | ret value => exact .pure hleft.flow
    | goto id => exact .throw .unending
  | succ jumps ih =>
    rw [runFrom]
    refine hleft.andThen fun left hleft => ?_
    obtain ⟨flow, frame'⟩ := left
    cases flow with
    | next => exact absurd rfl (hleft.leaves (hlast ▸ hf.leaves))
    | ret value => exact .pure hleft.flow
    | goto id =>
      obtain ⟨rest, hrest, hmem, hlast'⟩ := of_fromLabel hleft.flow
      dsimp only
      rw [hrest]
      exact ih hmem hlast' hleft.frame (lands_execAll (fun stmt hstmt _ =>
        lands_exec hpointer hs hcall (hf.body stmt (hmem stmt hstmt))) hleft.frame)

/-- Well-typed functions can be run on two words. -/
theorem lands_run (hf : f.Typed table (s.Callable f.purpose)) {args : List Word}
    (hcount : args.length = f.params) :
    Ends table s (run table arena call f args) (Lands table arena f.purpose.exprType.Fits) := by
  rw [run, if_neg (fun hne => hne hcount)]
  refine lands_runFrom hpointer hs hcall hf _ (fun _ hstmt => hstmt) rfl ⟨?_, ?_⟩
  · obtain ⟨_, hvar, _⟩ := hf.args 1 (by decide)
    have hlength := (List.getElem?_eq_some_iff.1 hvar).1
    have hparams := hf.params
    rw [List.length_append, List.length_replicate]
    omega
  · intro id var value hvar hvalue
    rw [List.getElem?_append] at hvalue
    split at hvalue
    · next hid =>
      obtain ⟨var', hvar', htype⟩ := hf.args id (by rwa [hcount, hf.params] at hid)
      cases hvar.symm.trans hvar'
      rw [htype]
      trivial
    · obtain rfl := List.eq_of_mem_replicate (List.mem_of_getElem? hvalue)
      exact var.type.exprType.fits_zero

end Statements

end Interpreter

/-! ### Calls -/

namespace Evaluation

/-- The target of a closure is called with as many words as it takes. -/
theorem lands_callClosure (h : Lawful table) {invoke : Callee → List Word → EvalM Word}
    (hinvoke : LandsCalls table arena invoke) : LandsClosures table arena (callClosure invoke) := by
  intro s purpose c a b hs hcallable
  obtain ⟨_, target, payload, _, _⟩ := c
  cases target with
  | primitive primitive =>
    cases payload with
    | none => exact @hinvoke s purpose (.primitive primitive) [a, b] hs hcallable
    | some size =>
      obtain ⟨rfl, harity⟩ := hcallable
      cases hcontract : primitive.contract with
      | hash | equal =>
        rw [hcontract] at harity
        cases harity
      | hashSized =>
        simp only [callClosure, hcontract]
        exact @hinvoke s _ (.primitive primitive) [a, size, b] hs ⟨rfl, harity⟩
      | equalSized =>
        simp only [callClosure, hcontract]
        exact @hinvoke s _ (.primitive primitive) [a, b, size] hs ⟨rfl, harity⟩
  | generated symbol =>
    -- Functions take two words, so there is no size.
    obtain ⟨g, hg, hpurpose, hparams⟩ := hcallable
    have htwo := (hs.typed h hg).params
    exact @hinvoke s purpose (.generated symbol) [a, b] hs ⟨g, hg, hpurpose, htwo⟩

/-- Whatever can be called ends with a word of its type, or fails as permitted. -/
theorem lands_invoke (h : Built table) (hpointer : table.target.pointerSize.toNat ≤ 8) (depth : Nat) :
    LandsCalls table arena (invoke table arena depth) := by
  induction depth with
  | zero => exact fun _ _ => .throw .unending
  | succ depth ih =>
    intro s purpose callee args hs hcallable
    cases callee with
    | primitive primitive =>
      obtain ⟨rfl, hcount⟩ := hcallable
      rw [invoke]
      exact Primitives.lands_run h hpointer (lands_callClosure h.lawful ih) primitive hcount
    | generated symbol =>
      intro s' hs' hextends
      obtain ⟨g, hg, rfl, hcount⟩ := hcallable.extend h.lawful hs hs' hextends
      obtain ⟨hsound, hgrows, hpost⟩ := Interpreter.lands_run hpointer hs' ih
        (hs'.typed h.lawful hg) hcount.symm s' hs' (.refl s')
      rw [← invoke_generated hg] at hsound hgrows hpost
      exact ⟨hsound, hgrows, hpost⟩

end Evaluation

namespace Machine

variable {machine : Machine} {symbol : String} {f : Function}

/-- Whatever lies in memory, a function that is called on any two words ends with a word, which is
    zero or one if it compares, or it fails as permitted: with a panic about a type without equality,
    out of bounds, or for a word in memory that tells no type, unless the machine stops. -/
theorem call_lands (h : Built table) (hpointer : table.target.pointerSize.toNat ≤ 8)
    (hreachable : Reachable table machine) (hf : machine.session.function? symbol = some f)
    (a b : Word) :
    match (call (.generated symbol) [a, b] machine).1 with
    | .ok word => f.purpose = .equality → word = 0 ∨ word = 1
    | .error e => Permitted table machine.arena e := by
  obtain ⟨rfl, hsound⟩ := hreachable.sound h
  have hcallable : machine.session.Callable f.purpose (.generated symbol) 2 :=
    ⟨f, hf, rfl, (hsound.typed h.lawful hf).params⟩
  have hlands : Lands machine.table machine.arena f.purpose.exprType.Fits
      (call (.generated symbol) [a, b] machine).1 :=
    (@Evaluation.lands_invoke machine.table machine.arena h hpointer Evaluation.callLimit
      machine.session f.purpose (.generated symbol) [a, b] hsound hcallable machine.session hsound
      (.refl _)).post
  cases hcall : (call (.generated symbol) [a, b] machine).1 with
  | error e =>
    rw [hcall] at hlands
    exact hlands
  | ok word =>
    rw [hcall] at hlands
    intro hpurpose
    rw [hpurpose] at hlands
    exact hlands

/-- The function that compares two pairs, called on the address of pairs and on one where nothing
    lies. -/
theorem call_lands_pairs :
    let machine := (Request.generate .equality ⟨33⟩).after pairMachine
    ∃ symbol f, machine.session.function? symbol = some f ∧ f.purpose = .equality ∧
      match (call (.generated symbol) [4096, 7] machine).1 with
      | .ok word => f.purpose = .equality → word = 0 ∨ word = 1
      | .error e => Permitted pairTable machine.arena e := by
  intro machine
  have hbuilt := built_pairTable
  have hspecial : pairTable.Has ⟨33⟩ ∧ pairTable.base ⟨33⟩ = .special := by decide +kernel
  have hgenerate : Runs pairTable .empty (EvalM.ofRequest (Session.generate pairTable .equality ⟨33⟩))
      fun _ s => ∃ f, s.functions.get? (⟨33⟩, .equality) = some f :=
    (runs_generate hbuilt.lawful (sound_empty _) .equality).ofRequest fun answer s hanswer => by
      cases answer with
      | error e => exact absurd hspecial hanswer
      | ok f => exact ⟨f, hanswer⟩
  obtain ⟨hsound, _, f, hf⟩ := hgenerate
  obtain ⟨_, hpurpose, _⟩ := of_synthesize_eq_ok (hsound.generated hf).2
  have hsymbol := hsound.function?_symbol hbuilt.lawful textsDistinct_pairTable hf
  exact ⟨f.symbol, f, hsymbol, hpurpose, call_lands hbuilt (by decide +kernel)
    (.request (.generate .equality ⟨33⟩) reachable_pairMachine) hsymbol 4096 7⟩

end Machine

end HashEq

import HashEq.Proofs.Checks
import HashEq.Proofs.Machine.Reachable
import HashEq.Proofs.Machine.Walk

/-!
# Evaluating expressions

Generated code reads values at places and calls what compares or hashes them. Calls
let the session grow, so what an evaluation comes to is stated for every session
from a given one on.

* `Ends`: how an evaluation ends, from a session on;
* `Denotes`: a place expression denotes a place;
* `eval_equalPlaces`, `eval_lengthsEqual`, `eval_contentsEqual`, `eval_callAddresses`: what
  conditions come to;
* `Decides`: an expression answers a check; `Decides.all`: so does a conjunction.
-/

namespace HashEq

open Session

variable {table : TypeTable} {arena : Arena} {s s' : Session} {α β : Type}

/-- From the session `s` on, an evaluation ends as stated. -/
def Ends (table : TypeTable) (s : Session) (m : EvalM α) (post : Except EvalError α → Prop) : Prop :=
  ∀ s', Sound table s' → Session.Extends s' s → Runs table s' m fun answer _ => post answer

namespace Ends

variable {m : EvalM α} {next : α → EvalM β} {post mid : Except EvalError α → Prop}
  {final : Except EvalError β → Prop}

theorem extend (h : Ends table s m post) (hs : Session.Extends s' s) : Ends table s' m post :=
  fun s'' hs'' hgrows => h s'' hs'' (hgrows.trans hs)

theorem mono (h : Ends table s m mid) (hpost : ∀ answer, mid answer → post answer) :
    Ends table s m post :=
  fun s' hs' hgrows => (h s' hs' hgrows).mono fun answer _ _ _ => hpost answer

theorem lift {x : Except EvalError α} (h : post x) : Ends table s (liftM x : EvalM α) post :=
  fun _ hs' _ => .lift hs' x h

theorem pure {a : α} (h : post (.ok a)) : Ends table s (pure a : EvalM α) post :=
  fun _ hs' _ => .pure hs' h

theorem throw {e : EvalError} (h : post (.error e)) : Ends table s (throw e : EvalM α) post :=
  fun _ hs' _ => .throw hs' h

theorem bind (h : Ends table s m mid) (hok : ∀ a, mid (.ok a) → Ends table s (next a) final)
    (herror : ∀ e, mid (.error e) → final (.error e)) : Ends table s (m >>= next) final :=
  fun s' hs' hgrows => (h s' hs' hgrows).bind
    (fun a s'' hs'' hgrows' ha => hok a ha s'' hs'' (hgrows'.trans hgrows)) fun e _ _ _ => herror e

/-- An evaluation with a known outcome is followed by another one. -/
theorem bind_eq {x : Except EvalError α} {next' : α → Except EvalError β}
    (h : Ends table s m (· = x)) (hnext : ∀ a, x = .ok a → Ends table s (next a) (· = next' a)) :
    Ends table s (m >>= next) (· = (x >>= next')) := by
  refine h.bind (fun a ha => ?_) fun e he => ?_
  · rw [← ha]
    exact hnext a ha.symm
  · rw [← he]
    rfl

theorem map_eq {x : Except EvalError α} (f : α → β) (h : Ends table s m (· = x)) :
    Ends table s (f <$> m) (· = (f <$> x)) := by
  rw [map_eq_pure_bind, map_eq_pure_bind]
  exact h.bind_eq fun a _ => .pure rfl

/-- The truth value that a word stands for. -/
theorem truth {m : EvalM Word} {check : Except EvalError Bool}
    (h : Ends table s m (· = (wordOfBool <$> check))) :
    Ends table s (m >>= fun word => Pure.pure (word != 0)) (· = check) := by
  refine h.bind (fun word hword => ?_) fun e he => ?_
  · cases check with
    | error _ => cases hword
    | ok b =>
      cases hword
      refine .pure ?_
      cases b <;> rfl
  · cases check with
    | error _ =>
      cases he
      rfl
    | ok _ => cases he

end Ends

namespace Interpreter

variable {call : Callee → List Word → EvalM Word} {frame : Frame} {P Q : Expr} {p q : Word}
  {ty : TypeId}

/-! ### Places -/

/-- The place of a field that there is. -/
theorem fieldPlace_eq {owner : TypeId} {e : Entry} (hget : table.get owner = .ok e) {i : Nat}
    {f : Field} (hf : e.fields[i]? = some f) (addr : Word) :
    fieldPlace table addr owner i = (do
      return .place (← Word.add addr f.offset) f.ty) := by
  rw [fieldPlace, hget]
  refine (pure_bind e _).trans ?_
  rw [hf]

/-- An expression denotes the place of type `ty` at `addr`. -/
structure Denotes (table : TypeTable) (arena : Arena) (call : Callee → List Word → EvalM Word)
    (frame : Frame) (e : Expr) (addr : Word) (ty : TypeId) : Prop where
  isPlace : e.isPlace = true
  operand : operand table arena call frame e = pure (.place addr ty)

namespace Denotes

theorem placeOf (h : Denotes table arena call frame P p ty) :
    placeOf P (Interpreter.operand table arena call frame P) = pure (p, ty) := by
  rw [Interpreter.placeOf, if_pos h.isPlace, h.operand, pure_bind]
  rfl

theorem deref {id : Nat} (h : frame[id]? = some p) (ty : TypeId) :
    Denotes table arena call frame (.deref (.var id) ty) p ty := by
  refine ⟨rfl, ?_⟩
  rw [Interpreter.operand, Interpreter.operand, h, wordOf, pure_bind]
  rfl

theorem field (h : Denotes table arena call frame P p ty) {owner : TypeId} {e : Entry}
    (hget : table.get owner = .ok e) {i : Nat} {f : Field} (hf : e.fields[i]? = some f)
    (haddr : Word.add p f.offset = .ok (p + f.offset)) :
    Denotes table arena call frame (.field P owner i) (p + f.offset) f.ty := by
  refine ⟨rfl, ?_⟩
  rw [Interpreter.operand, h.placeOf, pure_bind]
  dsimp only
  rw [fieldPlace_eq hget hf, haddr]
  rfl

theorem elem (h : Denotes table arena call frame P p ty) {position : Expr} {index : Word}
    (hposition : eval table arena call frame position = pure index) {elem : TypeId} {offset : Word}
    (hmul : Word.mul index (table.sizeOf elem) = .ok offset)
    (hadd : Word.add p offset = .ok (p + offset)) :
    Denotes table arena call frame (.elem P position elem) (p + offset) elem := by
  refine ⟨rfl, ?_⟩
  rw [Expr.elem, Interpreter.operand, h.placeOf, pure_bind]
  dsimp only
  rw [eval] at hposition
  rw [hposition, pure_bind, elementPlace, hmul]
  dsimp only
  change (liftM (do return Operand.place (← Word.add p offset) elem : Except EvalError Operand) :
    EvalM Operand) = _
  rw [hadd]
  rfl

section Parts

variable {e : Entry} (h : TypeTable.Lawful table) (hget : table.get ty = .ok e)
  (hp : arena.inBounds p e.size.toNat = true) (hP : Denotes table arena call frame P p ty)
include h hget hp hP

/-- The field of a struct that lies in the arena. -/
theorem field_of_inBounds {i : Nat} {f : Field} (hf : e.fields[i]? = some f) :
    Denotes table arena call frame (.field P ty i) (p + f.offset) f.ty :=
  hP.field hget hf (h.add_field hget hp (List.mem_of_getElem? hf)).1

/-- The element of an array that lies in the arena. -/
theorem elem_of_inBounds {elem : TypeId} {len : Word} (hkind : e.kind = .array elem len)
    {i : Nat} (hi : i < len.toNat) {position : Expr}
    (hposition : eval table arena call frame position = Pure.pure (UInt64.ofNat i)) :
    Denotes table arena call frame (.elem P position elem)
      (p + UInt64.ofNat i * table.sizeOf elem) elem := by
  obtain ⟨hmul, hadd⟩ := h.elementOffset_eq hget hp hkind hi
  exact hP.elem hposition hmul hadd

end Parts

end Denotes

/-! ### Words -/

theorem eval_var {id : Nat} {value : Word} (h : frame[id]? = some value) :
    eval table arena call frame (.var id) = pure value := by
  rw [eval, operand, h, wordOf, pure_bind]
  rfl

theorem eval_const (value : Word) : eval table arena call frame (.const value) = pure value := by
  rw [eval, operand, wordOf, pure_bind]
  rfl

theorem eval_bool (value : Bool) :
    eval table arena call frame (.bool value) = pure (wordOfBool value) := by
  rw [eval, operand, wordOf, pure_bind]
  rfl

theorem Denotes.eval_addr (h : Denotes table arena call frame P p ty) :
    eval table arena call frame (.addr P) = pure p := by
  rw [eval, Interpreter.operand, h.placeOf, wordOf, pure_bind, pure_bind]
  rfl

section Strings

variable {data len : Word} (h : Denotes table arena call frame P p ty)
  (hload : Primitives.loadPair table arena p = .ok (data, len))
include h hload

theorem Denotes.eval_strLen : eval table arena call frame (.strLen P) = pure len := by
  rw [eval, Interpreter.operand, h.placeOf, wordOf, pure_bind]
  dsimp only
  rw [hload]
  rfl

theorem Denotes.eval_strPtr : eval table arena call frame (.strPtr P) = pure data := by
  rw [eval, Interpreter.operand, h.placeOf, wordOf, pure_bind]
  dsimp only
  rw [hload]
  rfl

end Strings

theorem words_cons {e : Expr} {es : List Expr} {value : Word} {values : List Word}
    (h : eval table arena call frame e = pure value)
    (hs : words table arena call frame es = pure values) :
    words table arena call frame (e :: es) = pure (value :: values) := by
  rw [eval] at h
  rw [words, h, pure_bind, hs, pure_bind]

theorem words_nil : words table arena call frame [] = pure [] := by
  rw [words]

/-- A call whose arguments are words is a call on these words. -/
theorem eval_call {args : List Expr} {values : List Word}
    (h : words table arena call frame args = pure values) (callee : Callee) :
    eval table arena call frame (.call callee args) = call callee values := by
  rw [eval, operand, h, pure_bind, wordOf, bind_assoc]
  exact bind_pure _

/-! ### Conditions -/

theorem eval_equalPlaces (hP : Denotes table arena call frame P p ty)
    (hQ : Denotes table arena call frame Q q ty) :
    eval table arena call frame (.eq P Q) =
      liftM (wordOfBool <$> placesEqual table arena p q ty) := by
  rw [Expr.eq, eval, operand, hP.isPlace, hQ.isPlace, Bool.and_self, if_pos rfl, hP.operand,
    hQ.operand, wordOf, pure_bind, pure_bind]
  change ((do
    if ty ≠ ty then throw (.malformed .differentTypes)
    return .word (wordOfBool (← placesEqual table arena p q ty)) : EvalM Operand) >>= _) = _
  rw [if_neg (not_not_intro rfl)]
  cases placesEqual table arena p q ty <;> rfl

theorem eval_equalWords {lhs rhs : Expr} {a b : Word} (hlhs : lhs.isPlace = false)
    (ha : eval table arena call frame lhs = pure a) (hb : eval table arena call frame rhs = pure b) :
    eval table arena call frame (.eq lhs rhs) = pure (wordOfBool (a == b)) := by
  rw [eval] at ha hb
  rw [Expr.eq, eval, operand, hlhs, Bool.false_and, if_neg Bool.false_ne_true, ha, hb, wordOf,
    pure_bind, pure_bind, pure_bind]
  rfl

theorem eval_lt {lhs rhs : Expr} {a b : Word} (ha : eval table arena call frame lhs = pure a)
    (hb : eval table arena call frame rhs = pure b) :
    eval table arena call frame (.binary .lt lhs rhs) = pure (wordOfBool (decide (a < b))) := by
  rw [eval] at ha hb
  rw [eval, operand, ha, hb, wordOf, pure_bind, pure_bind, pure_bind]
  rfl

theorem eval_add {lhs rhs : Expr} {a b : Word} (ha : eval table arena call frame lhs = pure a)
    (hb : eval table arena call frame rhs = pure b) :
    eval table arena call frame (.binary .add lhs rhs) = pure (a + b) := by
  rw [eval] at ha hb
  rw [eval, operand, ha, hb, wordOf, pure_bind, pure_bind, pure_bind]
  rfl

section Strings

variable {pData pLen qData qLen : Word} (hP : Denotes table arena call frame P p ty)
  (hQ : Denotes table arena call frame Q q ty)
  (hp : Primitives.loadPair table arena p = .ok (pData, pLen))
  (hq : Primitives.loadPair table arena q = .ok (qData, qLen))
include hP hQ hp hq

theorem eval_lengthsEqual :
    eval table arena call frame (lengthsEqual P Q) = pure (wordOfBool (pLen == qLen)) :=
  eval_equalWords rfl (hP.eval_strLen hp) (hQ.eval_strLen hq)

theorem eval_contentsEqual :
    eval table arena call frame (contentsEqual P Q) =
      call (.primitive ⟨.equality, .memory⟩) [pData, qData, pLen] :=
  eval_call (words_cons (hP.eval_strPtr hp) <| words_cons (hQ.eval_strPtr hq) <|
    words_cons (hP.eval_strLen hp) words_nil) _

end Strings

theorem eval_callAddresses (hP : Denotes table arena call frame P p ty)
    (hQ : Denotes table arena call frame Q q ty) (callee : Callee) :
    eval table arena call frame (.call callee [.addr P, .addr Q]) = call callee [p, q] :=
  eval_call (words_cons hP.eval_addr <| words_cons hQ.eval_addr words_nil) callee

theorem eval_callBlock (hP : Denotes table arena call frame P p ty)
    (hQ : Denotes table arena call frame Q q ty) (callee : Callee) (size : Word) :
    eval table arena call frame (.call callee [.addr P, .addr Q, .const size]) =
      call callee [p, q, size] :=
  eval_call (words_cons hP.eval_addr <| words_cons hQ.eval_addr <|
    words_cons (eval_const size) words_nil) callee

/-! ### Checks -/

/-- From the session `s` on, an expression answers a check. -/
def Decides (table : TypeTable) (arena : Arena) (call : Callee → List Word → EvalM Word)
    (s : Session) (frame : Frame) (e : Expr) (check : Except EvalError Bool) : Prop :=
  Ends table s (eval table arena call frame e) (· = (wordOfBool <$> check))

theorem wordOfBool_ne_zero (b : Bool) : (wordOfBool b != 0) = b := by
  cases b <;> rfl

namespace Decides

variable {e e' : Expr} {check check' : Except EvalError Bool}

theorem of_eq {value : Bool} (h : eval table arena call frame e = pure (wordOfBool value)) :
    Decides table arena call s frame e (.ok value) := by
  rw [Decides, h]
  exact .pure rfl

/-- The right operand of a conjunction is evaluated only if the left one holds. -/
theorem and (h : Decides table arena call s frame e check)
    (h' : Decides table arena call s frame e' check') :
    Decides table arena call s frame (.binary .and e e') (conj [check, check']) := by
  unfold Decides at h h' ⊢
  rw [eval] at h h' ⊢
  rw [operand, wordOf, bind_assoc]
  refine h.bind (fun a ha => ?_) fun err herr => ?_
  · cases check with
    | error _ => cases ha
    | ok b =>
      cases ha
      -- The right operand is evaluated only where the left one holds.
      cases b with
      | false => exact .pure rfl
      | true =>
        change Ends table s (((do
          return .word (wordOfBool ((← wordOf table arena (operand table arena call frame e')) != 0)) :
            EvalM Operand)) >>= _) _
        rw [bind_assoc]
        refine h'.bind (fun a' ha' => ?_) fun err herr => ?_
        · cases check' with
          | error _ => cases ha'
          | ok b' =>
            cases ha'
            rw [wordOfBool_ne_zero]
            cases b' with
            | false => exact .pure rfl
            | true => exact .pure rfl
        · cases check' with
          | error _ => exact herr
          | ok _ => cases herr
  · cases check with
    | error _ => exact herr
    | ok _ => cases herr

/-- A conjunction answers its conditions in order. -/
theorem all {l : List α} {code : α → Expr} {checks : α → Except EvalError Bool}
    (h : ∀ c ∈ l, Decides table arena call s frame (code c) (checks c)) :
    Decides table arena call s frame (.all (l.map code)) (conj (l.map checks)) := by
  have hfold : ∀ (before : Expr) (done rest : List α),
      Decides table arena call s frame before (conj (done.map checks)) →
      (∀ c ∈ rest, Decides table arena call s frame (code c) (checks c)) →
      Decides table arena call s frame
        (((rest.map code).foldl (fun before condition => some (Expr.and before condition))
          (some before)).getD (.bool true)) (conj ((done ++ rest).map checks)) := by
    intro before done rest hbefore hrest
    induction rest generalizing before done with
    | nil => rwa [List.append_nil]
    | cons c rest ih =>
      rw [List.append_cons]
      refine ih _ _ ?_ fun e he => hrest e (List.mem_cons_of_mem _ he)
      rw [List.map_append, List.map_singleton, conj_append, conj_singleton]
      have hand := hbefore.and (hrest c List.mem_cons_self)
      rwa [conj_cons, conj_singleton] at hand
  cases l with
  | nil => exact .of_eq (eval_bool true)
  | cons c rest =>
    refine hfold (code c) [c] rest ?_ fun e he => h e (List.mem_cons_of_mem _ he)
    rw [List.map_singleton, conj_singleton]
    exact h c List.mem_cons_self

end Decides

end Interpreter

end HashEq

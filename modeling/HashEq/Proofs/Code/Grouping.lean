import HashEq.Code.Text
import HashEq.Proofs.Shape
import HashEq.TypeTable.Add
import Mathlib.Data.List.Nodup

/-!
# What the text of an expression tells of its grouping

The text of an expression built by operators is a row of operands and operators,
some of the operands being rows in parentheses. An operand is put in parentheses if
its operator binds less tightly than the one around it, on whichever side it stands.
So the row of an operand is spliced into that of an operator of the same precedence,
and the text shows which operands an operator has only up to such neighbours.

For sums and conjunctions that is associativity. The comparisons share a precedence,
and are regrouped all the same: `(a == b) == c` and `a == (b == c)` are written alike.

* `Lexeme.spaced_append_inj`: a row of lexemes can be read off its text;
* `Expr.Regroups`: expressions equal up to the grouping of neighbouring operators;
* `Expr.regroups_of_lexemes_eq`: expressions of one row are equal up to grouping;
* `Expr.text_eq_iff_regroups`: expressions are written alike exactly if they are equal
  up to the grouping of operators of one precedence;
* `Expr.comparisons_written_alike`: for comparisons this is more than associativity.
-/

namespace HashEq

/-- A piece of the text of an expression: an operand that no operator builds, an operator, or
    a row of pieces in parentheses. -/
inductive Lexeme
  | operand (e : Expr)
  | operator (op : BinaryOp)
  | group (row : List Lexeme)

namespace Expr

/-- The row of an operand, in parentheses or as it is. -/
def enclose (parens : Bool) (row : List Lexeme) : List Lexeme :=
  if parens then [.group row] else row

/-- The row that an expression is written as. -/
def lexemes : Expr → List Lexeme
  | binary op lhs rhs =>
    enclose (lhs.needsParens op) lhs.lexemes ++
      .operator op :: enclose (rhs.needsParens op) rhs.lexemes
  | e => [.operand e]

/-- Whether an operand of `op` has an operator of the same precedence. -/
def bindsLike (op : BinaryOp) : Expr → Bool
  | binary inner _ _ => inner.precedence == op.precedence
  | _ => false

/-- The number of operators that build an expression. -/
def operators : Expr → Nat
  | binary _ lhs rhs => lhs.operators + rhs.operators + 1
  | _ => 0

/-- Equality up to the grouping of neighbouring operators of one precedence, where these are
    `free` to be regrouped. -/
inductive Regroups (free : BinaryOp → Prop) : Expr → Expr → Prop
  | refl (e : Expr) : Regroups free e e
  | symm {e₁ e₂ : Expr} : Regroups free e₁ e₂ → Regroups free e₂ e₁
  | trans {e₁ e₂ e₃ : Expr} : Regroups free e₁ e₂ → Regroups free e₂ e₃ → Regroups free e₁ e₃
  | binary (op : BinaryOp) {a a' b b' : Expr} : Regroups free a a' → Regroups free b b' →
      Regroups free (.binary op a b) (.binary op a' b')
  | regroup {op₁ op₂ : BinaryOp} (a b c : Expr) : op₁.precedence = op₂.precedence → free op₁ →
      Regroups free (.binary op₁ a (.binary op₂ b c)) (.binary op₂ (.binary op₁ a b) c)

/-- No right operand has an operator of the same precedence, except below `free` operators. -/
def RightFree (free : BinaryOp → Prop) : Expr → Prop
  | binary op lhs rhs =>
    (rhs.bindsLike op = true → free op) ∧ lhs.RightFree free ∧ rhs.RightFree free
  | _ => True

/-! ### Rows of lexemes -/

variable {free : BinaryOp → Prop} {e e₁ e₂ : Expr} {op : BinaryOp}

/-- Which operands are put in parentheses depends on the precedence of the operator only. -/
theorem needsParens_congr {op₁ op₂ : BinaryOp} (h : op₁.precedence = op₂.precedence) (e : Expr) :
    e.needsParens op₁ = e.needsParens op₂ := by
  unfold needsParens
  split <;> simp [h]

/-- An operand that binds as tightly as the operator around it has no parentheses. -/
theorem needsParens_of_eq {inner : BinaryOp} (h : inner.precedence = op.precedence) (a b : Expr) :
    (binary inner a b).needsParens op = false := by
  simp [needsParens, h]

@[simp]
theorem needsParens_self (op : BinaryOp) (a b : Expr) : (binary op a b).needsParens op = false :=
  needsParens_of_eq rfl a b

theorem Regroups.operators_eq (h : Regroups free e₁ e₂) : e₁.operators = e₂.operators := by
  induction h with
  | refl _ => rfl
  | symm _ ih => exact ih.symm
  | trans _ _ ih₁ ih₂ => exact ih₁.trans ih₂
  | binary _ _ _ iha ihb => simp [operators, iha, ihb]
  | regroup a b c _ _ =>
    simp only [operators]
    omega

/-- Regrouping leaves the precedence of an operand alone. -/
theorem Regroups.needsParens_eq (h : Regroups free e₁ e₂) (op : BinaryOp) :
    e₁.needsParens op = e₂.needsParens op := by
  induction h with
  | refl _ => rfl
  | symm _ ih => exact ih.symm
  | trans _ _ ih₁ ih₂ => exact ih₁.trans ih₂
  | binary _ _ _ _ _ => rfl
  | regroup _ _ _ hprec _ => simp [needsParens, hprec]

/-- Regrouping leaves the row alone. -/
theorem Regroups.lexemes_eq (h : Regroups free e₁ e₂) : e₁.lexemes = e₂.lexemes := by
  induction h with
  | refl _ => rfl
  | symm _ ih => exact ih.symm
  | trans _ _ ih₁ ih₂ => exact ih₁.trans ih₂
  | binary op ha hb iha ihb =>
    simp [lexemes, iha, ihb, ha.needsParens_eq op, hb.needsParens_eq op]
  | @regroup op₁ op₂ a b c hprec _ =>
    simp [lexemes, enclose, needsParens_congr hprec, needsParens_of_eq hprec]

theorem lexemes_of_not_binary (h : ∀ op lhs rhs, e = binary op lhs rhs → False) :
    e.lexemes = [.operand e] := by
  rw [lexemes]
  exact h

/-- An operand that no operator builds is a row of its own. -/
theorem binary_or_lexemes_eq (e : Expr) :
    (∃ op lhs rhs, e = binary op lhs rhs) ∨ e.lexemes = [.operand e] := by
  cases e with
  | binary op lhs rhs => exact .inl ⟨op, lhs, rhs, rfl⟩
  | _ => exact .inr rfl

theorem operator_mem_lexemes (op : BinaryOp) (lhs rhs : Expr) :
    .operator op ∈ (binary op lhs rhs).lexemes := by
  simp [lexemes]

/-- The operators in the row of an operand without parentheses bind as tightly as the one around
    it. -/
theorem precedence_le_of_mem_lexemes {inner : BinaryOp} (hparens : e.needsParens op = false)
    (hmem : .operator inner ∈ e.lexemes) : op.precedence ≤ inner.precedence := by
  induction e using lexemes.induct generalizing op with
  | case1 outer lhs rhs ihl ihr =>
    have hop : op.precedence ≤ outer.precedence := by simpa [needsParens] using hparens
    -- Operators inside parentheses are not in the row.
    have hside : ∀ side : Expr, (side.needsParens outer = false →
        .operator inner ∈ side.lexemes → outer.precedence ≤ inner.precedence) →
        .operator inner ∈ enclose (side.needsParens outer) side.lexemes →
        outer.precedence ≤ inner.precedence := by
      intro side ih hside
      rcases hp : side.needsParens outer with _ | _
      · exact ih hp (by simpa [enclose, hp] using hside)
      · simp [enclose, hp] at hside
    simp only [lexemes, List.mem_append, List.mem_cons, Lexeme.operator.injEq] at hmem
    rcases hmem with hl | rfl | hr
    · exact Nat.le_trans hop (hside lhs ihl hl)
    · exact hop
    · exact Nat.le_trans hop (hside rhs ihr hr)
  | case2 e hatom => simp [lexemes_of_not_binary hatom] at hmem

/-- An operand that does not bind like the operator around it adds only tighter ones to the
    row. -/
theorem precedence_lt_of_mem_enclose {inner : BinaryOp} (hlike : e.bindsLike op = false)
    (hmem : .operator inner ∈ enclose (e.needsParens op) e.lexemes) :
    op.precedence < inner.precedence := by
  rcases hp : e.needsParens op with _ | _
  · have hrow : .operator inner ∈ e.lexemes := by simpa [enclose, hp] using hmem
    cases e with
    | binary outer lhs rhs =>
      have hle : outer.precedence ≤ inner.precedence :=
        precedence_le_of_mem_lexemes (needsParens_self outer lhs rhs) hrow
      have hne : outer.precedence ≠ op.precedence := by simpa [bindsLike] using hlike
      have hge : op.precedence ≤ outer.precedence := by simpa [needsParens] using hp
      omega
    | _ => simp [lexemes] at hrow
  · simp [enclose, hp] at hmem

theorem lexemes_ne_group (e : Expr) (row : List Lexeme) : e.lexemes ≠ [.group row] := by
  cases e with
  | binary op lhs rhs =>
    intro heq
    have hmem := operator_mem_lexemes op lhs rhs
    simp [heq] at hmem
  | _ => simp [lexemes]

/-- Whether an operand is in parentheses can be told from its row. -/
theorem lexemes_eq_of_enclose_eq
    (h : enclose (e₁.needsParens op) e₁.lexemes = enclose (e₂.needsParens op) e₂.lexemes) :
    e₁.lexemes = e₂.lexemes := by
  rcases hp₁ : e₁.needsParens op with _ | _ <;> rcases hp₂ : e₂.needsParens op with _ | _ <;>
    simp only [enclose, hp₁, hp₂, Bool.false_eq_true, if_false, if_true] at h
  · exact h
  · exact absurd h (lexemes_ne_group _ _)
  · exact absurd h.symm (lexemes_ne_group _ _)
  · simpa using h

/-! ### Grouping from the left -/

/-- A row is regrouped from the left, until the last operator of its precedence is on top. -/
theorem exists_regroups_last (op : BinaryOp) (lhs rhs : Expr)
    (h : (binary op lhs rhs).RightFree free) :
    ∃ op' lhs' rhs', Regroups free (binary op lhs rhs) (binary op' lhs' rhs') ∧
      op'.precedence = op.precedence ∧ rhs'.bindsLike op' = false ∧
      (binary op' lhs' rhs').RightFree free := by
  -- Along the right operands, each of which is moved to the left while it binds alike.
  induction rhs using lexemes.induct generalizing op lhs with
  | case1 inner b c _ ih =>
    obtain ⟨hop, hlhs, hinner, hb, hc⟩ := h
    rcases hlike : (binary inner b c).bindsLike op with _ | _
    · exact ⟨op, lhs, binary inner b c, .refl _, rfl, hlike, hop, hlhs, hinner, hb, hc⟩
    · have hprec : inner.precedence = op.precedence := by simpa [bindsLike] using hlike
      have hfree := hop hlike
      obtain ⟨op', lhs', rhs', hregroups, hprec', hlast, hright⟩ :=
        ih inner (binary op lhs b) ⟨hinner, ⟨fun _ => hfree, hlhs, hb⟩, hc⟩
      exact ⟨op', lhs', rhs', .trans (.regroup lhs b c hprec.symm hfree) hregroups,
        hprec'.trans hprec, hlast, hright⟩
  | case2 rhs hatom =>
    have hlast : rhs.bindsLike op = false := by
      rw [bindsLike]
      exact hatom
    exact ⟨op, lhs, rhs, .refl _, rfl, hlast, h⟩

/-- A list is split in one way at the last of its items with a property. -/
theorem append_cons_inj_of_last {α : Type} {p : α → Prop} {as bs as' bs' : List α} {x y : α}
    (hx : p x) (hy : p y) (hbs : ∀ b ∈ bs, ¬p b) (hbs' : ∀ b ∈ bs', ¬p b)
    (h : as ++ x :: bs = as' ++ y :: bs') : as = as' ∧ x = y ∧ bs = bs' := by
  rcases List.append_eq_append_iff.1 h with ⟨cs, rfl, hcs⟩ | ⟨cs, rfl, hcs⟩
  · cases cs with
    | nil => simpa using hcs
    | cons c cs =>
      rw [List.cons_append, List.cons.injEq] at hcs
      exact absurd hy (hbs y (by simp [hcs.2]))
  · cases cs with
    | nil => simpa [eq_comm] using hcs
    | cons c cs =>
      rw [List.cons_append, List.cons.injEq] at hcs
      exact absurd hx (hbs' x (by simp [hcs.2]))

/-- The least precedence of the operators in a row is that of the expression. -/
theorem precedence_le_of_lexemes_eq {op₁ op₂ : BinaryOp} {a b c d : Expr}
    (h : (binary op₁ a b).lexemes = (binary op₂ c d).lexemes) :
    op₁.precedence ≤ op₂.precedence := by
  refine precedence_le_of_mem_lexemes (needsParens_self op₁ a b) ?_
  rw [h]
  exact operator_mem_lexemes op₂ c d

/-- Expressions of one row are equal up to grouping. -/
theorem regroups_of_lexemes_eq {e₁ e₂ : Expr} (h₁ : e₁.RightFree free) (h₂ : e₂.RightFree free)
    (h : e₁.lexemes = e₂.lexemes) : Regroups free e₁ e₂ := by
  induction hn : e₁.operators using Nat.strongRecOn generalizing e₁ e₂ with
  | _ n ih =>
    subst hn
    rcases binary_or_lexemes_eq e₁ with ⟨op₁, a, b, rfl⟩ | hrow₁ <;>
      rcases binary_or_lexemes_eq e₂ with ⟨op₂, c, d, rfl⟩ | hrow₂
    · obtain ⟨op₁', a', b', hleft, hprec₁, hlast₁, h₁'⟩ := exists_regroups_last op₁ a b h₁
      obtain ⟨op₂', c', d', hright, hprec₂, hlast₂, h₂'⟩ := exists_regroups_last op₂ c d h₂
      have hprec : op₂.precedence = op₁.precedence :=
        Nat.le_antisymm (precedence_le_of_lexemes_eq h.symm) (precedence_le_of_lexemes_eq h)
      -- Both rows are split at the last operator of the precedence that they share.
      have hrow : (binary op₁' a' b').lexemes = (binary op₂' c' d').lexemes := by
        rw [← hleft.lexemes_eq, h, hright.lexemes_eq]
      obtain ⟨has, heq, hbs⟩ := append_cons_inj_of_last
        (p := fun t => ∃ op, t = .operator op ∧ op.precedence = op₁.precedence)
        ⟨op₁', rfl, hprec₁⟩ ⟨op₂', rfl, hprec₂.trans hprec⟩
        (by
          rintro _ hmem ⟨op, rfl, hop⟩
          have := precedence_lt_of_mem_enclose hlast₁ hmem
          omega)
        (by
          rintro _ hmem ⟨op, rfl, hop⟩
          have := precedence_lt_of_mem_enclose hlast₂ hmem
          omega) hrow
      cases heq
      have hsize := hleft.operators_eq
      simp only [operators] at hsize
      have hlhs : Regroups free a' c' := ih a'.operators (by simp only [operators]; omega)
        h₁'.2.1 h₂'.2.1 (lexemes_eq_of_enclose_eq has) rfl
      have hrhs : Regroups free b' d' := ih b'.operators (by simp only [operators]; omega)
        h₁'.2.2 h₂'.2.2 (lexemes_eq_of_enclose_eq hbs) rfl
      exact hleft.trans ((Regroups.binary op₁' hlhs hrhs).trans hright.symm)
    · have hmem := operator_mem_lexemes op₁ a b
      simp [h, hrow₂] at hmem
    · have hmem := operator_mem_lexemes op₂ c d
      simp [← h, hrow₁] at hmem
    · rw [hrow₁, hrow₂] at h
      cases h
      exact .refl _

theorem rightFree_true (e : Expr) : e.RightFree fun _ => True := by
  induction e using lexemes.induct with
  | case1 op lhs rhs ihl ihr => exact ⟨fun _ => trivial, ihl, ihr⟩
  | case2 e hatom =>
    rw [RightFree]
    · trivial
    · exact hatom

end Expr

/-! ### Reading rows off texts -/

/-- A name that cannot be taken for a number, an operator or a truth value, which no identifier
    other than `true` and `false` can. -/
def IsIdentifier (name : String) : Prop :=
  Shape.IsWord name ∧ name.toList.head?.any Char.isDigit = false ∧
    (∀ op ∈ [BinaryOp.eq, .lt, .add, .and], name ≠ op.text) ∧ name ≠ "true" ∧ name ≠ "false"

instance (name : String) : Decidable (IsIdentifier name) :=
  inferInstanceAs (Decidable (_ ∧ _))

/-- The variables of a scope have distinct names, all of them identifiers. -/
structure Scope.Legible (scope : Scope) : Prop where
  identifiers : ∀ var ∈ scope.vars, IsIdentifier var.name
  distinct : (scope.vars.map (·.name)).Nodup

/-- The word that a variable, a number or a truth value is written as. -/
def Scope.word (scope : Scope) (e : Expr) : String :=
  (e.text scope).toOption.getD ""

/-- A variable of the scope, a number or a truth value. -/
inductive Expr.Atomic (scope : Scope) : Expr → Prop
  | var {id : Nat} : id < scope.vars.length → Atomic scope (.var id)
  | const (value : Word) : Atomic scope (.const value)
  | bool (value : Bool) : Atomic scope (.bool value)

/-- An expression that operators build from variables of the scope, numbers and truth values. -/
inductive Expr.Simple (scope : Scope) : Expr → Prop
  | atomic {e : Expr} : e.Atomic scope → Simple scope e
  | binary (op : BinaryOp) {lhs rhs : Expr} : Simple scope lhs → Simple scope rhs →
      Simple scope (.binary op lhs rhs)

namespace Lexeme

mutual

/-- The characters of a lexeme. -/
def chars (scope : Scope) : Lexeme → List Char
  | operand e => (scope.word e).toList
  | operator op => op.text.toList
  | group row => '(' :: ((spaced scope row).tail ++ [')'])

/-- The characters of a row, with a blank in front of each lexeme. -/
def spaced (scope : Scope) : List Lexeme → List Char
  | [] => []
  | t :: row => ' ' :: (chars scope t ++ spaced scope row)

end

/-- A lexeme whose operands are words and whose parentheses are not empty. -/
inductive Legible (scope : Scope) : Lexeme → Prop
  | operand {e : Expr} : e.Atomic scope → Legible scope (operand e)
  | operator (op : BinaryOp) : Legible scope (operator op)
  | group {row : List Lexeme} : row ≠ [] → (∀ t ∈ row, Legible scope t) →
      Legible scope (group row)

variable {scope : Scope}

@[simp]
theorem spaced_append (row row' : List Lexeme) :
    spaced scope (row ++ row') = spaced scope row ++ spaced scope row' := by
  induction row with
  | nil => simp [spaced]
  | cons t row ih => simp [spaced, ih]

end Lexeme

/-- A number starts with a digit. -/
theorem exists_repr_digit (n : Nat) :
    ∃ c rest, (toString n).toList = c :: rest ∧ c.isDigit = true := by
  obtain ⟨c, rest, heq, -⟩ := Shape.exists_repr_cons n
  have hmem : c ∈ Nat.toDigits 10 n := by
    rw [← Nat.toList_repr, heq]
    exact List.mem_cons_self
  exact ⟨c, rest, heq, Nat.isDigit_of_mem_toDigits (by decide) (by decide) hmem⟩

/-- What does not start with a digit is no number. -/
theorem toString_ne {text : String} (n : Nat)
    (h : text.toList.head?.any Char.isDigit = false) : toString n ≠ text := by
  rintro rfl
  obtain ⟨c, rest, heq, hc⟩ := exists_repr_digit n
  rw [heq] at h
  simp [hc] at h

namespace Expr.Atomic

variable {scope : Scope} {e e₁ e₂ : Expr}

theorem text_eq (h : e.Atomic scope) : e.text scope = .ok (scope.word e) := by
  cases h with
  | @var id hid => simp [Scope.word, text, Scope.var, hid]; rfl
  | const value => rfl
  | bool value => rfl

theorem lexemes_eq (h : e.Atomic scope) : e.lexemes = [.operand e] := by
  cases h <;> rfl

theorem word_var {id : Nat} (hid : id < scope.vars.length) :
    scope.word (.var id) = scope.vars[id].name := by
  simp [Scope.word, text, Scope.var, hid]
  rfl

theorem word_const (value : Word) : scope.word (.const value) = toString value.toNat :=
  rfl

theorem word_bool (value : Bool) :
    scope.word (.bool value) = if value then "true" else "false" :=
  rfl

/-- Operands are written as words. -/
theorem isWord (hscope : scope.Legible) (h : e.Atomic scope) : Shape.IsWord (scope.word e) := by
  cases h with
  | @var id hid =>
    rw [word_var hid]
    exact (hscope.identifiers _ (List.getElem_mem hid)).1
  | const value =>
    obtain ⟨c, rest, heq, -⟩ := exists_repr_digit value.toNat
    exact ⟨by rw [word_const, heq]; exact List.cons_ne_nil c rest,
      Shape.isNameChar_repr value.toNat⟩
  | bool value =>
    rw [word_bool]
    cases value <;> decide

/-- Operands are told from operators. -/
theorem word_ne_operator (hscope : scope.Legible) (h : e.Atomic scope) (op : BinaryOp) :
    scope.word e ≠ op.text := by
  cases h with
  | @var id hid =>
    rw [word_var hid]
    exact (hscope.identifiers _ (List.getElem_mem hid)).2.2.1 op (by cases op <;> simp)
  | const value => exact toString_ne _ (by cases op <;> decide)
  | bool value =>
    rw [word_bool]
    cases value <;> cases op <;> decide

/-- Operands are told apart by their words. -/
theorem word_injective (hscope : scope.Legible) (h₁ : e₁.Atomic scope) (h₂ : e₂.Atomic scope)
    (h : scope.word e₁ = scope.word e₂) : e₁ = e₂ := by
  -- A name is neither a number nor a truth value, and a number is no truth value.
  have hnumber : ∀ {id : Nat} (hid : id < scope.vars.length) (value : Word),
      scope.word (.const value) ≠ scope.word (.var id) := by
    intro id hid value
    rw [word_var hid]
    exact toString_ne _ (hscope.identifiers _ (List.getElem_mem hid)).2.1
  have htruth : ∀ {id : Nat} (hid : id < scope.vars.length) (value : Bool),
      scope.word (.var id) ≠ scope.word (.bool value) := by
    intro id hid value
    have hname := (hscope.identifiers _ (List.getElem_mem hid)).2.2.2
    rw [word_var hid]
    cases value
    · exact hname.2
    · exact hname.1
  have hboth : ∀ (value : Word) (b : Bool), scope.word (.const value) ≠ scope.word (.bool b) := by
    intro value b
    rw [word_bool]
    exact toString_ne _ (by cases b <;> decide)
  cases h₁ with
  | @var id₁ hid₁ =>
    cases h₂ with
    | @var id₂ hid₂ =>
      rw [word_var hid₁, word_var hid₂] at h
      have hlt₁ : id₁ < (scope.vars.map (·.name)).length := by simpa using hid₁
      have hlt₂ : id₂ < (scope.vars.map (·.name)).length := by simpa using hid₂
      have hget : (scope.vars.map (·.name))[id₁] = (scope.vars.map (·.name))[id₂] := by
        simpa using h
      rw [(List.Nodup.getElem_inj_iff hscope.distinct).1 hget]
    | const value => exact absurd h.symm (hnumber hid₁ value)
    | bool value => exact absurd h (htruth hid₁ value)
  | const value =>
    cases h₂ with
    | var hid => exact absurd h (hnumber hid value)
    | const value' => rw [UInt64.toNat_inj.1 (Nat.repr_inj.1 h)]
    | bool value' => exact absurd h (hboth value value')
  | bool value =>
    cases h₂ with
    | var hid => exact absurd h.symm (htruth hid value)
    | const value' => exact absurd h.symm (hboth value' value)
    | bool value' =>
      rw [word_bool, word_bool] at h
      have heq : value = value' := by
        revert h
        cases value <;> cases value' <;> decide
      rw [heq]

end Expr.Atomic

namespace Lexeme

variable {scope : Scope} {r r' : List Char}

/-- What can follow a row: nothing, or a closing parenthesis. -/
def Closes (rest : List Char) : Prop :=
  ∀ c ∈ rest.head?, c = ')'

theorem stops_spaced (row : List Lexeme) (hr : Closes r) :
    Shape.Stops (spaced scope row ++ r) := by
  cases row with
  | nil =>
    intro c hc
    rw [hr c hc]
    decide
  | cons t row => exact Shape.stops_cons (by decide)

theorem isWord_operator (op : BinaryOp) : Shape.IsWord op.text := by
  cases op <;> decide

/-- A word is told from a row in parentheses. -/
theorem word_append_ne {word : String} (h : Shape.IsWord word) (rest rest' : List Char) :
    word.toList ++ rest ≠ '(' :: rest' := by
  intro heq
  obtain ⟨c, cs, hcs⟩ := List.exists_cons_of_ne_nil h.1
  rw [hcs, List.cons_append, List.cons.injEq] at heq
  have hc := h.2 c (by simp [hcs])
  rw [heq.1] at hc
  exact absurd hc (by decide)

/-- Words are read off up to what follows them. -/
theorem word_eq_of_append_eq {word word' : String} (h : Shape.IsWord word)
    (h' : Shape.IsWord word') (hr : Shape.Stops r) (hr' : Shape.Stops r')
    (heq : word.toList ++ r = word'.toList ++ r') : word = word' ∧ r = r' := by
  obtain ⟨hword, hrest⟩ := Shape.word_append_inj h.2 h'.2 hr hr' heq
  exact ⟨String.toList_inj.1 hword, hrest⟩

mutual

/-- A lexeme can be read off its text, up to what follows it. -/
theorem chars_append_inj (hscope : scope.Legible) :
    ∀ {t u : Lexeme} {r r' : List Char}, t.Legible scope → u.Legible scope → Shape.Stops r →
      Shape.Stops r' → chars scope t ++ r = chars scope u ++ r' → t = u ∧ r = r'
  | operand e, u, r, r', .operand he, hu, hr, hr', h => by
    rw [chars] at h
    cases u with
    | operand e' =>
      obtain ⟨he'⟩ := hu
      obtain ⟨hword, rfl⟩ := word_eq_of_append_eq (he.isWord hscope) (he'.isWord hscope) hr hr' h
      exact ⟨by rw [he.word_injective hscope he' hword], rfl⟩
    | operator op =>
      exact absurd (word_eq_of_append_eq (he.isWord hscope) (isWord_operator op) hr hr' h).1
        (he.word_ne_operator hscope op)
    | group row => exact absurd h (word_append_ne (he.isWord hscope) _ _)
  | operator op, u, r, r', _, hu, hr, hr', h => by
    rw [chars] at h
    cases u with
    | operand e' =>
      obtain ⟨he'⟩ := hu
      exact absurd (word_eq_of_append_eq (isWord_operator op) (he'.isWord hscope) hr hr' h).1.symm
        (he'.word_ne_operator hscope op)
    | operator op' =>
      obtain ⟨hword, rfl⟩ :=
        word_eq_of_append_eq (isWord_operator op) (isWord_operator op') hr hr' h
      have hop : op = op' := by
        revert hword
        cases op <;> cases op' <;> decide
      exact ⟨by rw [hop], rfl⟩
    | group row => exact absurd h (word_append_ne (isWord_operator op) _ _)
  | group row, u, r, r', .group hne hrow, hu, hr, hr', h => by
    cases u with
    | operand e' =>
      obtain ⟨he'⟩ := hu
      exact absurd h.symm (word_append_ne (he'.isWord hscope) _ _)
    | operator op => exact absurd h.symm (word_append_ne (isWord_operator op) _ _)
    | group row' =>
      obtain ⟨hne', hrow'⟩ : row' ≠ [] ∧ ∀ t ∈ row', t.Legible scope := by
        cases hu with
        | group hne' hrow' => exact ⟨hne', hrow'⟩
      -- The blanks in front of both rows are put back.
      have hspaced : spaced scope row ++ ')' :: r = spaced scope row' ++ ')' :: r' := by
        obtain ⟨t, ts, rfl⟩ := List.exists_cons_of_ne_nil hne
        obtain ⟨t', ts', rfl⟩ := List.exists_cons_of_ne_nil hne'
        simpa [chars, spaced] using h
      obtain ⟨rfl, hrest⟩ := spaced_append_inj hscope hrow hrow' (by rintro c ⟨⟩; rfl)
        (by rintro c ⟨⟩; rfl) hspaced
      exact ⟨rfl, (List.cons.inj hrest).2⟩

/-- A row can be read off its text, up to what closes it. -/
theorem spaced_append_inj (hscope : scope.Legible) :
    ∀ {row row' : List Lexeme} {r r' : List Char}, (∀ t ∈ row, t.Legible scope) →
      (∀ t ∈ row', t.Legible scope) → Closes r → Closes r' →
      spaced scope row ++ r = spaced scope row' ++ r' → row = row' ∧ r = r'
  | [], row', r, r', _, _, hr, _, h => by
    cases row' with
    | nil => exact ⟨rfl, by simpa [spaced] using h⟩
    | cons u us =>
      have hblank := hr ' ' (by simp_all [spaced])
      exact absurd hblank (by decide)
  | t :: ts, row', r, r', hrow, hrow', hr, hr', h => by
    cases row' with
    | nil =>
      have hblank := hr' ' ' (by simp [← show _ = r' from h, spaced])
      exact absurd hblank (by decide)
    | cons u us =>
      rw [spaced, spaced, List.cons_append, List.cons_append, List.append_assoc,
        List.append_assoc, List.cons.injEq] at h
      obtain ⟨rfl, hrest⟩ := chars_append_inj hscope (hrow t List.mem_cons_self)
        (hrow' u List.mem_cons_self) (stops_spaced ts hr) (stops_spaced us hr') h.2
      obtain ⟨rfl, hr⟩ := spaced_append_inj hscope
        (fun x hx => hrow x (List.mem_cons_of_mem _ hx))
        (fun x hx => hrow' x (List.mem_cons_of_mem _ hx)) hr hr' hrest
      exact ⟨rfl, hr⟩

end

end Lexeme

/-! ### Texts and groupings -/

namespace Expr

variable {scope : Scope} {e e₁ e₂ : Expr}

theorem legible_enclose {parens : Bool} {row : List Lexeme} (hne : row ≠ [])
    (h : ∀ t ∈ row, t.Legible scope) : ∀ t ∈ enclose parens row, t.Legible scope := by
  cases parens with
  | false => exact h
  | true =>
    intro t ht
    rw [List.eq_of_mem_singleton ht]
    exact .group hne h

theorem lexemes_ne_nil (e : Expr) : e.lexemes ≠ [] := by
  rcases binary_or_lexemes_eq e with ⟨op, lhs, rhs, rfl⟩ | hrow
  · simp [lexemes]
  · simp [hrow]

/-- Only words and non-empty parentheses are in the row of an expression. -/
theorem Simple.legible (h : e.Simple scope) : ∀ t ∈ e.lexemes, t.Legible scope := by
  induction h with
  | atomic hatom =>
    rw [hatom.lexemes_eq]
    rintro t ht
    rw [List.eq_of_mem_singleton ht]
    exact .operand hatom
  | @binary op lhs rhs _ _ ihl ihr =>
    intro t ht
    simp only [lexemes, List.mem_append, List.mem_cons] at ht
    rcases ht with ht | rfl | ht
    · exact legible_enclose (lexemes_ne_nil lhs) ihl t ht
    · exact .operator op
    · exact legible_enclose (lexemes_ne_nil rhs) ihr t ht

/-- A text in parentheses is a row in parentheses. -/
theorem cons_wrap {parens : Bool} {text : String} {row : List Lexeme}
    (h : ' ' :: text.toList = Lexeme.spaced scope row) :
    ' ' :: (wrap parens text).toList = Lexeme.spaced scope (enclose parens row) := by
  cases parens with
  | false => exact h
  | true => simp [wrap, enclose, Lexeme.spaced, Lexeme.chars, ← h]

/-- The text of an expression is its row, without the first blank. -/
theorem Simple.text_eq (h : e.Simple scope) :
    ∃ text, e.text scope = .ok text ∧ ' ' :: text.toList = Lexeme.spaced scope e.lexemes := by
  induction h with
  | atomic hatom =>
    refine ⟨_, hatom.text_eq, ?_⟩
    simp [hatom.lexemes_eq, Lexeme.spaced, Lexeme.chars]
  | @binary op lhs rhs _ _ ihl ihr =>
    obtain ⟨left, hleft, hlrow⟩ := ihl
    obtain ⟨right, hright, hrrow⟩ := ihr
    refine ⟨_, by rw [text, hleft, hright]; rfl, ?_⟩
    rw [lexemes, Lexeme.spaced_append, ← cons_wrap hlrow, Lexeme.spaced, ← cons_wrap hrrow]
    simp [Lexeme.chars]

/-- Expressions are written alike exactly if they have one row. -/
theorem Simple.text_eq_iff_lexemes_eq (hscope : scope.Legible) (h₁ : e₁.Simple scope)
    (h₂ : e₂.Simple scope) : e₁.text scope = e₂.text scope ↔ e₁.lexemes = e₂.lexemes := by
  obtain ⟨text₁, htext₁, hrow₁⟩ := h₁.text_eq
  obtain ⟨text₂, htext₂, hrow₂⟩ := h₂.text_eq
  rw [htext₁, htext₂, Except.ok.injEq, ← String.toList_inj]
  constructor
  · intro htext
    have hspaced : Lexeme.spaced scope e₁.lexemes ++ [] = Lexeme.spaced scope e₂.lexemes ++ [] := by
      rw [← hrow₁, htext, hrow₂]
    exact (Lexeme.spaced_append_inj hscope h₁.legible h₂.legible (by rintro c ⟨⟩)
      (by rintro c ⟨⟩) hspaced).1
  · intro hlexemes
    rw [hlexemes, ← hrow₂] at hrow₁
    exact (List.cons.inj hrow₁).2

/-- The operators for which the grouping of neighbours does not matter. -/
def Associative (op : BinaryOp) : Prop :=
  op = .add ∨ op = .and

/-- Expressions are written alike exactly if they are equal up to the grouping of neighbouring
    operators of one precedence. If no comparison has a comparison as its right operand, that is
    the grouping of sums and of conjunctions only. -/
theorem text_eq_iff_regroups (hscope : scope.Legible) (h₁ : e₁.Simple scope)
    (h₂ : e₂.Simple scope) :
    (∃ text, e₁.text scope = .ok text) ∧
      (e₁.text scope = e₂.text scope ↔ e₁.Regroups (fun _ => True) e₂) ∧
      (e₁.RightFree Associative → e₂.RightFree Associative →
        e₁.text scope = e₂.text scope → e₁.Regroups Associative e₂) := by
  obtain ⟨text, htext, -⟩ := h₁.text_eq
  have hrows := h₁.text_eq_iff_lexemes_eq hscope h₂
  refine ⟨⟨text, htext⟩, hrows.trans ⟨fun h => ?_, Regroups.lexemes_eq⟩, fun hr₁ hr₂ h => ?_⟩
  · exact regroups_of_lexemes_eq (rightFree_true e₁) (rightFree_true e₂) h
  · exact regroups_of_lexemes_eq hr₁ hr₂ (hrows.1 h)

/-- Three variables. -/
def letters : Scope where
  table := TypeTable.bare .amd64
  vars := [⟨"a", .int⟩, ⟨"b", .int⟩, ⟨"c", .int⟩]
  labels := []

theorem legible_letters : letters.Legible where
  identifiers := by decide
  distinct := by decide

theorem simple_letters {id : Nat} (h : id < 3) : Simple letters (.var id) :=
  .atomic (.var h)

/-- `a + (b + c)` and `(a + b) + c` are equal up to the grouping of sums, and `a == (b < c)` is
    written like `(a == b) < c`. -/
theorem text_eq_iff_regroups_letters :
    letters.Legible ∧
      Regroups Associative (.binary .add (.var 0) (.binary .add (.var 1) (.var 2)))
        (.binary .add (.binary .add (.var 0) (.var 1)) (.var 2)) ∧
      (Expr.eq (.var 0) (.binary .lt (.var 1) (.var 2))).text letters =
        (Expr.binary .lt (.eq (.var 0) (.var 1)) (.var 2)).text letters := by
  have ha : Simple letters (.var 0) := simple_letters (by decide)
  have hb : Simple letters (.var 1) := simple_letters (by decide)
  have hc : Simple letters (.var 2) := simple_letters (by decide)
  refine ⟨legible_letters, ?_, ?_⟩
  · refine (text_eq_iff_regroups legible_letters (.binary .add ha (.binary .add hb hc))
      (.binary .add (.binary .add ha hb) hc)).2.2 ?_ ?_ (by decide)
    · exact ⟨fun _ => .inl rfl, trivial, fun _ => .inl rfl, trivial, trivial⟩
    · exact ⟨fun _ => .inl rfl, ⟨fun _ => .inl rfl, trivial, trivial⟩, trivial⟩
  · exact (text_eq_iff_regroups legible_letters (.binary .eq ha (.binary .lt hb hc))
      (.binary .lt (.binary .eq ha hb) hc)).2.1.2 (.regroup _ _ _ rfl trivial)

/-- The number of operators in the left operand of a comparison. -/
def operatorsLeft : Expr → Nat
  | binary .eq lhs _ | binary .lt lhs _ => lhs.operators
  | _ => 0

/-- The grouping of sums and conjunctions leaves the operands of comparisons alone. -/
theorem Regroups.operatorsLeft_eq (h : Regroups Associative e₁ e₂) :
    e₁.operatorsLeft = e₂.operatorsLeft := by
  induction h with
  | refl _ => rfl
  | symm _ ih => exact ih.symm
  | trans _ _ ih₁ ih₂ => exact ih₁.trans ih₂
  | binary op ha _ _ _ => cases op <;> simp [operatorsLeft, ha.operators_eq]
  | @regroup op₁ op₂ a b c hprec hfree =>
    -- The neighbour of a sum is a sum, and that of a conjunction a conjunction.
    rcases hfree with rfl | rfl <;> cases op₂ <;> simp_all [operatorsLeft, BinaryOp.precedence]

/-- Comparisons in a row are written alike however they are grouped, which associativity does not
    account for. -/
theorem comparisons_written_alike {op₁ op₂ : BinaryOp} (h₁ : ¬Associative op₁)
    (h₂ : ¬Associative op₂) (a b c : Expr) :
    (binary op₁ a (binary op₂ b c)).text scope = (binary op₂ (binary op₁ a b) c).text scope ∧
      ¬Regroups Associative (binary op₁ a (binary op₂ b c)) (binary op₂ (binary op₁ a b) c) := by
  have hop : ∀ op, ¬Associative op → op = .eq ∨ op = .lt := by
    intro op h
    cases op <;> simp_all [Associative]
  constructor
  · have hprec : op₁.precedence = op₂.precedence := by
      rcases hop op₁ h₁ with rfl | rfl <;> rcases hop op₂ h₂ with rfl | rfl <;> rfl
    simp [text, wrap, needsParens_congr hprec, needsParens_of_eq hprec, String.append_assoc]
  · intro h
    have hsize := h.operatorsLeft_eq
    rcases hop op₁ h₁ with rfl | rfl <;> rcases hop op₂ h₂ with rfl | rfl <;>
      simp only [operatorsLeft, operators] at hsize <;> omega

end Expr

end HashEq

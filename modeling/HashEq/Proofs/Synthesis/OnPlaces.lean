import HashEq.Proofs.Checks
import HashEq.Synthesis.Equality

/-!
# Conditions on two places

Array checks write one condition for many elements: it is built on the places of
the elements, and it depends on the index of the elements by these places only.

* `OnPlaces`: conditions on two places that do not read the counter;
* `BuildsOnPlaces`: what is built on two places is such a condition;
* `buildsOnPlaces_elementEqual`, `buildsOnPlaces_conditionsThat`: all conditions of
  array checks are.
-/

namespace HashEq

open EqualityCode

/-! ### Conditions on two places -/

/-- A condition on two places that does not read the counter: it has no other way to depend on an
    index than through the places. -/
inductive OnPlaces : (Expr → Expr → Expr) → Prop
  | left : OnPlaces fun P _ => P
  | right : OnPlaces fun _ Q => Q
  | var {id : Nat} (h : id ≠ i) : OnPlaces fun _ _ => .var id
  | const (value : Word) : OnPlaces fun _ _ => .const value
  | bool (value : Bool) : OnPlaces fun _ _ => .bool value
  | deref {f : Expr → Expr → Expr} (h : OnPlaces f) (ty : TypeId) :
      OnPlaces fun P Q => .deref (f P Q) ty
  | field {f : Expr → Expr → Expr} (h : OnPlaces f) (owner : TypeId) (index : Nat) :
      OnPlaces fun P Q => .field (f P Q) owner index
  | index {f g : Expr → Expr → Expr} (hf : OnPlaces f) (hg : OnPlaces g) (elem : TypeId)
      (bounded : Bool) : OnPlaces fun P Q => .index (f P Q) (g P Q) elem bounded
  | addr {f : Expr → Expr → Expr} (h : OnPlaces f) : OnPlaces fun P Q => .addr (f P Q)
  | strLen {f : Expr → Expr → Expr} (h : OnPlaces f) : OnPlaces fun P Q => .strLen (f P Q)
  | strPtr {f : Expr → Expr → Expr} (h : OnPlaces f) : OnPlaces fun P Q => .strPtr (f P Q)
  | binary (op : BinaryOp) {f g : Expr → Expr → Expr} (hf : OnPlaces f) (hg : OnPlaces g) :
      OnPlaces fun P Q => .binary op (f P Q) (g P Q)
  | call (callee : Callee) {args : List (Expr → Expr → Expr)} (h : ∀ arg ∈ args, OnPlaces arg) :
      OnPlaces fun P Q => .call callee (args.map fun arg => arg P Q)

/-- Whenever a condition is built on two places, it is the given one. -/
def BuildsAs (check : Expr → Expr → Except RequestError Expr) (f : Expr → Expr → Expr) : Prop :=
  ∀ P Q condition, check P Q = .ok condition → condition = f P Q

/-! ### The conditions of array checks -/

section Conditions

variable {f g : Expr → Expr → Expr} {check : Expr → Expr → Except RequestError Expr}

/-- A condition on places that are reached from two places is a condition on these. -/
theorem OnPlaces.comp {h : Expr → Expr → Expr} (hh : OnPlaces h) (hf : OnPlaces f) (hg : OnPlaces g) :
    OnPlaces fun P Q => h (f P Q) (g P Q) := by
  induction hh with
  | left => exact hf
  | right => exact hg
  | var hid => exact .var hid
  | const value => exact .const value
  | bool value => exact .bool value
  | deref _ ty ih => exact .deref ih ty
  | field _ owner index ih => exact .field ih owner index
  | index _ _ elem bounded ihbase ihindex => exact .index ihbase ihindex elem bounded
  | addr _ ih => exact .addr ih
  | strLen _ ih => exact .strLen ih
  | strPtr _ ih => exact .strPtr ih
  | binary op _ _ ihlhs ihrhs => exact .binary op ihlhs ihrhs
  | @call callee args _ ih =>
    have hcall : OnPlaces fun P Q =>
        .call callee ((args.map fun arg P Q => arg (f P Q) (g P Q)).map fun arg => arg P Q) :=
      .call callee (List.forall_mem_map.2 ih)
    simpa only [List.map_map, Function.comp_def] using hcall

theorem onPlaces_call (callee : Callee) {arg arg' : Expr → Expr → Expr} (harg : OnPlaces arg)
    (harg' : OnPlaces arg') : OnPlaces fun P Q => .call callee [arg P Q, arg' P Q] :=
  @OnPlaces.call callee [arg, arg'] (List.forall_mem_cons.2 ⟨harg, List.forall_mem_singleton.2 harg'⟩)

theorem onPlaces_callSized (callee : Callee) {arg arg' size : Expr → Expr → Expr}
    (harg : OnPlaces arg) (harg' : OnPlaces arg') (hsize : OnPlaces size) :
    OnPlaces fun P Q => .call callee [arg P Q, arg' P Q, size P Q] :=
  @OnPlaces.call callee [arg, arg', size] (List.forall_mem_cons.2
    ⟨harg, List.forall_mem_cons.2 ⟨harg', List.forall_mem_singleton.2 hsize⟩⟩)

theorem onPlaces_lengthsEqual : OnPlaces lengthsEqual :=
  .binary .eq (.strLen .left) (.strLen .right)

theorem onPlaces_contentsEqual : OnPlaces contentsEqual :=
  onPlaces_callSized _ (.strPtr .left) (.strPtr .right) (.strLen .left)

theorem onPlaces_all {fs : List (Expr → Expr → Expr)} (h : ∀ f ∈ fs, OnPlaces f) :
    OnPlaces fun P Q => .all (fs.map fun f => f P Q) := by
  have hfold : ∀ (fs : List (Expr → Expr → Expr)) before, (∀ f ∈ fs, OnPlaces f) → OnPlaces before →
      OnPlaces fun P Q =>
        ((fs.map fun f => f P Q).foldl (fun before condition => some (Expr.and before condition))
          (some (before P Q))).getD (.bool true) := by
    intro fs
    induction fs with
    | nil => exact fun before _ hbefore => hbefore
    | cons f fs ih =>
      intro before h hbefore
      obtain ⟨hf, hfs⟩ := List.forall_mem_cons.1 h
      exact ih _ hfs (.binary .and hbefore hf)
  cases fs with
  | nil => exact .bool true
  | cons f fs =>
    obtain ⟨hf, hfs⟩ := List.forall_mem_cons.1 h
    exact hfold fs f hfs hf

/-- What is built on two places is a condition on these. -/
def BuildsOnPlaces (check : Expr → Expr → Except RequestError Expr) : Prop :=
  ∃ f, OnPlaces f ∧ BuildsAs check f

theorem buildsAs_return (f : Expr → Expr → Expr) : BuildsAs (fun P Q => return f P Q) f := by
  rintro P Q condition ⟨⟩
  rfl

theorem OnPlaces.buildsOnPlaces (hf : OnPlaces f) : BuildsOnPlaces fun P Q => return f P Q :=
  ⟨f, hf, buildsAs_return f⟩

theorem buildsOnPlaces_of_error (h : ∀ P Q condition, check P Q ≠ .ok condition) :
    BuildsOnPlaces check :=
  ⟨_, .bool true, fun P Q condition hok => absurd hok (h P Q condition)⟩

theorem BuildsOnPlaces.comp (h : BuildsOnPlaces check) (hf : OnPlaces f) (hg : OnPlaces g) :
    BuildsOnPlaces fun P Q => check (f P Q) (g P Q) := by
  obtain ⟨condition, honPlaces, hbuilds⟩ := h
  exact ⟨_, honPlaces.comp hf hg, fun P Q => hbuilds (f P Q) (g P Q)⟩

variable (table : TypeTable)

theorem buildsOnPlaces_elementEqual (ty : TypeId) : BuildsOnPlaces (table.elementEqual ty) := by
  unfold TypeTable.elementEqual
  have hcall : ∀ callee, OnPlaces fun P Q => .call callee [.addr P, .addr Q] := fun callee =>
    onPlaces_call callee (.addr .left) (.addr .right)
  cases table.base ty with
  | memory | float32 | float64 | complex64 | complex128 =>
    exact (OnPlaces.binary .eq .left .right).buildsOnPlaces
  | string => exact (OnPlaces.binary .and onPlaces_lengthsEqual onPlaces_contentsEqual).buildsOnPlaces
  | interface | nilInterface => exact (hcall _).buildsOnPlaces
  | special =>
    cases table.symbolOf .equality ty with
    | error e => exact buildsOnPlaces_of_error fun P Q condition => nofun
    | ok symbol => exact (hcall (.generated symbol)).buildsOnPlaces
  | noEquality =>
    refine buildsOnPlaces_of_error fun P Q condition hok => ?_
    obtain ⟨_, _, hthrow⟩ := bind_eq_ok_iff.1 hok
    cases hthrow

theorem buildsOnPlaces_expr (owner : TypeId) (c : Condition) :
    BuildsOnPlaces fun P Q => c.expr table owner P Q := by
  have hfield : ∀ i, OnPlaces (fun P _ => .field P owner i) ∧ OnPlaces fun _ Q => .field Q owner i :=
    fun i => ⟨.field .left owner i, .field .right owner i⟩
  cases c with
  | same i => exact (OnPlaces.binary .eq (hfield i).1 (hfield i).2).buildsOnPlaces
  | block i size =>
    exact (onPlaces_callSized _ (.addr (hfield i).1) (.addr (hfield i).2) (.const size)).buildsOnPlaces
  | lengths i => exact (onPlaces_lengthsEqual.comp (hfield i).1 (hfield i).2).buildsOnPlaces
  | contents i => exact (onPlaces_contentsEqual.comp (hfield i).1 (hfield i).2).buildsOnPlaces
  | element i ty => exact (buildsOnPlaces_elementEqual table ty).comp (hfield i).1 (hfield i).2

theorem buildsOnPlaces_conditionsThat (calls : Bool) (ty : TypeId) :
    BuildsOnPlaces (table.conditionsThat calls ty) := by
  have hmapM : ∀ cs : List Condition, ∃ fs : List (Expr → Expr → Expr), (∀ f ∈ fs, OnPlaces f) ∧
      ∀ P Q conditions, cs.mapM (Condition.expr table ty P Q) = .ok conditions →
        conditions = fs.map fun f => f P Q := by
    intro cs
    induction cs with
    | nil => exact ⟨[], nofun, by rintro P Q conditions ⟨⟩; rfl⟩
    | cons c cs ih =>
      obtain ⟨fs, hfs, hall⟩ := ih
      obtain ⟨f, hf, hbuilds⟩ := buildsOnPlaces_expr table ty c
      refine ⟨f :: fs, List.forall_mem_cons.2 ⟨hf, hfs⟩, fun P Q conditions h => ?_⟩
      rw [List.mapM_cons] at h
      obtain ⟨condition, hcondition, h⟩ := bind_eq_ok_iff.1 h
      obtain ⟨rest, hrest, h⟩ := bind_eq_ok_iff.1 h
      cases h
      rw [List.map_cons, hbuilds P Q condition hcondition, hall P Q rest hrest]
  obtain ⟨fs, hfs, hall⟩ := hmapM ((table.conditions ty).filter fun c => c.isCall table == calls)
  refine ⟨_, onPlaces_all hfs, fun P Q condition h => ?_⟩
  obtain ⟨conditions, hconditions, h⟩ := bind_eq_ok_iff.1 h
  cases h
  rw [hall P Q conditions hconditions]

end Conditions

end HashEq

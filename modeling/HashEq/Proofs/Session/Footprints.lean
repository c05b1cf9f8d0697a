import HashEq.Proofs.Session.Cells

/-!
# The cells that matter to a request

A request may look into some of the cells of a session and fill some of them. The
other cells do not matter to it: whatever they hold, or if they do not exist, it does
the same, and it leaves them as they are.

* `KeepsTo`: requests to which certain cells alone matter;
* `TurnsTo`: the cells that matter to a request;
* `Confined`: requests that keep to cells and end, whatever the session holds;
* `Confined.bind`, `Confined.forM`, `Confined.obtain`: requests made one after the
  other, and cells filled on the first request.
-/

namespace HashEq

namespace Memo

variable {κ ν : Type} [BEq κ] [Hashable κ]

/-- A change of what a table holds for one key: what it leaves there, or for any other key, depends
    only on what was there before. -/
structure Concerns (key : κ) (change : Memo κ ν → Memo κ ν) : Prop where
  congr : ∀ {memo memo' : Memo κ ν} {k : κ}, memo.cells[k]? = memo'.cells[k]? →
    (change memo).cells[k]? = (change memo').cells[k]?
  frame : ∀ {memo : Memo κ ν} {k : κ}, k ≠ key → (change memo).cells[k]? = memo.cells[k]?

variable [LawfulBEq κ]

theorem concerns_reserve (key : κ) : Concerns key fun memo : Memo κ ν => memo.reserve key := by
  refine ⟨fun {memo memo' k} h => ?_, fun {memo k} hne => ?_⟩
  · rw [reserve, reserve, Std.HashMap.getElem?_insertIfNew, Std.HashMap.getElem?_insertIfNew, h]
    by_cases hkey : (key == k) = true
    · cases eq_of_beq hkey
      have hmem : key ∈ memo.cells ↔ key ∈ memo'.cells := by
        rw [Std.HashMap.mem_iff_isSome_getElem?, Std.HashMap.mem_iff_isSome_getElem?, h]
      simp only [hmem]
    · rw [if_neg fun hboth => hkey hboth.1, if_neg fun hboth => hkey hboth.1]
  · rw [reserve, Std.HashMap.getElem?_insertIfNew, if_neg fun hkey => hne (eq_of_beq hkey.1).symm]

theorem concerns_complete (key : κ) (value : ν) : Concerns key (·.complete key value) := by
  refine ⟨fun {memo memo' k} h => ?_, fun {memo k} hne => ?_⟩
  · rw [complete, complete, Std.HashMap.getElem?_insert, Std.HashMap.getElem?_insert, h]
  · rw [complete, Std.HashMap.getElem?_insert, if_neg fun hkey => hne (eq_of_beq hkey).symm]

end Memo

namespace Session

variable {s s' : Session} {cell : Cell} {α β : Type}

/-! ### The cells that matter to a request -/

/-- Two sessions hold the same in a cell, or both have no such cell. -/
def SameAt (s s' : Session) : Cell → Prop
  | .function ty purpose => s.functions.cells[(ty, purpose)]? = s'.functions.cells[(ty, purpose)]?
  | .closure key => s.closures.cells[key]? = s'.closures.cells[key]?

theorem SameAt.refl (s : Session) (cell : Cell) : SameAt s s cell := by
  cases cell <;> rfl

theorem SameAt.symm (h : SameAt s s' cell) : SameAt s' s cell := by
  cases cell <;> exact Eq.symm h

theorem SameAt.trans {s'' : Session} (h : SameAt s s' cell) (h' : SameAt s' s'' cell) :
    SameAt s s'' cell := by
  cases cell <;> exact Eq.trans h h'

theorem SameAt.knows (h : SameAt s s' cell) (hknows : s.Knows cell) : s'.Knows cell := by
  cases cell with
  | function ty purpose | closure key =>
    obtain ⟨value, hvalue⟩ := hknows
    exact ⟨value, (congrArg Option.join h).symm.trans hvalue⟩

/-- Two sessions hold the same in all of certain cells. -/
def Agree (P : Cell → Prop) (s s' : Session) : Prop :=
  ∀ cell, P cell → SameAt s s' cell

/-- A request keeps to certain cells: the answer to it, and what they hold afterwards, depends only
    on what they held before, and all other cells are left as they are. -/
def KeepsTo (P : Cell → Prop) (request : SessionM α) : Prop :=
  ∀ s s', Agree P s s' →
    (request s).1 = (request s').1 ∧ Agree P (request s).2 (request s').2 ∧
      Agree (¬P ·) (request s).2 s

/-- A cell matters to a request. Asking for a cell is turning to it, whether the cell is full or
    not: the answer is what it holds, and if it holds nothing, it is filled. -/
def TurnsTo (request : SessionM α) (cell : Cell) : Prop :=
  ¬KeepsTo (· ≠ cell) request

/-- What keeps to certain cells keeps to more. -/
theorem KeepsTo.mono {P Q : Cell → Prop} {request : SessionM α} (h : KeepsTo P request)
    (hPQ : ∀ cell, P cell → Q cell) : KeepsTo Q request := by
  intro s s' hs
  obtain ⟨hanswer, hagree, hframe⟩ := h s s' fun cell hcell => hs cell (hPQ cell hcell)
  obtain ⟨_, _, hframe'⟩ := h s' s' fun cell _ => .refl s' cell
  refine ⟨hanswer, fun cell hcell => ?_, fun cell hcell => ?_⟩
  · -- A cell that the request does not keep to is left as it was in both sessions.
    by_cases hP : P cell
    · exact hagree cell hP
    · exact (hframe cell hP).trans ((hs cell hcell).trans (hframe' cell hP).symm)
  · exact hframe cell fun hP => hcell (hPQ cell hP)

theorem KeepsTo.of_turnsTo {P : Cell → Prop} {request : SessionM α} (h : KeepsTo P request)
    (hturns : TurnsTo request cell) : P cell := by
  refine Classical.byContradiction fun hcell => hturns (h.mono fun other hother heq => ?_)
  rw [heq] at hother
  exact hcell hother

/-! ### Requests that keep to cells and end -/

/-- A request keeps to certain cells and ends: whatever the session holds, it is answered or
    refused, and no fault stops it. -/
structure Confined (P : Cell → Prop) (request : SessionM α) : Prop where
  keepsTo : KeepsTo P request
  ends : ∀ s f, (request s).1 ≠ .error (.fault f)

/-- A change of what a session holds in one cell: what it leaves there, or in any other cell,
    depends only on what the cell held before. -/
structure Concerns (cell : Cell) (change : Session → Session) : Prop where
  congr : ∀ {s s' other}, SameAt s s' other → SameAt (change s) (change s') other
  frame : ∀ {s other}, other ≠ cell → SameAt (change s) s other

/-- The value of a key is kept in a cell. -/
structure Cell.At {κ ν : Type} [BEq κ] [Hashable κ] (cell : Cell) (place : Memo.Place Session κ ν)
    (key : κ) : Prop where
  read : ∀ {s s'}, SameAt s s' cell → (place.read s).get? key = (place.read s').get? key
  reserve : Concerns cell (place.update (·.reserve key))
  complete : ∀ value, Concerns cell (place.update (·.complete key value))

theorem concerns_functions {ty : TypeId} {purpose : Purpose}
    {change : Memo (TypeId × Purpose) Function → Memo (TypeId × Purpose) Function}
    (h : Memo.Concerns (ty, purpose) change) :
    Concerns (.function ty purpose) (functionsPlace.update change) := by
  refine ⟨fun {s s' other} hsame => ?_, fun {s other} hne => ?_⟩
  · cases other with
    | function ty' purpose' => exact h.congr hsame
    | closure key => exact hsame
  · cases other with
    | function ty' purpose' => exact h.frame fun heq => by cases heq; exact hne rfl
    | closure key => rfl

theorem concerns_closures {key : ClosureKey}
    {change : Memo ClosureKey Closure → Memo ClosureKey Closure} (h : Memo.Concerns key change) :
    Concerns (.closure key) (closuresPlace.update change) := by
  refine ⟨fun {s s' other} hsame => ?_, fun {s other} hne => ?_⟩
  · cases other with
    | function ty purpose => exact hsame
    | closure key' => exact h.congr hsame
  · cases other with
    | function ty purpose => rfl
    | closure key' => exact h.frame fun heq => hne (congrArg Cell.closure heq)

theorem Cell.At.function (ty : TypeId) (purpose : Purpose) :
    Cell.At (.function ty purpose) functionsPlace (ty, purpose) :=
  ⟨fun hsame => congrArg Option.join hsame, concerns_functions (Memo.concerns_reserve _),
    fun value => concerns_functions (Memo.concerns_complete _ value)⟩

theorem Cell.At.closure (key : ClosureKey) : Cell.At (.closure key) closuresPlace key :=
  ⟨fun hsame => congrArg Option.join hsame, concerns_closures (Memo.concerns_reserve _),
    fun value => concerns_closures (Memo.concerns_complete _ value)⟩

/-- Asking for a value keeps to the cells that computing it keeps to, its own being one of them. -/
theorem KeepsTo.obtain {κ ν : Type} [BEq κ] [Hashable κ] {place : Memo.Place Session κ ν} {key : κ}
    {P : Cell → Prop} {compute : SessionM ν} (h : KeepsTo P compute) (hat : cell.At place key)
    (hcell : P cell) : KeepsTo P (Memo.obtain place key compute) := by
  have hne : ∀ other, ¬P other → other ≠ cell := fun other hother heq => hother (heq ▸ hcell)
  intro s s' hs
  rw [obtain_apply, obtain_apply, hat.read (hs cell hcell)]
  cases (place.read s').get? key with
  | some value => exact ⟨rfl, hs, fun other _ => .refl s other⟩
  | none =>
    have hreserved : Agree P (place.update (·.reserve key) s) (place.update (·.reserve key) s') :=
      fun other hother => hat.reserve.congr (hs other hother)
    obtain ⟨hanswer, hagree, hframe⟩ := h _ _ hreserved
    replace hframe : Agree (¬P ·) _ s := fun other hother =>
      (hframe other hother).trans (hat.reserve.frame (hne other hother))
    generalize place.update (·.reserve key) s = t, place.update (·.reserve key) s' = t' at *
    dsimp only
    generalize compute t = left, compute t' = right at *
    obtain ⟨answer, u⟩ := left
    obtain ⟨_, u'⟩ := right
    cases hanswer
    cases answer with
    | error e => exact ⟨rfl, hagree, hframe⟩
    | ok value =>
      exact ⟨rfl, fun other hother => (hat.complete value).congr (hagree other hother),
        fun other hother => ((hat.complete value).frame (hne other hother)).trans
          (hframe other hother)⟩

/-- What is filled on the way to a cell is turned to. -/
theorem turnsTo_of_knows {κ ν : Type} [BEq κ] [Hashable κ] {place : Memo.Place Session κ ν}
    {key : κ} {compute : SessionM ν} {inner : Cell} (hat : cell.At place key) (hne : cell ≠ inner)
    (hknows : (Memo.obtain place key compute .empty).2.Knows inner) : TurnsTo compute inner := by
  intro hkeeps
  obtain ⟨_, _, hframe⟩ := hkeeps.obtain hat hne .empty .empty fun other _ => .refl .empty other
  exact not_knows_empty inner ((hframe inner fun hne => hne rfl).knows hknows)

namespace Confined

variable {P Q : Cell → Prop} {request : SessionM α} {next : α → SessionM β}

theorem mono (h : Confined P request) (hPQ : ∀ cell, P cell → Q cell) : Confined Q request :=
  ⟨h.keepsTo.mono hPQ, h.ends⟩

/-- What needs no session keeps to any cells. -/
theorem const {answer : Except RequestError α} (h : ∀ s, request s = (answer, s))
    (hends : ∀ f, answer ≠ .error (.fault f)) : Confined P request := by
  refine ⟨fun s s' hs => ?_, fun s f => ?_⟩
  · rw [h, h]
    exact ⟨rfl, hs, fun cell _ => .refl s cell⟩
  · rw [h]
    exact hends f

theorem pure (a : α) : Confined P (Pure.pure a : SessionM α) :=
  const (fun _ => rfl) nofun

/-- Making a function known by its symbol touches no cell. -/
theorem register (f : Function) :
    Confined P (modify (Session.register f) : SessionM PUnit) := by
  refine ⟨fun s s' hs => ⟨rfl, fun cell hcell => ?_, fun cell _ => ?_⟩, fun s f => nofun⟩
  · have hsame := hs cell hcell
    cases cell <;> exact hsame
  · cases cell <;> rfl

theorem bind (h : Confined P request) (hnext : ∀ a, Confined P (next a)) :
    Confined P (request >>= next) := by
  refine ⟨fun s s' hs => ?_, fun s f => ?_⟩
  · obtain ⟨hanswer, hagree, hframe⟩ := h.keepsTo s s' hs
    rw [bind_apply, bind_apply]
    generalize request s = left, request s' = right at *
    obtain ⟨answer, t⟩ := left
    obtain ⟨_, t'⟩ := right
    cases hanswer
    cases answer with
    | error e => exact ⟨rfl, hagree, hframe⟩
    | ok a =>
      obtain ⟨hanswer, hagree, hframe'⟩ := (hnext a).keepsTo t t' hagree
      exact ⟨hanswer, hagree, fun cell hcell => (hframe' cell hcell).trans (hframe cell hcell)⟩
  · have hends := h.ends s f
    rw [bind_apply]
    generalize request s = left at *
    obtain ⟨answer, t⟩ := left
    cases answer with
    | error e => exact fun herror => hends (congrArg Except.error (Except.error.inj herror))
    | ok a => exact (hnext a).ends t f

theorem map (f : α → β) (h : Confined P request) : Confined P (f <$> request) := by
  rw [map_eq_pure_bind]
  exact h.bind fun a => .pure (f a)

theorem forM {f : β → SessionM PUnit} {l : List β} (h : ∀ b ∈ l, Confined P (f b)) :
    Confined P (l.forM f) := by
  induction l with
  | nil => exact .pure PUnit.unit
  | cons b l ih =>
    change Confined P (f b >>= fun _ => l.forM f)
    exact (h b List.mem_cons_self).bind fun _ => ih fun b hb => h b (List.mem_cons_of_mem _ hb)

theorem obtain {κ ν : Type} [BEq κ] [Hashable κ] {place : Memo.Place Session κ ν} {key : κ}
    {compute : SessionM ν} (hat : cell.At place key) (hcell : P cell) (h : Confined P compute) :
    Confined P (Memo.obtain place key compute) := by
  refine ⟨h.keepsTo.obtain hat hcell, fun s f => ?_⟩
  rw [obtain_apply]
  cases (place.read s).get? key with
  | some value => exact nofun
  | none =>
    have hends := h.ends (place.update (·.reserve key) s) f
    dsimp only
    generalize compute (place.update (·.reserve key) s) = left at *
    obtain ⟨answer, u⟩ := left
    cases answer with
    | error e => exact hends
    | ok value => exact nofun

end Confined

end Session

end HashEq

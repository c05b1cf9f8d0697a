import HashEq.Proofs.Memo
import HashEq.Proofs.Session.Requests

/-!
# The cells of a session

A session fills *cells*: one for each function and one for each closure. Before a
cell is filled, those that it needs are: a function needs the functions that it
calls, a closure over a function needs the function, and a hash closure moreover
the closures for the parts. So a session in which no request is under way knows,
with any cell, all that it needs (`Settled`).

* `Needs`, `Needed`: what a cell needs, directly or through others;
* `Grown`: the session after requests that ask for certain cells;
* `Gives`: a request that every settled session answers alike;
* `Gives.bind`, `Gives.forM`, `Gives.obtain_function`, `Gives.obtain_closure`:
  requests made one after the other, and cells filled on the first request.
-/

namespace HashEq

namespace Session

variable {table : TypeTable}

/-- What a session fills at most once. -/
inductive Cell
  | function (ty : TypeId) (purpose : Purpose)
  | closure (key : ClosureKey)
  deriving DecidableEq, Repr

/-- The cells that are filled on the way to a cell, in this order. -/
def Cell.inner (table : TypeTable) : Cell → List Cell
  | function ty purpose => (table.callees purpose ty).map (function · purpose)
  | closure (.generated ty purpose) =>
    (pregenerated table purpose ty).map (fun part => closure (closureKey table .hash part)) ++
      [function ty purpose]
  | closure (.primitive _) | closure (.varMemory _ _) => []

/-- A cell needs itself and whatever the cells need that are filled on the way to it. -/
inductive Needs (table : TypeTable) : Cell → Cell → Prop
  | refl (cell : Cell) : Needs table cell cell
  | inner {outer inner cell : Cell} : inner ∈ outer.inner table → Needs table inner cell →
      Needs table outer cell

/-- One of the cells that were asked for needs the cell. -/
def Needed (table : TypeTable) (asked : List Cell) (cell : Cell) : Prop :=
  ∃ outer ∈ asked, Needs table outer cell

/-- The cell is filled. -/
def Knows (s : Session) : Cell → Prop
  | .function ty purpose => ∃ f, s.functions.get? (ty, purpose) = some f
  | .closure key => ∃ c, s.closures.get? key = some c

/-- What a session knows is what the type table gives, and all that is needed for it is known. -/
structure Settled (table : TypeTable) (s : Session) : Prop extends Sound table s where
  closed : ∀ {outer inner : Cell}, s.Knows outer → inner ∈ outer.inner table → s.Knows inner
  counted : s.functionCount = s.functions.values.length

/-! ### What is needed -/

section Needed

variable {asked asked' : List Cell} {cell : Cell}

theorem not_needed_nil : ¬Needed table [] cell :=
  fun ⟨_, houter, _⟩ => absurd houter List.not_mem_nil

theorem needed_append :
    Needed table (asked ++ asked') cell ↔ Needed table asked cell ∨ Needed table asked' cell := by
  simp only [Needed, List.mem_append, or_and_right, exists_or]

theorem needed_singleton {outer : Cell} :
    Needed table [outer] cell ↔ Needed table (outer.inner table) cell ∨ cell = outer := by
  constructor
  · rintro ⟨_, houter, hneeds⟩
    rw [List.mem_singleton.1 houter] at hneeds
    cases hneeds with
    | refl => exact .inr rfl
    | inner hinner hneeds => exact .inl ⟨_, hinner, hneeds⟩
  · rintro (⟨inner, hinner, hneeds⟩ | rfl)
    · exact ⟨outer, List.mem_singleton_self outer, .inner hinner hneeds⟩
    · exact ⟨cell, List.mem_singleton_self cell, .refl cell⟩

theorem needed_of_mem (h : cell ∈ asked) : Needed table asked cell :=
  ⟨cell, h, .refl cell⟩

/-- A function needs functions of smaller types only, besides itself. -/
theorem raw_le_of_needs {ty ty' : TypeId} {purpose purpose' : Purpose}
    (h : Needs table (.function ty purpose) (.function ty' purpose')) : ty'.raw ≤ ty.raw := by
  generalize houter : Cell.function ty purpose = outer at h
  generalize hcell : Cell.function ty' purpose' = cell at h
  induction h generalizing ty with
  | refl =>
    cases houter.trans hcell.symm
    exact UInt32.le_refl _
  | inner hinner _ ih =>
    subst houter
    obtain ⟨callee, hcallee, heq⟩ := List.mem_map.1 hinner
    exact UInt32.le_of_lt (UInt32.lt_of_le_of_lt (ih heq hcell) (TypeTable.callees_lt hcallee))

/-- A function is not needed on the way to itself. -/
theorem not_needed_inner_function {ty : TypeId} {purpose : Purpose} :
    ¬Needed table (Cell.inner table (.function ty purpose)) (.function ty purpose) := by
  rintro ⟨outer, houter, hneeds⟩
  obtain ⟨callee, hcallee, rfl⟩ := List.mem_map.1 houter
  exact UInt32.not_lt.2 (raw_le_of_needs hneeds) (TypeTable.callees_lt hcallee)

end Needed

theorem Settled.knows_of_needs {s : Session} (hs : Settled table s) {outer cell : Cell}
    (hneeds : Needs table outer cell) (hknows : s.Knows outer) : s.Knows cell := by
  induction hneeds with
  | refl => exact hknows
  | inner hinner _ ih => exact ih (hs.closed hknows hinner)

theorem not_knows_empty (cell : Cell) : ¬empty.Knows cell := by
  cases cell with
  | function ty purpose | closure key =>
    rintro ⟨_, h⟩
    rw [empty, Memo.get?_empty] at h
    cases h

theorem settled_empty (table : TypeTable) : Settled table .empty :=
  { sound_empty table with
    closed := fun {outer _} hknows => absurd hknows (not_knows_empty outer)
    counted := (congrArg List.length Memo.values_empty).symm }

/-! ### Growing -/

/-- The functions by symbol, after some were registered one after the other. -/
def registerAll (fs : List Function) (registered : Std.HashMap String Function) :
    Std.HashMap String Function :=
  fs.foldl (fun registered f => registered.insert f.symbol f) registered

/-- Besides what it knew, a session knows what the cells need that were asked for. All cells of
    closures that have come with it are filled. -/
structure Grown (table : TypeTable) (asked : List Cell) (later earlier : Session) : Prop where
  settled : Settled table later
  knows : ∀ cell, later.Knows cell ↔ earlier.Knows cell ∨ Needed table asked cell
  pending : ∀ key, later.closures.Pending key → earlier.closures.Pending key
  /-- Functions came to be known by symbol as they were registered and counted, one by one. -/
  registers : ∃ fs, later.registered = registerAll fs earlier.registered ∧
    later.functionCount = earlier.functionCount + fs.length

namespace Grown

variable {s s' s'' : Session} {asked asked' : List Cell}

/-- Asking for what is known changes nothing. -/
theorem of_knows (hs : Settled table s) (hknows : ∀ cell ∈ asked, s.Knows cell) :
    Grown table asked s s := by
  refine ⟨hs, fun cell => ⟨.inl, ?_⟩, fun _ => id, [], rfl, rfl⟩
  rintro (hcell | ⟨outer, houter, hneeds⟩)
  · exact hcell
  · exact hs.knows_of_needs hneeds (hknows outer houter)

theorem refl (hs : Settled table s) : Grown table [] s s :=
  of_knows hs fun _ hcell => absurd hcell List.not_mem_nil

theorem trans (h : Grown table asked s' s) (h' : Grown table asked' s'' s') :
    Grown table (asked ++ asked') s'' s := by
  obtain ⟨fs, hregistered, hcount⟩ := h.registers
  obtain ⟨fs', hregistered', hcount'⟩ := h'.registers
  refine ⟨h'.settled, fun cell => ?_, fun key hkey => h.pending key (h'.pending key hkey),
    fs ++ fs', ?_, ?_⟩
  · rw [h'.knows, h.knows, needed_append, or_assoc]
  · rw [hregistered', hregistered, registerAll, registerAll, registerAll, List.foldl_append]
  · rw [hcount', hcount, List.length_append, Nat.add_assoc]

theorem knows_of_mem (h : Grown table asked s' s) {cell : Cell} (hcell : cell ∈ asked) :
    s'.Knows cell :=
  (h.knows cell).2 (.inr (needed_of_mem hcell))

end Grown

/-! ### Filling a cell -/

section Fill

variable {s : Session}

theorem knows_reserve_function (s : Session) (key : TypeId × Purpose) (cell : Cell) :
    (functionsPlace.update (·.reserve key) s).Knows cell ↔ s.Knows cell := by
  cases cell with
  | function ty purpose =>
    change (∃ f, (s.functions.reserve key).get? (ty, purpose) = some f) ↔ _
    rw [Memo.get?_reserve]
    rfl
  | closure key => rfl

theorem knows_reserve_closure (s : Session) (key : ClosureKey) (cell : Cell) :
    (closuresPlace.update (·.reserve key) s).Knows cell ↔ s.Knows cell := by
  cases cell with
  | function ty purpose => rfl
  | closure k =>
    change (∃ c, (s.closures.reserve key).get? k = some c) ↔ _
    rw [Memo.get?_reserve]
    rfl

theorem Settled.reserve_function (hs : Settled table s) (key : TypeId × Purpose) :
    Settled table (functionsPlace.update (·.reserve key) s) := by
  refine ⟨(hs.toSound.reserve_function key).1, fun hknows hinner => ?_, hs.counted.trans ?_⟩
  · rw [knows_reserve_function] at hknows ⊢
    exact hs.closed hknows hinner
  · exact (Memo.length_values_congr fun k => by rw [functionsPlace, Memo.get?_reserve]).symm

theorem Settled.reserve_closure (hs : Settled table s) (key : ClosureKey) :
    Settled table (closuresPlace.update (·.reserve key) s) := by
  refine ⟨(hs.toSound.reserve_closure key).1, fun hknows hinner => ?_, hs.counted⟩
  rw [knows_reserve_closure] at hknows ⊢
  exact hs.closed hknows hinner

theorem knows_complete_function (s : Session) (ty : TypeId) (purpose : Purpose) (f : Function)
    (cell : Cell) :
    (functionsPlace.update (·.complete (ty, purpose) f) (register f s)).Knows cell ↔
      s.Knows cell ∨ cell = .function ty purpose := by
  cases cell with
  | function ty' purpose' =>
    change (∃ g, (s.functions.complete (ty, purpose) f).get? (ty', purpose') = some g) ↔ _
    rw [Memo.get?_complete, Cell.function.injEq, ← Prod.mk.injEq]
    by_cases heq : (ty', purpose') = (ty, purpose)
    · rw [if_pos (beq_iff_eq.2 heq.symm)]
      exact iff_of_true ⟨f, rfl⟩ (.inr heq)
    · rw [if_neg fun hbeq => heq (eq_of_beq hbeq).symm]
      exact (or_iff_left heq).symm
  | closure key => exact (or_iff_left nofun).symm

theorem knows_complete_closure (s : Session) (key : ClosureKey) (c : Closure) (cell : Cell) :
    (closuresPlace.update (·.complete key c) s).Knows cell ↔
      s.Knows cell ∨ cell = .closure key := by
  cases cell with
  | function ty purpose => exact (or_iff_left nofun).symm
  | closure k =>
    change (∃ c', (s.closures.complete key c).get? k = some c') ↔ _
    rw [Memo.get?_complete, Cell.closure.injEq]
    by_cases heq : k = key
    · rw [if_pos (beq_iff_eq.2 heq.symm)]
      exact iff_of_true ⟨c, rfl⟩ (.inr heq)
    · rw [if_neg fun hbeq => heq (eq_of_beq hbeq).symm]
      exact (or_iff_left heq).symm

/-- A cell that is filled after those that it needs leaves nothing open. -/
theorem closed_of_knows {later : Session} {cell : Cell} (hs : Settled table s)
    (hinner : ∀ inner ∈ cell.inner table, s.Knows inner)
    (hknows : ∀ cell', later.Knows cell' ↔ s.Knows cell' ∨ cell' = cell) {outer inner : Cell}
    (houter : later.Knows outer) (hmem : inner ∈ outer.inner table) : later.Knows inner := by
  refine (hknows inner).2 (.inl ?_)
  rcases (hknows outer).1 houter with houter | rfl
  · exact hs.closed houter hmem
  · exact hinner inner hmem

/-- A function that is filled in after all that it needs is counted as a new one. -/
theorem Settled.complete_function (hs : Settled table s) {ty : TypeId} {purpose : Purpose}
    {f : Function} (hcustom : requireCustom table purpose ty = .ok ())
    (hf : table.synthesize purpose ty = .ok f)
    (hinner : ∀ inner ∈ Cell.inner table (.function ty purpose), s.Knows inner)
    (hnew : ¬s.Knows (.function ty purpose)) :
    Settled table (functionsPlace.update (·.complete (ty, purpose) f) (register f s)) := by
  have hsound := hs.toSound.complete_function hcustom hf fun callee hcallee =>
    hinner (.function callee purpose) (List.mem_map.2 ⟨callee, hcallee, rfl⟩)
  have hget : s.functions.get? (ty, purpose) = none :=
    Option.eq_none_iff_forall_ne_some.2 fun g hg => hnew ⟨g, hg⟩
  refine ⟨hsound.1, closed_of_knows hs hinner (knows_complete_function s ty purpose f), ?_⟩
  change s.functionCount + 1 = (s.functions.complete (ty, purpose) f).values.length
  rw [Memo.length_values_complete hget, hs.counted]

theorem Settled.complete_closure (hs : Settled table s) {key : ClosureKey} {c : Closure}
    (hc : Builds table s key c) (hinner : ∀ inner ∈ Cell.inner table (.closure key), s.Knows inner) :
    Settled table (closuresPlace.update (·.complete key c) s) :=
  ⟨(hs.toSound.complete_closure hc).1, closed_of_knows hs hinner (knows_complete_closure s key c),
    hs.counted⟩

end Fill

/-! ### Requests -/

/-- Every settled session gives the same answer to a request. By then it has filled the cells
    that are asked for, with all that they need, and no others. -/
structure Gives {ε α : Type} (table : TypeTable) (request : ExceptT ε (StateM Session) α)
    (answer : Except ε α) (asked : List Cell) : Prop where
  answers : ∀ {s : Session}, Settled table s → (request s).1 = answer
  grows : ∀ {s : Session}, Settled table s → Grown table asked (request s).2 s

namespace Gives

variable {ε α β : Type} {request : ExceptT ε (StateM Session) α}
  {next : α → ExceptT ε (StateM Session) β} {answer : Except ε α} {final : Except ε β}
  {asked asked' : List Cell} {a : α} {e : ε}

/-- What needs no session asks for nothing. -/
theorem const (h : ∀ s, request s = (answer, s)) : Gives table request answer [] := by
  refine ⟨fun {s} _ => ?_, fun {s} hs => ?_⟩
  · rw [h]
  · rw [h]
    exact .refl hs

theorem bind (h : Gives table request (.ok a) asked) (hnext : Gives table (next a) final asked') :
    Gives table (request >>= next) final (asked ++ asked') := by
  have happly : ∀ {s}, Settled table s → (request >>= next) s = next a (request s).2 := by
    intro s hs
    rw [bind_apply, show request s = (.ok a, (request s).2) from Prod.ext (h.answers hs) rfl]
  refine ⟨fun hs => ?_, fun hs => ?_⟩
  · rw [happly hs]
    exact hnext.answers (h.grows hs).settled
  · rw [happly hs]
    exact (h.grows hs).trans (hnext.grows (h.grows hs).settled)

/-- A request that is refused is not followed by another one. -/
theorem bind_error (h : Gives table request (.error e) asked) :
    Gives table (request >>= next) (.error e) asked := by
  have happly : ∀ {s}, Settled table s → (request >>= next) s = (.error e, (request s).2) := by
    intro s hs
    rw [bind_apply, show request s = (.error e, (request s).2) from Prod.ext (h.answers hs) rfl]
  refine ⟨fun hs => ?_, fun hs => ?_⟩
  · rw [happly hs]
  · rw [happly hs]
    exact h.grows hs

theorem bind_pure {b : β} (h : Gives table request (.ok a) asked)
    (hnext : next a = pure b) : Gives table (request >>= next) (.ok b) asked := by
  have hpure : Gives table (next a) (.ok b) [] := const fun s => by rw [hnext]; rfl
  have hbind := h.bind hpure
  rwa [List.append_nil] at hbind

theorem map (f : α → β) (h : Gives table request (.ok a) asked) :
    Gives table (f <$> request) (.ok (f a)) asked := by
  rw [map_eq_pure_bind]
  exact h.bind_pure rfl

/-- Requests made in turn ask for what each of them asks for. -/
theorem forM {f : β → ExceptT ε (StateM Session) PUnit} {cell : β → Cell} {l : List β}
    (h : ∀ b ∈ l, Gives table (f b) (.ok ⟨⟩) [cell b]) :
    Gives table (l.forM f) (.ok ⟨⟩) (l.map cell) := by
  induction l with
  | nil => exact const fun _ => rfl
  | cons b l ih =>
    change Gives table (f b >>= fun _ => l.forM f) _ ([cell b] ++ l.map cell)
    exact (h b List.mem_cons_self).bind (ih fun b hb => h b (List.mem_cons_of_mem _ hb))

/-- What is answered is answered in a batch, too. -/
theorem attempt_ok {request : SessionM α} (h : Gives table request (.ok a) asked) :
    Gives table (attempt request) (.ok (.ok a)) asked := by
  have happly : ∀ {s}, Settled table s → attempt request s = (.ok (.ok a), (request s).2) := by
    intro s hs
    rw [attempt_apply, show request s = (.ok a, (request s).2) from Prod.ext (h.answers hs) rfl]
  refine ⟨fun hs => ?_, fun hs => ?_⟩
  · rw [happly hs]
  · rw [happly hs]
    exact h.grows hs

/-! ### Filling cells on request -/

variable {ty : TypeId} {purpose : Purpose} {f : Function}

/-- A function that is synthesized once its callees are known. -/
theorem obtain_function {compute : SessionM Function}
    (hcompute : Gives table compute (.ok f) (Cell.inner table (.function ty purpose)))
    (hcustom : requireCustom table purpose ty = .ok ())
    (hf : table.synthesize purpose ty = .ok f) :
    Gives table
      (Memo.obtain functionsPlace (ty, purpose) do
        let f ← compute
        modify (register f)
        return f)
      (.ok f) [.function ty purpose] := by
  generalize hregister : (do
    let f ← compute
    modify (register f)
    return f : SessionM Function) = registered
  suffices hruns : ∀ {s}, Settled table s →
      (Memo.obtain functionsPlace (ty, purpose) registered s).1 = .ok f ∧
        Grown table [.function ty purpose]
          (Memo.obtain functionsPlace (ty, purpose) registered s).2 s from
    ⟨fun hs => (hruns hs).1, fun hs => (hruns hs).2⟩
  intro s hs
  rw [obtain_apply]
  cases hget : (functionsPlace.read s).get? (ty, purpose) with
  | some g =>
    -- What a settled session knows is what synthesis answers.
    refine ⟨congrArg Except.ok ?_, .of_knows hs fun cell hcell => ?_⟩
    · exact Except.ok.inj ((hs.generated hget).2.symm.trans hf)
    · rw [List.mem_singleton.1 hcell]
      exact ⟨g, hget⟩
  | none =>
    have hreserved := hs.reserve_function (ty, purpose)
    have hanswer := hcompute.answers hreserved
    have hgrown := hcompute.grows hreserved
    dsimp only
    rw [← hregister, bind_apply]
    rcases hrun : compute (functionsPlace.update (·.reserve (ty, purpose)) s) with ⟨answer, s'⟩
    rw [hrun] at hanswer hgrown
    rw [show answer = .ok f from hanswer]
    refine ⟨rfl, ?_⟩
    change Grown table _ (functionsPlace.update (·.complete (ty, purpose) f) (register f s')) s
    have hknows := knows_complete_function s' ty purpose f
    have hinner : ∀ inner ∈ Cell.inner table (.function ty purpose), s'.Knows inner :=
      fun inner => hgrown.knows_of_mem
    -- Nothing that the function calls needs the function itself, so it is a new one.
    have hnew : ¬s'.Knows (.function ty purpose) := by
      rw [show s'.Knows _ ↔ _ from hgrown.knows _, knows_reserve_function]
      rintro (⟨g, hg⟩ | hneeded)
      · cases hg.symm.trans hget
      · exact not_needed_inner_function hneeded
    obtain ⟨fs, hregistered, hcount⟩ := hgrown.registers
    refine ⟨hgrown.settled.complete_function hcustom hf hinner hnew, fun cell => ?_, hgrown.pending,
      fs ++ [f], ?_, ?_⟩
    · rw [hknows, hgrown.knows, knows_reserve_function, needed_singleton, or_assoc]
    · rw [registerAll, List.foldl_append, ← registerAll]
      exact congrArg (·.insert f.symbol f) hregistered
    · rw [List.length_append, ← Nat.add_assoc]
      exact congrArg (· + 1) hcount

/-- A function that is refused leaves an empty cell. -/
theorem obtain_refused {compute : SessionM Function} {e : RequestError}
    (hcompute : ∀ s, compute s = (.error e, s))
    (hcustom : requireCustom table purpose ty = .error e) :
    Gives table (Memo.obtain functionsPlace (ty, purpose) compute) (.error e) [] := by
  have happly : ∀ {s}, Settled table s → Memo.obtain functionsPlace (ty, purpose) compute s =
      (.error e, functionsPlace.update (·.reserve (ty, purpose)) s) := by
    intro s hs
    rw [obtain_apply]
    cases hget : (functionsPlace.read s).get? (ty, purpose) with
    | some g => cases (hs.generated hget).1.symm.trans hcustom
    | none =>
      dsimp only
      rw [hcompute]
  refine ⟨fun hs => ?_, fun {s} hs => ?_⟩
  · rw [happly hs]
  · rw [happly hs]
    refine ⟨hs.reserve_function _, fun cell => ?_, fun _ => id, [], rfl, rfl⟩
    rw [knows_reserve_function, or_iff_left not_needed_nil]

/-- A closure that is built once all that it needs is known. -/
theorem obtain_closure {key : ClosureKey} {compute : SessionM Closure} {c : Closure}
    (hcompute : Gives table compute (.ok c) (Cell.inner table (.closure key)))
    (hbuilds : ∀ s, Settled table s → (∀ inner ∈ Cell.inner table (.closure key), s.Knows inner) →
      Builds table s key c) :
    Gives table (Memo.obtain closuresPlace key compute) (.ok c) [.closure key] := by
  suffices hruns : ∀ {s}, Settled table s →
      (Memo.obtain closuresPlace key compute s).1 = .ok c ∧
        Grown table [.closure key] (Memo.obtain closuresPlace key compute s).2 s from
    ⟨fun hs => (hruns hs).1, fun hs => (hruns hs).2⟩
  intro s hs
  rw [obtain_apply]
  cases hget : (closuresPlace.read s).get? key with
  | some c' =>
    have hknows : s.Knows (.closure key) := ⟨c', hget⟩
    -- A key stands for one closure only.
    refine ⟨congrArg Except.ok ?_, .of_knows hs fun cell hcell => ?_⟩
    · exact (hs.closures hget).unique (hbuilds s hs fun inner => hs.closed hknows)
    · rw [List.mem_singleton.1 hcell]
      exact hknows
  | none =>
    have hreserved := hs.reserve_closure key
    have hanswer := hcompute.answers hreserved
    have hgrown := hcompute.grows hreserved
    dsimp only
    rcases hrun : compute (closuresPlace.update (·.reserve key) s) with ⟨answer, s'⟩
    rw [hrun] at hanswer hgrown
    rw [show answer = .ok c from hanswer]
    refine ⟨rfl, ?_⟩
    change Grown table _ (closuresPlace.update (·.complete key c) s') s
    have hknows := knows_complete_closure s' key c
    have hinner : ∀ inner ∈ Cell.inner table (.closure key), s'.Knows inner :=
      fun inner => hgrown.knows_of_mem
    refine ⟨hgrown.settled.complete_closure (hbuilds s' hgrown.settled hinner) hinner,
      fun cell => ?_, fun k hk => ?_, hgrown.registers⟩
    · rw [hknows, hgrown.knows, knows_reserve_closure, needed_singleton, or_assoc]
    · -- The key's own cell is filled in the end, so only earlier cells can be empty.
      obtain ⟨hne, hpending⟩ := Memo.pending_complete_iff.1 hk
      exact (Memo.pending_reserve_iff.1 (hgrown.pending k hpending)).resolve_left fun h => hne h.1

end Gives

end Session

end HashEq

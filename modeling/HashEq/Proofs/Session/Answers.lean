import HashEq.Proofs.Session.Cells

/-!
# What requests ask for

Whether a request is refused depends on the type alone: closures are for types with
equality, functions for special types. A request that is not refused asks for one
cell, or for those of several types in turn, and the session fills what these need.

* `gives_generate`, `gives_hashClosure`, `gives_equalityClosure`, `gives_generateAll`:
  requests that are answered;
* `gives_generate_refused`: functions that are refused;
* `Request.cells`, `Request.definite`: all requests to sessions at once.
-/

namespace HashEq

/-- Whether this is a struct or an array. -/
def Kind.isAggregate : Kind → Bool
  | array _ _ | struct _ _ => true
  | _ => false

namespace TypeTable

variable {table : TypeTable} {ty : TypeId} {purpose : Purpose}

theorem Lawful.flags_isAggregate (h : Lawful table) {e : Entry} (hget : table.get ty = .ok e) :
    e.flags.isAggregate = e.kind.isAggregate := by
  rw [(h.laidOut hget).flags]
  cases e.kind <;> rfl

/-- Why a function is refused for a type that needs none. -/
def refusal (table : TypeTable) (purpose : Purpose) (ty : TypeId) : RequestError :=
  if (table.kind ty).isAggregate then .notCustom (table.shape ty).text purpose (table.algorithm ty)
  else .notAggregate (table.shape ty).text purpose

theorem refusal_ne_fault {f : Fault} : table.refusal purpose ty ≠ .fault f := by
  rw [refusal]
  split
  · exact nofun
  · exact nofun

theorem Lawful.requireCustom_eq_error (h : Lawful table) (hty : table.Has ty)
    (hbase : table.base ty ≠ .special) :
    Session.requireCustom table purpose ty = .error (table.refusal purpose ty) := by
  rw [Session.requireCustom, hty.get_eq, h.text_eq hty, refusal, kind_of_get hty.get_eq,
    ← h.flags_isAggregate hty.get_eq]
  change (if (!(table.entry ty).flags.isAggregate) = true then _ else _) = _
  cases (table.entry ty).flags.isAggregate with
  | false => rfl
  | true =>
    rw [if_neg (by decide), if_pos fun hcustom => hbase (algorithm_eq_custom_iff.1 hcustom)]
    rfl

end TypeTable

namespace Session

open TypeTable

variable {table : TypeTable} {ty : TypeId} {purpose : Purpose}

/-! ### Functions -/

/-- A function is generated after its callees. -/
theorem gives_generate {ty : TypeId} (h : Lawful table) (hty : table.Has ty)
    (hspecial : table.base ty = .special) (purpose : Purpose) :
    ∃ f, table.synthesize purpose ty = .ok f ∧
      Gives table (generate table purpose ty) (.ok f) [.function ty purpose] := by
  obtain ⟨f, hf⟩ := h.synthesize_isOk hty hspecial purpose
  have hcustom : requireCustom table purpose ty = .ok () :=
    h.requireCustom_eq_ok_iff.2 ⟨hty, hspecial⟩
  refine ⟨f, hf, ?_⟩
  rw [generate_eq]
  refine .obtain_function ?_ hcustom hf
  rw [prepare, hcustom, h.symbolOf_eq hty, hf]
  -- The callees belong to special types with smaller numbers.
  have hcallees : Gives table
      ((table.callees purpose ty).forM fun callee => discard (generate table purpose callee))
      (.ok ⟨⟩) (Cell.inner table (.function ty purpose)) := .forM fun callee hcallee => by
    have hlt := callees_lt hcallee
    obtain ⟨hhas, hspecial⟩ := h.of_mem_callees hty hcallee
    obtain ⟨_, _, hgives⟩ := gives_generate h hhas hspecial purpose
    exact hgives.map _
  exact hcallees.bind_pure rfl
termination_by ty.raw.toNat
decreasing_by exact UInt32.lt_iff_toNat_lt.1 hlt

theorem gives_generate_error {e : RequestError} (hcustom : requireCustom table purpose ty = .error e) :
    Gives table (generate table purpose ty) (.error e) [] := by
  rw [generate_eq]
  refine .obtain_refused (fun s => ?_) hcustom
  rw [prepare, hcustom]
  rfl

/-- Types that are not special have no functions of their own. -/
theorem gives_generate_refused (h : Lawful table) (hty : table.Has ty)
    (hbase : table.base ty ≠ .special) (purpose : Purpose) :
    Gives table (generate table purpose ty) (.error (table.refusal purpose ty)) [] :=
  gives_generate_error (h.requireCustom_eq_error hty hbase)

theorem gives_generate_fault {f : Fault} (hget : table.get ty = .error f) :
    Gives table (generate table purpose ty) (.error (.fault f)) [] := by
  refine gives_generate_error ?_
  rw [requireCustom, hget]
  rfl

/-! ### Closures -/

/-- The closure for a type with equality is built after what it needs. -/
theorem gives_obtain {ty : TypeId} (h : Built table) (hty : table.Has ty)
    (hne : table.base ty ≠ .noEquality) (purpose : Purpose) :
    ∃ c, Gives table
      (Memo.obtain closuresPlace (closureKey table purpose ty) (buildClosure table purpose ty))
      (.ok c) [.closure (closureKey table purpose ty)] := by
  cases hoperation : Operation.ofAlgorithm? (table.algorithm ty) with
  | some operation =>
    obtain ⟨c, hbuild, hbuilds⟩ := buildClosure_eq_pure h purpose hoperation
    rw [hbuild]
    -- A closure over a primitive needs nothing else.
    have hinner : Cell.inner table (.closure (closureKey table purpose ty)) = [] := by
      rw [closureKey, hoperation]
      cases operation <;> rfl
    refine ⟨c, .obtain_closure ?_ fun s _ _ => hbuilds s⟩
    rw [hinner]
    exact .const fun _ => rfl
  | none =>
    have hspecial := (ofAlgorithm?_eq_none_iff.1 hoperation).resolve_left hne
    obtain ⟨f, hf, hgenerate⟩ := gives_generate h.lawful hty hspecial purpose
    obtain ⟨c, hc⟩ := wrap_isOk h hty f
    rw [buildClosure, closureKey, hoperation]
    dsimp only
    refine ⟨c, .obtain_closure ?_ fun s hs hinner => ?_⟩
    · -- The closures for the parts belong to types with smaller numbers.
      have hparts : Gives table
          ((pregenerated table purpose ty).forM fun part => discard (hashClosure table part))
          (.ok ⟨⟩) ((pregenerated table purpose ty).map fun part =>
            .closure (closureKey table .hash part)) := .forM fun part hpart => by
        obtain ⟨hlt, hhas, hbase⟩ := of_mem_pregenerated h.lawful hty hne hpart
        obtain ⟨_, hgives⟩ := gives_obtain h hhas hbase .hash
        rw [hashClosure_eq_obtain hhas hbase]
        exact hgives.map _
      refine hparts.bind (hgenerate.bind_pure ?_)
      rw [hc]
      rfl
    · -- The function is known by now, and it is the one that was synthesized.
      obtain ⟨g, hg⟩ := hinner (.function ty purpose)
        (List.mem_append_right _ (List.mem_singleton_self _))
      have hgf : g = f := Except.ok.inj ((hs.generated hg).2.symm.trans hf)
      exact ⟨g, hg, hgf ▸ hc⟩
termination_by ty.raw.toNat
decreasing_by exact UInt32.lt_iff_toNat_lt.1 hlt

/-- The cells of the closures for a type: none without equality. -/
def closureCells (table : TypeTable) (purpose : Purpose) (ty : TypeId) : List Cell :=
  if table.Has ty ∧ table.base ty ≠ .noEquality then [.closure (closureKey table purpose ty)] else []

/-- The cell of the function for a type, if the type is special. -/
def functionCells (table : TypeTable) (purpose : Purpose) (ty : TypeId) : List Cell :=
  if table.Has ty ∧ table.base ty = .special then [.function ty purpose] else []

/-- The closures for a type are what its algorithm demands: both, or none without equality. -/
structure Serves (table : TypeTable) (closures : TypeClosures) : Prop where
  hash : closures.hash.isSome ↔ table.algorithm closures.ty ≠ .noEquality
  equality : closures.equality.isSome ↔ table.algorithm closures.ty ≠ .noEquality

section Requests

variable (h : Built table) (hty : table.Has ty)
include h hty

theorem gives_hashClosure (hne : table.base ty ≠ .noEquality) :
    ∃ c, Gives table (hashClosure table ty) (.ok c) [.closure (closureKey table .hash ty)] := by
  rw [hashClosure_eq_obtain hty hne]
  exact gives_obtain h hty hne .hash

theorem gives_equalityClosure (hne : table.base ty ≠ .noEquality) :
    ∃ c, Gives table (equalityClosure table ty) (.ok (some c))
      [.closure (closureKey table .equality ty)] := by
  rw [equalityClosure_eq_obtain hty hne]
  obtain ⟨c, hgives⟩ := gives_obtain h hty hne .equality
  exact ⟨c, hgives.map some⟩

theorem gives_closuresFor :
    ∃ closures, Gives table (closuresFor table ty) (.ok closures)
        (closureCells table .hash ty ++ closureCells table .equality ty) ∧
      closures.ty = ty ∧ Serves table closures := by
  rw [closuresFor, hty.get_eq, liftM_ok_bind]
  by_cases halgorithm : table.algorithm ty = .noEquality
  · have hbase := algorithm_eq_noEquality_iff.1 halgorithm
    rw [if_pos halgorithm, closureCells, closureCells, if_neg fun hne => hne.2 hbase,
      if_neg fun hne => hne.2 hbase]
    refine ⟨_, .const fun _ => rfl, rfl, ?_, ?_⟩
    · simp [halgorithm]
    · simp [halgorithm]
  · have hbase : table.base ty ≠ .noEquality :=
      fun hbase => halgorithm (algorithm_eq_noEquality_iff.2 hbase)
    rw [if_neg halgorithm, closureCells, closureCells, if_pos ⟨hty, hbase⟩, if_pos ⟨hty, hbase⟩]
    obtain ⟨c, hhash⟩ := gives_hashClosure h hty hbase
    obtain ⟨d, hequality⟩ := gives_equalityClosure h hty hbase
    refine ⟨_, hhash.bind (hequality.bind_pure rfl), rfl, ?_, ?_⟩
    · simp [halgorithm]
    · simp [halgorithm]

theorem gives_hashCallee :
    ∃ answer, Gives table (hashCallee table ty) answer (functionCells table .hash ty) ∧
      (table.base ty = .special → ∃ callee, answer = .ok callee) := by
  rw [hashCallee, hty.get_eq, liftM_ok_bind, functionCells]
  by_cases hspecial : table.base ty = .special
  · obtain ⟨f, _, hgenerate⟩ := gives_generate h.lawful hty hspecial .hash
    obtain ⟨callee, hcallee⟩ := h.lawful.hashCallee_isOk hty (by rw [hspecial]; decide)
      (by rw [hspecial]; decide)
    rw [if_pos (isSpecial_iff.2 hspecial), if_pos ⟨hty, hspecial⟩, hcallee]
    exact ⟨.ok callee, (hgenerate.map _).bind_pure rfl, fun _ => ⟨callee, rfl⟩⟩
  · rw [if_neg fun hbase => hspecial (isSpecial_iff.1 hbase), if_neg fun hboth => hspecial hboth.2]
    exact ⟨table.hashCallee ty, .const fun _ => rfl, fun hbase => absurd hbase hspecial⟩

theorem gives_equalityCallee :
    ∃ answer, Gives table (equalityCallee table ty) answer (functionCells table .equality ty) ∧
      (table.base ty = .special → ∃ callee, answer = .ok callee) := by
  rw [equalityCallee, hty.get_eq, liftM_ok_bind, functionCells, base_of_get hty.get_eq]
  cases hbase : (table.entry ty).base with
  | special =>
    have hspecial := hbase
    rw [← base_of_get hty.get_eq] at hspecial
    obtain ⟨f, _, hgenerate⟩ := gives_generate h.lawful hty hspecial .equality
    rw [if_pos ⟨hty, rfl⟩]
    exact ⟨_, hgenerate.bind_pure rfl, fun _ => ⟨_, rfl⟩⟩
  | memory =>
    rw [if_neg fun hspecial => nomatch hspecial.2]
    exact ⟨_, .const fun _ => rfl, nofun⟩
  | _ =>
    rw [if_neg fun hspecial => nomatch hspecial.2]
    dsimp only
    rw [h.lawful.text_eq hty]
    exact ⟨.error _, .const fun _ => rfl, nofun⟩

end Requests

/-- A batch is answered type by type. Only a number that names no type puts an end to it. -/
theorem gives_generateAll (h : Built table) (types : List TypeId) :
    ∃ answer, Gives table (generateAll table types) answer
        ((types.takeWhile (table.Has ·)).flatMap fun ty =>
          closureCells table .hash ty ++ closureCells table .equality ty) ∧
      ((∀ ty ∈ types, table.Has ty) → ∃ served : List TypeClosures,
        answer = .ok (served.map .ok) ∧ served.map (·.ty) = types ∧
          ∀ closures ∈ served, Serves table closures) ∧
      ∀ e, answer = .error e → ∃ f, e = .fault f := by
  rw [generateAll]
  induction types with
  | nil =>
    refine ⟨.ok [], .const fun _ => rfl, fun _ => ⟨[], rfl, rfl, fun _ hmem => ?_⟩, nofun⟩
    cases hmem
  | cons ty types ih =>
    rw [List.mapM_cons]
    by_cases hty : table.Has ty
    · obtain ⟨closures, hfirst, hbelongs, hserves⟩ := gives_closuresFor h hty
      obtain ⟨answer, hrest, hok, herror⟩ := ih
      rw [List.takeWhile_cons, if_pos (decide_eq_true hty), List.flatMap_cons]
      cases answer with
      | ok entries =>
        refine ⟨_, hfirst.attempt_ok.bind (hrest.bind_pure rfl), fun hall => ?_, nofun⟩
        obtain ⟨served, hentries, htypes, hall⟩ := hok fun b hb => hall b (List.mem_cons_of_mem _ hb)
        cases hentries
        refine ⟨closures :: served, rfl, ?_, ?_⟩
        · rw [List.map_cons, hbelongs, htypes]
        · exact List.forall_mem_cons.2 ⟨hserves, hall⟩
      | error e =>
        -- The batch breaks off behind this type, at a number that names none.
        refine ⟨_, hfirst.attempt_ok.bind hrest.bind_error, fun hall => ?_, herror⟩
        obtain ⟨_, heq, _⟩ := hok fun b hb => hall b (List.mem_cons_of_mem _ hb)
        cases heq
    · obtain ⟨f, hget⟩ := get_of_not_has hty
      -- A fault is not noted but ends the batch, before anything is computed.
      have hfault : Gives table (attempt (closuresFor table ty)) (.error (.fault f)) [] := by
        refine .const fun s => ?_
        rw [attempt_apply, closuresFor, hget]
        rfl
      rw [List.takeWhile_cons, if_neg fun hdecide => hty (of_decide_eq_true hdecide),
        List.flatMap_nil]
      refine ⟨_, hfault.bind_error, fun hall => absurd (hall ty List.mem_cons_self) hty, ?_⟩
      rintro _ ⟨⟩
      exact ⟨f, rfl⟩

/-! ### All requests at once -/

/-- What can be asked of a session. -/
inductive Request
  | hashClosure (ty : TypeId)
  | equalityClosure (ty : TypeId)
  | generate (purpose : Purpose) (ty : TypeId)
  | hashCallee (ty : TypeId)
  | equalityCallee (ty : TypeId)
  | generateAll (types : List TypeId)
  deriving DecidableEq, Repr

namespace Request

/-- The answers to a request. -/
def Answer : Request → Type
  | hashClosure _ => Closure
  | equalityClosure _ => Option Closure
  | generate _ _ => Function
  | hashCallee _ => Callee
  | equalityCallee _ => Callee × Bool
  | generateAll _ => List (Except RequestError TypeClosures)

/-- Answers a request. -/
def run (table : TypeTable) : (request : Request) → SessionM request.Answer
  | hashClosure ty => Session.hashClosure table ty
  | equalityClosure ty => Session.equalityClosure table ty
  | generate purpose ty => Session.generate table purpose ty
  | hashCallee ty => Session.hashCallee table ty
  | equalityCallee ty => Session.equalityCallee table ty
  | generateAll types => Session.generateAll table types

/-- The cells that a request asks for; none if it is refused. -/
def cells (table : TypeTable) : Request → List Cell
  | hashClosure ty => closureCells table .hash ty
  | equalityClosure ty => closureCells table .equality ty
  | generate purpose ty => functionCells table purpose ty
  | hashCallee ty => functionCells table .hash ty
  | equalityCallee ty => functionCells table .equality ty
  | generateAll types => (types.takeWhile (table.Has ·)).flatMap fun ty =>
      closureCells table .hash ty ++ closureCells table .equality ty

/-- Whether a request is refused does not depend on what was requested before; if it is, it asks
    for nothing. Only a fault may stop a batch halfway. -/
def Definite {α : Type} (table : TypeTable) (request : SessionM α) (asked : List Cell) : Prop :=
  ∃ answer, Gives table request answer asked ∧
    ∀ e, answer = .error e → (∃ f, e = .fault f) ∨ asked = []

section Definite

variable {α : Type} {request : SessionM α} {asked : List Cell}

theorem Definite.answered {a : α} (h : Gives table request (.ok a) asked) :
    Definite table request asked :=
  ⟨.ok a, h, nofun⟩

theorem Definite.refused {e : RequestError} (h : Gives table request (.error e) [])
    (hasked : asked = []) : Definite table request asked := by
  subst hasked
  exact ⟨.error e, h, fun _ _ => .inr rfl⟩

theorem Definite.thrown {e : RequestError} (h : request = throw e) (hasked : asked = []) :
    Definite table request asked := by
  subst h
  exact .refused (.const fun _ => rfl) hasked

end Definite

/-- The session gives one and the same answer to a request whenever it is made. -/
theorem definite (h : Built table) (request : Request) :
    Definite table (request.run table) (request.cells table) := by
  cases request with
  | hashClosure ty =>
    by_cases hty : table.Has ty
    · by_cases hbase : table.base ty = .noEquality
      · exact .thrown (hashClosure_noEquality h.lawful hty hbase) (if_neg fun hboth => hboth.2 hbase)
      · obtain ⟨c, hgives⟩ := gives_hashClosure h hty hbase
        rw [cells, closureCells, if_pos ⟨hty, hbase⟩]
        exact .answered hgives
    · obtain ⟨f, hget⟩ := get_of_not_has hty
      exact .thrown (hashClosure_fault hget) (if_neg fun hboth => hty hboth.1)
  | equalityClosure ty =>
    by_cases hty : table.Has ty
    · by_cases hbase : table.base ty = .noEquality
      · rw [run, equalityClosure_noEquality hty hbase, cells, closureCells,
          if_neg fun hboth => hboth.2 hbase]
        exact .answered (.const fun _ => rfl)
      · obtain ⟨c, hgives⟩ := gives_equalityClosure h hty hbase
        rw [cells, closureCells, if_pos ⟨hty, hbase⟩]
        exact .answered hgives
    · obtain ⟨f, hget⟩ := get_of_not_has hty
      exact .thrown (equalityClosure_fault hget) (if_neg fun hboth => hty hboth.1)
  | generate purpose ty =>
    by_cases hty : table.Has ty
    · by_cases hspecial : table.base ty = .special
      · obtain ⟨f, _, hgives⟩ := gives_generate h.lawful hty hspecial purpose
        rw [cells, functionCells, if_pos ⟨hty, hspecial⟩]
        exact .answered hgives
      · exact .refused (gives_generate_refused h.lawful hty hspecial purpose)
          (if_neg fun hboth => hspecial hboth.2)
    · obtain ⟨f, hget⟩ := get_of_not_has hty
      exact .refused (gives_generate_fault hget) (if_neg fun hboth => hty hboth.1)
  | hashCallee ty =>
    by_cases hty : table.Has ty
    · obtain ⟨answer, hgives, hanswer⟩ := gives_hashCallee h hty
      -- A type with cells is answered, so what is refused has none.
      refine ⟨answer, hgives, fun e he => .inr (if_neg fun hboth => ?_)⟩
      obtain ⟨_, hok⟩ := hanswer hboth.2
      cases he.symm.trans hok
    · obtain ⟨f, hget⟩ := get_of_not_has hty
      refine .thrown (e := .fault f) ?_ (if_neg fun hboth => hty hboth.1)
      rw [run, Session.hashCallee, hget]
      rfl
  | equalityCallee ty =>
    by_cases hty : table.Has ty
    · obtain ⟨answer, hgives, hanswer⟩ := gives_equalityCallee h hty
      refine ⟨answer, hgives, fun e he => .inr (if_neg fun hboth => ?_)⟩
      obtain ⟨_, hok⟩ := hanswer hboth.2
      cases he.symm.trans hok
    · obtain ⟨f, hget⟩ := get_of_not_has hty
      refine .thrown (e := .fault f) ?_ (if_neg fun hboth => hty hboth.1)
      rw [run, Session.equalityCallee, hget]
      rfl
  | generateAll types =>
    obtain ⟨answer, hgives, _, hfault⟩ := gives_generateAll h types
    exact ⟨answer, hgives, fun e he => .inl (hfault e he)⟩

end Request

end Session

end HashEq

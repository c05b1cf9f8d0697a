import HashEq.Proofs.Session.Answers
import HashEq.Proofs.Session.Footprints

/-!
# How cells nest

While a cell is being filled, other cells may be asked for and filled, and yet others
while these are. A cell that was asked for again before it is full would never be
filled. This cannot happen: what is done to fill a cell keeps to the cells that it
*encloses*, most of which belong to types with smaller numbers.

* `Cell.Encloses`: the cells that may be filled while one is being filled;
* `Confined.nested`: a cell that is filled on the way to another one;
* `Triggers`: the cells that matter to the filling of a cell;
* `cells_nest`: these are enclosed, and all requests end.
-/

namespace HashEq

namespace TypeTable

variable {table : TypeTable} {ty : TypeId}

theorem Lawful.hashCallee_ne_fault (h : Lawful table) (hty : table.Has ty) {f : Fault} :
    table.hashCallee ty ≠ .error (.fault f) := by
  by_cases hmemory : table.base ty = .memory
  · rw [hashCallee, hmemory]
    dsimp only
    rw [h.text_eq hty]
    exact nofun
  by_cases hne : table.base ty = .noEquality
  · rw [hashCallee, hne]
    dsimp only
    rw [h.text_eq hty]
    exact nofun
  obtain ⟨callee, hcallee⟩ := h.hashCallee_isOk hty hmemory hne
  rw [hcallee]
  exact nofun

/-- The cost of a type whose parts nest less than `depth` deep. -/
def typeCostWithin (table : TypeTable) : Nat → TypeId → Option Nat
  | 0, _ => none
  | depth + 1, ty =>
    match table.get ty with
    | .error _ => some 1
    | .ok e =>
      match e.kind with
      | .struct _ _ =>
        e.fields.foldr (fun field rest =>
          (if field.isBlank then some 0 else typeCostWithin table depth field.ty).bind fun cost =>
            rest.map (cost + ·)) (some 0)
      | .array elem len => (typeCostWithin table depth elem).map (len.toNat * ·)
      | .string | .any | .interface _ | .complex64 | .complex128 => some 2
      | .int64 | .uint64 => some (8 / table.target.registerSize.toNat)
      | _ => some 1

/-- If the costs of the types of fields can be told, so can their sum. -/
theorem foldr_typeCostWithin {depth : Nat} {fields : List Field}
    (h : ∀ field ∈ fields, table.typeCostWithin depth field.ty = some (table.typeCost field.ty)) :
    fields.foldr (fun field rest =>
        (if field.isBlank then some 0 else table.typeCostWithin depth field.ty).bind fun cost =>
          rest.map (cost + ·)) (some 0) =
      some (fields.foldr (fun field rest =>
        (if field.isBlank then 0 else table.typeCost field.ty) + rest) 0) := by
  induction fields with
  | nil => rfl
  | cons field fields ih =>
    rw [List.foldr_cons, ih fun other hother => h other (List.mem_cons_of_mem _ hother),
      List.foldr_cons, h field List.mem_cons_self]
    cases field.isBlank <;> rfl

/-- Types nest no deeper than their numbers are large, so the cost of each can be told. -/
theorem typeCostWithin_eq {depth : Nat} {ty : TypeId} (h : ty.raw.toNat < depth) :
    table.typeCostWithin depth ty = some (table.typeCost ty) := by
  induction depth generalizing ty with
  | zero => exact absurd h (Nat.not_lt_zero _)
  | succ depth ih =>
    rw [typeCostWithin, typeCost]
    cases hget : table.get ty with
    | error f => rfl
    | ok e =>
      have hpart : ∀ part ∈ e.parts,
          table.typeCostWithin depth part = some (table.typeCost part) := fun part hpart =>
        have hlt := UInt32.lt_iff_toNat_lt.1 (part_lt hget hpart)
        ih (Nat.lt_of_lt_of_le hlt (Nat.le_of_lt_succ h))
      obtain ⟨⟨fields, size, align⟩, kind, _, _, _⟩ := e
      cases kind with
      | struct name members =>
        refine (foldr_typeCostWithin fun field hfield =>
          hpart field.ty (Entry.field_mem_parts hfield)).trans (congrArg some ?_)
        exact List.foldr_attach.symm
      | array elem len =>
        exact congrArg (Option.map (len.toNat * ·)) (hpart elem (Entry.elem_mem_parts rfl))
      | _ => rfl

/-- A comparison covers at least the field that it starts with. -/
theorem lt_fieldCost_next (ty : TypeId) (i : Nat) : i < (table.fieldCost ty i).next := by
  rw [fieldCost]
  split
  · exact table.lt_memoryRun_next ty i
  · split
    · exact Nat.lt_succ_self i
    · exact Nat.lt_succ_self i

end TypeTable

namespace Session

open TypeTable

variable {table : TypeTable} {cell : Cell}

/-! ### Cells in cells -/

/-- The cells that may be filled while one is being filled. Those that enclose none are the closures
    over primitives. -/
inductive Cell.Encloses : Cell → Cell → Prop
  /-- On the way to a function, functions for types with smaller numbers. -/
  | callee {ty inner : TypeId} {purpose : Purpose} : inner.raw < ty.raw →
      Encloses (.function ty purpose) (.function inner purpose)
  /-- On the way to the closure over a function, the function itself. -/
  | own {ty : TypeId} {purpose : Purpose} :
      Encloses (.closure (.generated ty purpose)) (.function ty purpose)
  | function {ty inner : TypeId} {purpose : Purpose} : inner.raw < ty.raw →
      Encloses (.closure (.generated ty purpose)) (.function inner purpose)
  /-- On the way to a hash closure, those for types with smaller numbers. -/
  | part {ty inner : TypeId} : inner.raw < ty.raw →
      Encloses (.closure (.generated ty .hash)) (.closure (.generated inner .hash))
  | primitive {ty : TypeId} {primitive : Primitive} :
      Encloses (.closure (.generated ty .hash)) (.closure (.primitive primitive))
  | varMemory {ty : TypeId} {size : Word} :
      Encloses (.closure (.generated ty .hash)) (.closure (.varMemory .hash size))

/-- A bound on how deep cells nest in a cell. -/
def Cell.depth : Cell → Nat
  | function ty _ => 2 * ty.raw.toNat
  | closure (.generated ty _) => 2 * ty.raw.toNat + 1
  | closure (.primitive _) | closure (.varMemory _ _) => 0

namespace Cell.Encloses

variable {outer mid inner : Cell}

theorem depth_lt (h : outer.Encloses inner) : inner.depth < outer.depth := by
  cases h with
  | callee hlt | function hlt | part hlt =>
    have := UInt32.lt_iff_toNat_lt.1 hlt
    simp only [depth]
    omega
  | own => exact Nat.lt_succ_self _
  | primitive | varMemory => exact Nat.succ_pos _

theorem trans (h : outer.Encloses mid) (h' : mid.Encloses inner) : outer.Encloses inner := by
  cases h with
  | callee hlt =>
    cases h' with
    | callee hlt' => exact .callee (UInt32.lt_trans hlt' hlt)
  | own =>
    cases h' with
    | callee hlt => exact .function hlt
  | function hlt =>
    cases h' with
    | callee hlt' => exact .function (UInt32.lt_trans hlt' hlt)
  | part hlt =>
    cases h' with
    | own => exact .function hlt
    | function hlt' => exact .function (UInt32.lt_trans hlt' hlt)
    | part hlt' => exact .part (UInt32.lt_trans hlt' hlt)
    | primitive => exact .primitive
    | varMemory => exact .varMemory
  | primitive => cases h'
  | varMemory => cases h'

end Cell.Encloses

/-- A cell that is filled on the way to another one. -/
theorem Confined.nested {κ ν : Type} [BEq κ] [Hashable κ] {place : Memo.Place Session κ ν} {key : κ}
    {compute : SessionM ν} {outer : Cell} (h : Confined cell.Encloses compute)
    (hat : cell.At place key) (hcell : outer.Encloses cell) :
    Confined outer.Encloses (Memo.obtain place key compute) :=
  .obtain hat hcell (h.mono fun _ => hcell.trans)

/-- The cells that are filled on the way to a cell belong to types with smaller numbers, to the same
    type, or to none. -/
theorem Cell.encloses_of_mem_inner {outer inner : Cell} (hinner : inner ∈ outer.inner table) :
    outer.Encloses inner := by
  rcases outer with ⟨ty, purpose⟩ | ⟨⟨⟩ | ⟨⟩ | ⟨ty, purpose⟩⟩
  · obtain ⟨callee, hcallee, rfl⟩ := List.mem_map.1 hinner
    exact .callee (callees_lt hcallee)
  · cases hinner
  · cases hinner
  · rcases List.mem_append.1 hinner with hinner | hinner
    · obtain ⟨part, hpart, rfl⟩ := List.mem_map.1 hinner
      cases purpose with
      | equality => cases hpart
      | hash =>
        rw [closureKey]
        split
        · exact .part (part_lt_of_mem hpart)
        · exact .varMemory
        · exact .primitive
    · cases List.mem_singleton.1 hinner
      exact .own

/-! ### What is done to fill a cell -/

/-- What is done on the first request for a function. -/
def buildFunction (table : TypeTable) (purpose : Purpose) (ty : TypeId) : SessionM Function := do
  let f ← prepare table purpose ty
  modify (register f)
  return f

/-- A function is built after functions for types with smaller numbers. -/
theorem confined_buildFunction {ty : TypeId} (h : Lawful table) (hty : table.Has ty)
    (purpose : Purpose) :
    Confined (Cell.Encloses (.function ty purpose)) (buildFunction table purpose ty) := by
  have hprepare : Confined (Cell.Encloses (.function ty purpose)) (prepare table purpose ty) := by
    by_cases hspecial : table.base ty = .special
    · obtain ⟨f, hf⟩ := h.synthesize_isOk hty hspecial purpose
      rw [prepare, h.requireCustom_eq_ok_iff.2 ⟨hty, hspecial⟩, h.symbolOf_eq hty, hf]
      have hcallees : Confined (Cell.Encloses (.function ty purpose))
          ((table.callees purpose ty).forM fun callee => discard (generate table purpose callee)) :=
        .forM fun callee hcallee => by
          have hlt := callees_lt hcallee
          rw [generate_eq]
          have hcallee' := (h.of_mem_callees hty hcallee).1
          exact ((confined_buildFunction h hcallee' purpose).nested (.function callee purpose)
            (Cell.encloses_of_mem_inner (List.mem_map_of_mem hcallee))).map _
      exact hcallees.bind fun _ => .pure f
    · rw [prepare, h.requireCustom_eq_error hty hspecial]
      exact .const (fun _ => rfl) fun f heq => refusal_ne_fault (Except.error.inj heq)
  exact hprepare.bind fun f => (Confined.register f).bind fun _ => .pure f
termination_by ty.raw.toNat
decreasing_by exact UInt32.lt_iff_toNat_lt.1 hlt

theorem Confined.generate {outer : Cell} {ty : TypeId} {purpose : Purpose} (h : Lawful table)
    (hty : table.Has ty) (hcell : outer.Encloses (.function ty purpose)) :
    Confined outer.Encloses (generate table purpose ty) := by
  rw [generate_eq]
  exact (confined_buildFunction h hty purpose).nested (.function ty purpose) hcell

/-- The closure for a type is built after its function and closures for types with smaller numbers,
    or without further requests. -/
theorem confined_buildClosure {ty : TypeId} (h : Built table) (hty : table.Has ty)
    (hne : table.base ty ≠ .noEquality) (purpose : Purpose) :
    Confined (Cell.Encloses (.closure (closureKey table purpose ty)))
      (buildClosure table purpose ty) := by
  cases hoperation : Operation.ofAlgorithm? (table.algorithm ty) with
  | some operation =>
    obtain ⟨c, hbuild, _⟩ := buildClosure_eq_pure h purpose hoperation
    rw [hbuild]
    exact .pure c
  | none =>
    rw [buildClosure, closureKey, hoperation]
    dsimp only
    refine .bind (.forM fun part hpart => ?_) fun _ =>
      .bind (.generate h.lawful hty .own) fun f => ?_
    · obtain ⟨hlt, hhas, hbase⟩ := of_mem_pregenerated h.lawful hty hne hpart
      rw [hashClosure_eq_obtain hhas hbase]
      refine ((confined_buildClosure h hhas hbase .hash).nested (.closure _) ?_).map _
      exact Cell.encloses_of_mem_inner (List.mem_append_left _ (List.mem_map_of_mem hpart))
    · obtain ⟨c, hc⟩ := wrap_isOk h hty f
      rw [hc]
      exact .pure c
termination_by ty.raw.toNat
decreasing_by exact UInt32.lt_iff_toNat_lt.1 hlt

/-- In the course of filling the outer cell, the inner one is turned to. -/
inductive Triggers (table : TypeTable) : Cell → Cell → Prop
  | function {ty : TypeId} {purpose : Purpose} {inner : Cell} : table.Has ty →
      TurnsTo (buildFunction table purpose ty) inner →
      Triggers table (.function ty purpose) inner
  | closure {ty : TypeId} {purpose : Purpose} {inner : Cell} : table.Has ty →
      table.base ty ≠ .noEquality → TurnsTo (buildClosure table purpose ty) inner →
      Triggers table (.closure (closureKey table purpose ty)) inner

theorem Triggers.encloses (h : Built table) {outer inner : Cell}
    (htriggers : Triggers table outer inner) : outer.Encloses inner := by
  cases htriggers with
  | function hty hturns =>
    exact (confined_buildFunction h.lawful hty _).keepsTo.of_turnsTo hturns
  | closure hty hne hturns =>
    exact (confined_buildClosure h hty hne _).keepsTo.of_turnsTo hturns

theorem wellFounded_triggers (h : Built table) :
    WellFounded fun inner outer => Triggers table outer inner :=
  Subrelation.wf (fun htriggers => (htriggers.encloses h).depth_lt) (measure Cell.depth).wf

/-- What a special type needs first is turned to in the course of filling its cells. -/
theorem triggers_of_mem_inner {ty : TypeId} (h : Built table) (hty : table.Has ty)
    (hspecial : table.base ty = .special) (purpose : Purpose) :
    (∀ inner ∈ Cell.inner table (.function ty purpose),
      Triggers table (.function ty purpose) inner) ∧
    ∀ inner ∈ Cell.inner table (.closure (.generated ty purpose)),
      Triggers table (.closure (.generated ty purpose)) inner := by
  have hne : ∀ {outer inner : Cell}, inner ∈ outer.inner table → outer ≠ inner :=
    fun {outer _} hinner heq =>
      Nat.lt_irrefl outer.depth (heq ▸ (Cell.encloses_of_mem_inner hinner).depth_lt)
  have hneeded : ∀ {outer inner : Cell}, inner ∈ outer.inner table → Needed table [outer] inner :=
    fun hinner => needed_singleton.2 (.inl (needed_of_mem hinner))
  constructor
  · intro inner hinner
    obtain ⟨_, _, hgives⟩ := gives_generate h.lawful hty hspecial purpose
    have hknows := ((hgives.grows (settled_empty table)).knows inner).2 (.inr (hneeded hinner))
    rw [generate_eq] at hknows
    exact .function hty (turnsTo_of_knows (.function ty purpose) (hne hinner) hknows)
  · intro inner hinner
    have hbase : table.base ty ≠ .noEquality := by rw [hspecial]; decide
    have hkey : closureKey table purpose ty = .generated ty purpose := by
      rw [closureKey, ofAlgorithm?_eq_none_iff.2 (.inr hspecial)]
    obtain ⟨_, hgives⟩ := gives_obtain h hty hbase purpose
    have hknows := ((hgives.grows (settled_empty table)).knows inner).2
      (.inr (hneeded (hkey ▸ hinner)))
    rw [hkey] at hknows
    rw [← hkey]
    exact .closure hty hbase (turnsTo_of_knows (.closure _) (hne hinner) hknows)

/-! ### Requests end -/

/-- The type that a request is for; a batch is for several. -/
def Request.type? : Request → Option TypeId
  | hashClosure ty | equalityClosure ty | generate _ ty => some ty
  | hashCallee ty | equalityCallee ty => some ty
  | generateAll _ => none

/-- A request for a type of the table ends, whatever the session holds. -/
theorem confined_run {ty : TypeId} (h : Built table) (hty : table.Has ty) {request : Request}
    (hrequest : request.type? = some ty) : Confined (fun _ => True) (request.run table) := by
  have hgenerate : ∀ purpose, Confined (fun _ => True) (generate table purpose ty) := by
    intro purpose
    rw [generate_eq]
    exact .obtain (.function ty purpose) trivial
      ((confined_buildFunction h.lawful hty purpose).mono fun _ _ => trivial)
  have hclosure : table.base ty ≠ .noEquality → ∀ purpose, Confined (fun _ => True)
      (Memo.obtain closuresPlace (closureKey table purpose ty) (buildClosure table purpose ty)) :=
    fun hne purpose => .obtain (.closure _) trivial
      ((confined_buildClosure h hty hne purpose).mono fun _ _ => trivial)
  cases request with
  | hashClosure ty =>
    cases hrequest
    by_cases hne : table.base ty = .noEquality
    · rw [Request.run, hashClosure_noEquality h.lawful hty hne]
      exact .const (fun _ => rfl) fun f heq => by cases heq
    · rw [Request.run, hashClosure_eq_obtain hty hne]
      exact hclosure hne .hash
  | equalityClosure ty =>
    cases hrequest
    by_cases hne : table.base ty = .noEquality
    · rw [Request.run, equalityClosure_noEquality hty hne]
      exact .pure none
    · rw [Request.run, equalityClosure_eq_obtain hty hne]
      exact (hclosure hne .equality).map some
  | generate purpose ty =>
    cases hrequest
    exact hgenerate purpose
  | hashCallee ty =>
    cases hrequest
    rw [Request.run, hashCallee, hty.get_eq, liftM_ok_bind]
    have hcallee : Confined (fun _ => True) (liftM (table.hashCallee ty) : SessionM Callee) :=
      .const (fun _ => rfl) fun _ => h.lawful.hashCallee_ne_fault hty
    split
    · -- A special type has its function generated first.
      exact ((hgenerate .hash).map _).bind fun _ => hcallee
    · exact hcallee
  | equalityCallee ty =>
    cases hrequest
    rw [Request.run, equalityCallee, hty.get_eq, liftM_ok_bind]
    split
    · exact .pure _
    · exact (hgenerate .equality).bind fun f => .pure _
    · rw [h.lawful.text_eq hty]
      exact .const (fun _ => rfl) fun f heq => by cases heq
  | generateAll types => cases hrequest

/-- A function is built where `generate` asks for it, and a closure where the closures for its type
    are asked for. The cells that matter to this are enclosed by the one that is being filled, and
    those that it needs matter to it; no cell matters to its own filling, and there is an end to the
    nesting. So whatever is asked of the types of the table ends. -/
theorem cells_nest (h : Built table) :
    (∀ (purpose : Purpose) (ty : TypeId), generate table purpose ty =
      Memo.obtain functionsPlace (ty, purpose) (buildFunction table purpose ty)) ∧
    (∀ ty, table.Has ty → table.base ty ≠ .noEquality →
      hashClosure table ty =
        Memo.obtain closuresPlace (closureKey table .hash ty) (buildClosure table .hash ty) ∧
      equalityClosure table ty = some <$>
        Memo.obtain closuresPlace (closureKey table .equality ty)
          (buildClosure table .equality ty)) ∧
    (∀ outer inner, Triggers table outer inner → outer.Encloses inner) ∧
    (∀ ty, table.Has ty → table.base ty = .special → ∀ purpose,
      (∀ inner ∈ Cell.inner table (.function ty purpose),
        Triggers table (.function ty purpose) inner) ∧
      ∀ inner ∈ Cell.inner table (.closure (.generated ty purpose)),
        Triggers table (.closure (.generated ty purpose)) inner) ∧
    (∀ cell, ¬Triggers table cell cell) ∧
    (WellFounded fun inner outer => Triggers table outer inner) ∧
    ∀ ty, table.Has ty →
      (∀ request : Request, request.type? = some ty →
        ∀ s f, (request.run table s).1 ≠ .error (.fault f)) ∧
      (∃ text, table.text ty = .ok text) ∧
      table.typeCostWithin (ty.raw.toNat + 1) ty = some (table.typeCost ty) ∧
      ∀ i, i < (table.fieldCost ty i).next := by
  refine ⟨generate_eq table,
    fun ty hty hne => ⟨hashClosure_eq_obtain hty hne, equalityClosure_eq_obtain hty hne⟩,
    fun _ _ htriggers => htriggers.encloses h,
    fun ty hty hspecial purpose => triggers_of_mem_inner h hty hspecial purpose,
    fun cell htriggers => Nat.lt_irrefl _ (htriggers.encloses h).depth_lt,
    wellFounded_triggers h, fun ty hty => ⟨fun request hrequest => ?_, ?_, ?_, fun i => ?_⟩⟩
  · exact (confined_run h hty hrequest).ends
  · exact ⟨_, h.lawful.text_eq hty⟩
  · exact typeCostWithin_eq (Nat.lt_succ_self _)
  · exact lt_fieldCost_next ty i

/-- The hash closure for a struct of two pairs is filled after its function, and not the other way
    round. -/
theorem cells_nest_pairs :
    Triggers pairTable (.closure (.generated ⟨33⟩ .hash)) (.function ⟨33⟩ .hash) ∧
    ¬Triggers pairTable (.function ⟨33⟩ .hash) (.closure (.generated ⟨33⟩ .hash)) ∧
    (∀ s f, (hashClosure pairTable ⟨33⟩ s).1 ≠ .error (.fault f)) ∧
    pairTable.typeCostWithin 34 ⟨33⟩ = some (pairTable.typeCost ⟨33⟩) := by
  obtain ⟨_, _, hencloses, htriggers, _, _, hends⟩ := cells_nest built_pairTable
  have hty : pairTable.Has ⟨33⟩ ∧ pairTable.base ⟨33⟩ = .special := by decide +kernel
  obtain ⟨hrequests, _, hcost, _⟩ := hends ⟨33⟩ hty.1
  refine ⟨(htriggers ⟨33⟩ hty.1 hty.2 .hash).2 _ ?_, fun hback => ?_,
    hrequests (.hashClosure ⟨33⟩) rfl, hcost⟩
  · exact List.mem_append_right _ (List.mem_singleton_self _)
  · cases hencloses _ _ hback

end Session

end HashEq

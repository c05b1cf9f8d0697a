import HashEq.Proofs.Session.Sound
import HashEq.Proofs.Synthesis.Total

/-!
# What requests answer

A request for a function or a closure is answered if the type calls for it, and the
session then knows what it has answered. A type has closures if it has equality, and
functions of its own if it is special.

* `runs_generate`: functions;
* `runs_hashClosure`, `runs_equalityClosure`: closures.
-/

namespace HashEq

namespace Session

open TypeTable

variable {table : TypeTable} {s s' : Session} {ty : TypeId} {purpose : Purpose}

/-- A request is answered as `ok` states, or `fails` holds. -/
def Post {ε α : Type} (ok : α → Session → Prop) (fails : Prop) : Except ε α → Session → Prop
  | .ok a, s => ok a s
  | .error _, _ => fails

namespace Runs

variable {ε α β ν : Type} {request : ExceptT ε (StateM Session) α}
  {next : α → ExceptT ε (StateM Session) β} {ok : α → Session → Prop} {final : β → Session → Prop}
  {fails : Prop}

/-- A request that is answered is followed by another one. -/
theorem andThen (h : Runs table s request (Post ok fails))
    (hnext : ∀ a s', Sound table s' → Extends s' s → ok a s' →
      Runs table s' (next a) (Post final fails)) :
    Runs table s (request >>= next) (Post final fails) :=
  h.bind hnext fun _ _ _ _ => id

/-- What needs no session is answered or fails. -/
theorem andThen_lift (h : Sound table s) (x : Except ε α) (herror : ∀ e, x = .error e → fails)
    (hnext : ∀ a, x = .ok a → Runs table s (next a) (Post final fails)) :
    Runs table s (liftM x >>= next) (Post final fails) := by
  cases x with
  | error e => exact ⟨h, .refl s, herror e rfl⟩
  | ok a => exact hnext a rfl

/-- What needs no session and can only end with a fault is answered or fails. -/
theorem andThen_fault {next : α → SessionM β} (h : Sound table s) (x : Except Fault α)
    (herror : ∀ f, x = .error f → fails)
    (hnext : ∀ a, x = .ok a → Runs table s (next a) (Post final fails)) :
    Runs table s (liftM x >>= next) (Post final fails) := by
  cases x with
  | error f => exact ⟨h, .refl s, herror f rfl⟩
  | ok a => exact hnext a rfl

theorem map (g : α → β) (h : Runs table s request (Post ok fails))
    (hfinal : ∀ a s', ok a s' → final (g a) s') :
    Runs table s (g <$> request) (Post final fails) := by
  rw [map_eq_pure_bind]
  exact h.andThen fun a s' hs' _ hok => .pure hs' (hfinal a s' hok)

/-- Requests made in turn are all answered, or one fails. -/
theorem forM {f : α → ExceptT ε (StateM Session) PUnit} {known : α → Session → Prop} {l : List α}
    (h : Sound table s) (hknown : ∀ {a s s'}, known a s → Extends s' s → known a s')
    (hf : ∀ a ∈ l, ∀ s', Sound table s' → Runs table s' (f a) (Post (fun _ s' => known a s') fails)) :
    Runs table s (l.forM f) (Post (fun _ s' => ∀ a ∈ l, known a s') fails) := by
  induction l generalizing s with
  | nil => exact .pure h fun a ha => absurd ha List.not_mem_nil
  | cons a l ih =>
    change Runs table s (f a >>= fun _ => l.forM f) _
    refine (hf a List.mem_cons_self s h).andThen fun _ s' hs' _ ha => ?_
    refine (ih hs' fun b hb => hf b (List.mem_cons_of_mem a hb)).mono fun answer s'' _ hgrows hl => ?_
    cases answer with
    | error e => exact hl
    | ok _ =>
      intro b hb
      rcases List.mem_cons.1 hb with rfl | hb
      · exact hknown ha hgrows
      · exact hl b hb

end Runs

/-- The value of a key, which is computed unless it is known. -/
theorem obtain_apply {ε κ ν : Type} [BEq κ] [Hashable κ] (place : Memo.Place Session κ ν) (key : κ)
    (compute : ExceptT ε (StateM Session) ν) (s : Session) :
    Memo.obtain place key compute s =
      match (place.read s).get? key with
      | some value => (.ok value, s)
      | none =>
        match compute (place.update (·.reserve key) s) with
        | (.ok value, s') => (.ok value, place.update (·.complete key value) s')
        | (.error e, s') => (.error e, s') := by
  have hread : (get : ExceptT ε (StateM Session) Session) s = (.ok s, s) := rfl
  rw [Memo.obtain, bind_apply, hread]
  dsimp only
  cases (place.read s).get? key with
  | some value => rfl
  | none =>
    have hreserve : (modify (place.update (·.reserve key)) : ExceptT ε (StateM Session) PUnit) s =
        (.ok ⟨⟩, place.update (·.reserve key) s) := rfl
    dsimp only
    rw [bind_apply, hreserve]
    dsimp only
    rw [bind_apply]
    rcases compute (place.update (·.reserve key) s) with ⟨_ | _, s'⟩ <;> rfl

/-- A closure that is computed as its key demands is known from then on. -/
theorem Runs.obtain_closure {key : ClosureKey} {compute : SessionM Closure} {fails : Prop}
    (h : Sound table s)
    (hcompute : ∀ s', Sound table s' →
      Runs table s' compute (Post (fun c s' => Builds table s' key c) fails)) :
    Runs table s (Memo.obtain closuresPlace key compute)
      (Post (fun c s' => Builds table s' key c) fails) := by
  have happly := obtain_apply closuresPlace key compute s
  obtain ⟨hreserved, hextends⟩ := h.reserve_closure key
  obtain ⟨hsound, hgrows, hpost⟩ := hcompute _ hreserved
  cases hget : s.closures.get? key with
  | some c =>
    -- The cell is filled: the session stays as it is.
    have hknown : Memo.obtain closuresPlace key compute s = (.ok c, s) := by
      rw [happly, show (closuresPlace.read s).get? key = some c from hget]
    refine ⟨?_, ?_, ?_⟩ <;> rw [hknown]
    · exact h
    · exact .refl s
    · exact h.closures hget
  | none =>
    rw [show (closuresPlace.read s).get? key = none from hget] at happly
    generalize closuresPlace.update (·.reserve key) s = reserved at *
    -- The cell is reserved while the closure is computed; a failure leaves it empty.
    rcases hrun : compute reserved with ⟨e | c, s'⟩
    · rw [hrun] at hsound hgrows hpost happly
      refine ⟨?_, ?_, ?_⟩ <;> rw [happly]
      · exact hsound
      · exact hgrows.trans hextends
      · exact hpost
    · rw [hrun] at hsound hgrows hpost happly
      obtain ⟨hcompleted, hextends'⟩ := hsound.complete_closure hpost
      refine ⟨?_, ?_, ?_⟩ <;> rw [happly]
      · exact hcompleted
      · exact hextends'.trans (hgrows.trans hextends)
      · exact hpost.extend hextends'

/-- Only a fault stops more than the request itself. -/
theorem attempt_apply {α : Type} (request : SessionM α) (s : Session) :
    attempt request s = match request s with
      | (.ok a, s') => (.ok (.ok a), s')
      | (.error (.fault f), s') => (.error (.fault f), s')
      | (.error e, s') => (.ok (.error e), s') := by
  rw [attempt, tryCatch_apply, map_eq_pure_bind, bind_apply]
  rcases request s with ⟨e | a, s'⟩
  · cases e <;> rfl
  · rfl

/-- What is found without the session is passed on. -/
theorem liftM_ok_bind {α β : Type} (a : α) (next : α → SessionM β) :
    (liftM (Except.ok a : Except Fault α) >>= next : SessionM β) = next a :=
  rfl

/-! ### Functions -/

theorem forM_attach {ε α : Type} {l : List α} (f : α → ExceptT ε (StateM Session) PUnit) :
    (l.attach.forM fun a => f a.1) = l.forM f := by
  have hmap : ∀ k : List { a // a ∈ l }, (k.forM fun a => f a.1) = (k.map (·.1)).forM f := by
    intro k
    induction k with
    | nil => rfl
    | cons a k ih => exact congrArg (f a.1 >>= ·) (funext fun _ => ih)
  rw [hmap, List.attach_map_subtype_val]

/-- What is done on the first request for a function, up to making it known. -/
def prepare (table : TypeTable) (purpose : Purpose) (ty : TypeId) : SessionM Function := do
  requireCustom table purpose ty
  let _ ← table.symbolOf purpose ty
  (table.callees purpose ty).forM fun callee => discard (generate table purpose callee)
  table.synthesize purpose ty

theorem generate_eq (table : TypeTable) (purpose : Purpose) (ty : TypeId) :
    generate table purpose ty = Memo.obtain functionsPlace (ty, purpose) do
      let f ← prepare table purpose ty
      modify (register f)
      return f := by
  rw [generate, prepare]
  simp only [bind_assoc]
  rw [forM_attach fun callee => discard (generate table purpose callee)]

/-- A function that is prepared as it has to be is known from then on. -/
theorem Runs.obtain_function {compute : SessionM Function} {fails : Prop} (h : Sound table s)
    (hcompute : ∀ s', Sound table s' → Runs table s' compute (Post (fun f s' =>
      requireCustom table purpose ty = .ok () ∧ table.synthesize purpose ty = .ok f ∧
        ∀ callee ∈ table.callees purpose ty, ∃ g, s'.functions.get? (callee, purpose) = some g)
      fails)) :
    Runs table s
      (Memo.obtain functionsPlace (ty, purpose) do
        let f ← compute
        modify (register f)
        return f)
      (Post (fun f s' => s'.functions.get? (ty, purpose) = some f) fails) := by
  generalize hregister : (do
    let f ← compute
    modify (register f)
    return f : SessionM Function) = registered
  have happly := obtain_apply functionsPlace (ty, purpose) registered s
  obtain ⟨hreserved, hextends⟩ := h.reserve_function (ty, purpose)
  obtain ⟨hsound, hgrows, hpost⟩ := hcompute _ hreserved
  cases hget : s.functions.get? (ty, purpose) with
  | some f =>
    -- The cell is filled: the session stays as it is.
    have hknown : Memo.obtain functionsPlace (ty, purpose) registered s = (.ok f, s) := by
      rw [happly, show (functionsPlace.read s).get? (ty, purpose) = some f from hget]
    refine ⟨?_, ?_, ?_⟩ <;> rw [hknown]
    · exact h
    · exact .refl s
    · exact hget
  | none =>
    rw [show (functionsPlace.read s).get? (ty, purpose) = none from hget] at happly
    generalize functionsPlace.update (·.reserve (ty, purpose)) s = reserved at *
    have hrun := bind_apply compute (fun f => do modify (register f); return f) reserved
    rw [hregister] at hrun
    -- The cell is reserved while the function is prepared; a failure leaves it empty.
    rcases hprepared : compute reserved with ⟨e | f, s'⟩
    · rw [hprepared] at hsound hgrows hpost hrun
      rw [hrun] at happly
      refine ⟨?_, ?_, ?_⟩ <;> rw [happly]
      · exact hsound
      · exact hgrows.trans hextends
      · exact hpost
    · rw [hprepared] at hsound hgrows hpost hrun
      rw [hrun] at happly
      obtain ⟨hcustom, hf, hcallees⟩ := hpost
      obtain ⟨hcompleted, hextends'⟩ := hsound.complete_function hcustom hf hcallees
      refine ⟨?_, ?_, ?_⟩ <;> rw [happly]
      · exact hcompleted
      · exact hextends'.trans (hgrows.trans hextends)
      · change ((register f s').functions.complete (ty, purpose) f).get? (ty, purpose) = _
        rw [Memo.get?_complete, beq_self_eq_true, if_pos rfl]

/-- A function is generated for every type that needs one. -/
theorem runs_generate {s : Session} {ty : TypeId} (h : Lawful table) (hs : Sound table s)
    (purpose : Purpose) :
    Runs table s (generate table purpose ty)
      (Post (fun f s' => s'.functions.get? (ty, purpose) = some f)
        ¬(table.Has ty ∧ table.base ty = .special)) := by
  rw [generate_eq]
  refine .obtain_function hs fun s' hs' => ?_
  have hrefused : ∀ e, requireCustom table purpose ty = .error e →
      ¬(table.Has ty ∧ table.base ty = .special) := by
    intro e he hspecial
    rw [h.requireCustom_eq_ok_iff.2 hspecial] at he
    cases he
  refine .andThen_lift hs' _ hrefused fun _ hcustom => ?_
  obtain ⟨hhas, hspecial⟩ := h.requireCustom_eq_ok_iff.1 hcustom
  rw [h.symbolOf_eq hhas]
  refine .andThen_lift hs' _ (fun e he => by cases he) fun _ _ => ?_
  -- The functions that this one calls belong to types with smaller numbers.
  have hcallees : Runs table s'
      ((table.callees purpose ty).forM fun callee => discard (generate table purpose callee))
      (Post (fun _ s => ∀ callee ∈ table.callees purpose ty,
        ∃ g, s.functions.get? (callee, purpose) = some g)
        ¬(table.Has ty ∧ table.base ty = .special)) :=
    .forM hs' (fun ⟨g, hg⟩ hgrows => ⟨g, hgrows.functions hg⟩) fun callee hcallee s₁ hs₁ => by
      have hlt := TypeTable.callees_lt hcallee
      have hcallee' := h.of_mem_callees hhas hcallee
      refine ((runs_generate h hs₁ purpose).mono fun answer s₂ _ _ hanswer => ?_).map _
        fun g s₂ hg => ⟨g, hg⟩
      cases answer with
      | ok g => exact hanswer
      | error e => exact absurd hcallee' hanswer
  refine hcallees.andThen fun _ s₁ hs₁ _ hknown => ?_
  obtain ⟨f, hf⟩ := h.synthesize_isOk hhas hspecial purpose
  rw [hf]
  exact .lift hs₁ _ ⟨hcustom, rfl, hknown⟩
termination_by ty.raw.toNat
decreasing_by exact UInt32.lt_iff_toNat_lt.1 hlt

/-! ### Closures -/

/-- What the closure for a type is shared by. -/
def closureKey (table : TypeTable) (purpose : Purpose) (ty : TypeId) : ClosureKey :=
  match Operation.ofAlgorithm? (table.algorithm ty) with
  | none => .generated ty purpose
  | some .varMemory => .varMemory purpose (table.sizeOf ty)
  | some operation => .primitive ⟨purpose, operation⟩

theorem make_isOk (h : Built table) (symbol : String) (target : Callee) (payload : Option Word) :
    ∃ c, Closure.make table.target.pointerSize symbol target payload = .ok c := by
  cases payload with
  | none =>
    have hone : Word.mul 1 table.target.pointerSize = .ok table.target.pointerSize := by
      rw [Word.mul, Word.checked_eq_ok_iff, UInt64.toNat_one, Nat.one_mul]
    exact ⟨_, bind_eq_ok_iff.2 ⟨_, hone, rfl⟩⟩
  | some size =>
    obtain ⟨_, htwo⟩ := h.mul_pointerSize_isOk
    exact ⟨_, bind_eq_ok_iff.2 ⟨_, htwo, rfl⟩⟩

theorem ofAlgorithm?_eq_none_iff :
    Operation.ofAlgorithm? (table.algorithm ty) = none ↔
      table.base ty = .noEquality ∨ table.base ty = .special := by
  rw [← algorithm_eq_noEquality_iff, ← algorithm_eq_custom_iff]
  cases table.algorithm ty <;> simp [Operation.ofAlgorithm?]

/-- Of the operations that implement algorithms only one takes a size. -/
theorem takesSize_eq_false {algorithm : Algorithm} {operation : Operation}
    (h : Operation.ofAlgorithm? algorithm = some operation) (hne : operation ≠ .varMemory) :
    operation.takesSize = false := by
  cases algorithm <;> cases h <;> first | rfl | exact absurd rfl hne

/-- The types whose hash closures are built before a closure over a generated function. -/
def pregenerated (table : TypeTable) : Purpose → TypeId → List TypeId
  | .hash, ty => (table.entry ty).parts
  | .equality, _ => []

/-- They belong to types with equality and smaller numbers. -/
theorem of_mem_pregenerated (h : Lawful table) (hty : table.Has ty)
    (hne : table.base ty ≠ .noEquality) {part : TypeId} (hpart : part ∈ pregenerated table purpose ty) :
    part.raw < ty.raw ∧ table.Has part ∧ table.base part ≠ .noEquality := by
  cases purpose with
  | hash =>
    rw [base_of_get hty.get_eq] at hne
    exact ⟨part_lt_of_mem hpart, h.base_part_ne hty.get_eq hne hpart⟩
  | equality => cases hpart

/-- What is done on the first request for the closure for a type. -/
def buildClosure (table : TypeTable) (purpose : Purpose) (ty : TypeId) : SessionM Closure :=
  let make := Closure.make table.target.pointerSize
  match Operation.ofAlgorithm? (table.algorithm ty) with
  | none => do
    (pregenerated table purpose ty).forM fun part => discard (hashClosure table part)
    let f ← generate table purpose ty
    wrap table ty f
  | some .varMemory =>
    liftM (make (Closure.symbolOfSize purpose (table.sizeOf ty)) (.primitive ⟨purpose, .varMemory⟩)
      (some (table.sizeOf ty)))
  | some operation =>
    liftM (make (Primitive.closureSymbol ⟨purpose, operation⟩) (.primitive ⟨purpose, operation⟩) none)

theorem primitiveClosure_eq {operation : Operation}
    (hoperation : Operation.ofAlgorithm? (table.algorithm ty) = some operation) :
    primitiveClosure table purpose ty (table.algorithm ty) =
      Memo.obtain closuresPlace (closureKey table purpose ty) (buildClosure table purpose ty) := by
  rw [primitiveClosure, Primitive.ofAlgorithm?, hoperation, closureKey, hoperation, buildClosure,
    hoperation]
  cases operation <;> rfl

/-- The closure that hashes values of a type with equality is built on the first request. -/
theorem hashClosure_eq_obtain (hty : table.Has ty) (hne : table.base ty ≠ .noEquality) :
    hashClosure table ty =
      Memo.obtain closuresPlace (closureKey table .hash ty) (buildClosure table .hash ty) := by
  rw [hashClosure, hty.get_eq]
  cases hoperation : Operation.ofAlgorithm? (table.algorithm ty) with
  | some operation =>
    rw [← primitiveClosure_eq hoperation]
    cases halgorithm : table.algorithm ty with
    | noEquality | custom =>
      rw [halgorithm] at hoperation
      cases hoperation
    | _ => rfl
  | none =>
    have hcustom := algorithm_eq_custom_iff.2
      ((ofAlgorithm?_eq_none_iff.1 hoperation).resolve_left hne)
    rw [buildClosure, closureKey, hoperation, hcustom]
    dsimp only
    rw [← forM_attach fun part => discard (hashClosure table part)]
    rfl

/-- So is the closure that compares them. -/
theorem equalityClosure_eq_obtain (hty : table.Has ty) (hne : table.base ty ≠ .noEquality) :
    equalityClosure table ty = some <$>
      Memo.obtain closuresPlace (closureKey table .equality ty) (buildClosure table .equality ty) := by
  rw [equalityClosure, hty.get_eq, map_eq_pure_bind]
  cases hoperation : Operation.ofAlgorithm? (table.algorithm ty) with
  | some operation =>
    rw [← primitiveClosure_eq hoperation]
    cases halgorithm : table.algorithm ty with
    | noEquality | custom =>
      rw [halgorithm] at hoperation
      cases hoperation
    | _ => rfl
  | none =>
    have hcustom := algorithm_eq_custom_iff.2
      ((ofAlgorithm?_eq_none_iff.1 hoperation).resolve_left hne)
    rw [buildClosure, closureKey, hoperation, hcustom]
    rfl

theorem get_of_not_has (hty : ¬table.Has ty) : ∃ f, table.get ty = .error f := by
  cases hget : table.get ty with
  | ok e => exact absurd ⟨e, hget⟩ hty
  | error f => exact ⟨f, rfl⟩

theorem hashClosure_noEquality (h : Lawful table) (hty : table.Has ty)
    (hbase : table.base ty = .noEquality) :
    hashClosure table ty = throw (.noHash (table.shape ty).text) := by
  rw [hashClosure, hty.get_eq, algorithm_eq_noEquality_iff.2 hbase, h.text_eq hty]
  rfl

theorem equalityClosure_noEquality (hty : table.Has ty) (hbase : table.base ty = .noEquality) :
    equalityClosure table ty = pure none := by
  rw [equalityClosure, hty.get_eq, algorithm_eq_noEquality_iff.2 hbase]
  rfl

theorem hashClosure_fault {f : Fault} (hget : table.get ty = .error f) :
    hashClosure table ty = throw (.fault f) := by
  rw [hashClosure, hget]
  rfl

theorem equalityClosure_fault {f : Fault} (hget : table.get ty = .error f) :
    equalityClosure table ty = throw (.fault f) := by
  rw [equalityClosure, hget]
  rfl

/-- A closure can be made over the function of every type. -/
theorem wrap_isOk (h : Built table) (hty : table.Has ty) (f : Function) :
    ∃ c, wrap table ty f = .ok c := by
  obtain ⟨c, hc⟩ := make_isOk h
    (Closure.symbolOfText f.purpose (table.shape ty).text) (.generated f.symbol) none
  refine ⟨c, ?_⟩
  rw [wrap, h.lawful.text_eq hty]
  change (liftM (Closure.make _ _ _ _) : Except RequestError Closure) = _
  rw [hc]
  rfl

/-- For a type that a primitive takes care of, the closure is made without further requests. -/
theorem buildClosure_eq_pure (h : Built table) (purpose : Purpose) {operation : Operation}
    (hoperation : Operation.ofAlgorithm? (table.algorithm ty) = some operation) :
    ∃ c, buildClosure table purpose ty = pure c ∧
      ∀ s, Builds table s (closureKey table purpose ty) c := by
  rw [buildClosure, closureKey, hoperation]
  by_cases hvar : operation = .varMemory
  · subst hvar
    obtain ⟨c, hc⟩ := make_isOk h (Closure.symbolOfSize purpose (table.sizeOf ty))
      (.primitive ⟨purpose, .varMemory⟩) (some (table.sizeOf ty))
    refine ⟨c, ?_, fun _ => hc⟩
    dsimp only
    rw [hc]
    rfl
  · obtain ⟨c, hc⟩ := make_isOk h (Primitive.closureSymbol ⟨purpose, operation⟩)
      (.primitive ⟨purpose, operation⟩) none
    have hsize := takesSize_eq_false hoperation hvar
    refine ⟨c, ?_⟩
    cases operation with
    | varMemory => exact absurd rfl hvar
    | _ =>
      dsimp only
      rw [hc]
      exact ⟨rfl, fun _ => ⟨hsize, hc⟩⟩

/-- The closure that a type with equality is served by. -/
theorem runs_obtain {s : Session} {ty : TypeId} (h : Built table) (hs : Sound table s)
    (hty : table.Has ty) (hne : table.base ty ≠ .noEquality) (purpose : Purpose) :
    Runs table s
      (Memo.obtain closuresPlace (closureKey table purpose ty) (buildClosure table purpose ty))
      (Post (fun c s' => Builds table s' (closureKey table purpose ty) c) False) := by
  refine .obtain_closure hs fun s' hs' => ?_
  cases hoperation : Operation.ofAlgorithm? (table.algorithm ty) with
  | some operation =>
    obtain ⟨c, hbuild, hbuilds⟩ := buildClosure_eq_pure h purpose hoperation
    rw [hbuild]
    exact .pure hs' (hbuilds s')
  | none =>
    have hspecial := (ofAlgorithm?_eq_none_iff.1 hoperation).resolve_left hne
    rw [buildClosure, closureKey, hoperation]
    dsimp only
    -- The closures for the parts belong to types with smaller numbers.
    have hparts : Runs table s'
        ((pregenerated table purpose ty).forM fun part => discard (hashClosure table part))
        (Post (fun _ _ => ∀ part ∈ pregenerated table purpose ty, True) False) :=
      .forM hs' (fun _ _ => trivial) fun part hpart s₁ hs₁ => by
        obtain ⟨hlt, hhas, hbase⟩ := of_mem_pregenerated h.lawful hty hne hpart
        rw [hashClosure_eq_obtain hhas hbase]
        exact (runs_obtain h hs₁ hhas hbase .hash).map _ fun _ _ _ => trivial
    refine hparts.andThen fun _ s₁ hs₁ _ _ => ?_
    have hgenerate : Runs table s₁ (generate table purpose ty)
        (Post (fun f s' => s'.functions.get? (ty, purpose) = some f) False) := by
      refine (runs_generate h.lawful hs₁ purpose).mono fun answer _ _ _ hanswer => ?_
      cases answer with
      | ok f => exact hanswer
      | error _ => exact absurd ⟨hty, hspecial⟩ hanswer
    refine hgenerate.andThen fun f s₂ hs₂ _ hf => ?_
    obtain ⟨c, hc⟩ := wrap_isOk h hty f
    rw [hc]
    exact .pure hs₂ ⟨f, hf, hc⟩
termination_by ty.raw.toNat
decreasing_by exact UInt32.lt_iff_toNat_lt.1 hlt

/-- Every type with equality has a closure that hashes its values. -/
theorem runs_hashClosure {s : Session} {ty : TypeId} (h : Built table) (hs : Sound table s) :
    Runs table s (hashClosure table ty)
      (Post (fun c s' => Builds table s' (closureKey table .hash ty) c)
        ¬(table.Has ty ∧ table.base ty ≠ .noEquality)) := by
  by_cases hty : table.Has ty
  · by_cases hbase : table.base ty = .noEquality
    · rw [hashClosure_noEquality h.lawful hty hbase]
      exact .throw hs fun hne => hne.2 hbase
    · rw [hashClosure_eq_obtain hty hbase]
      refine (runs_obtain h hs hty hbase .hash).mono fun answer s' _ _ hanswer => ?_
      cases answer with
      | ok c => exact hanswer
      | error e => exact hanswer.elim
  · obtain ⟨f, hget⟩ := get_of_not_has hty
    rw [hashClosure_fault hget]
    exact .throw hs fun hhas => hty hhas.1

/-- Every type with equality has a closure that compares its values. -/
theorem runs_equalityClosure (h : Built table) (hs : Sound table s) :
    Runs table s (equalityClosure table ty)
      (Post (fun answer s' =>
          match answer with
          | some c => table.base ty ≠ .noEquality ∧ Builds table s' (closureKey table .equality ty) c
          | none => table.base ty = .noEquality)
        ¬table.Has ty) := by
  by_cases hty : table.Has ty
  · by_cases hbase : table.base ty = .noEquality
    · rw [equalityClosure_noEquality hty hbase]
      exact .pure hs hbase
    · rw [equalityClosure_eq_obtain hty hbase]
      have hobtain : Runs table s (some <$> Memo.obtain closuresPlace
            (closureKey table .equality ty) (buildClosure table .equality ty))
          (Post (fun answer s' =>
            match answer with
            | some c => table.base ty ≠ .noEquality ∧
              Builds table s' (closureKey table .equality ty) c
            | none => table.base ty = .noEquality) False) :=
        (runs_obtain h hs hty hbase .equality).map some fun c s' hc => ⟨hbase, hc⟩
      refine hobtain.mono fun answer s' _ _ hanswer => ?_
      cases answer with
      | ok c => exact hanswer
      | error e => exact hanswer.elim
  · obtain ⟨f, hget⟩ := get_of_not_has hty
    rw [equalityClosure_fault hget]
    exact .throw hs hty

end Session

end HashEq

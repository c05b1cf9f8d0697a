import HashEq.Action
import HashEq.Session

/-!
# Sound sessions

A session never forgets what it has generated, and what it knows is what the type
table gives: every function is the one synthesized for its type and comes with the
functions that it calls, and every closure is the one that its key stands for.

* `Sound`: the invariant of sessions;
* `Runs`: a request keeps the invariant, forgets nothing, and ends as stated;
* `Runs.bind`, `Runs.obtain`: requests made one after the other, and a value that is
  computed on the first request.
-/

namespace HashEq

namespace TypeTable

/-- A synthesized function belongs to its type and purpose. -/
theorem of_synthesize_eq_ok {table : TypeTable} {purpose : Purpose} {ty : TypeId} {f : Function}
    (h : table.synthesize purpose ty = .ok f) :
    f.ty = ty ∧ f.purpose = purpose ∧ table.symbolOf purpose ty = .ok f.symbol := by
  cases purpose with
  | hash =>
    obtain ⟨symbol, hsymbol, h⟩ := bind_eq_ok_iff.1 h
    obtain ⟨steps, _, h⟩ := bind_eq_ok_iff.1 h
    cases h
    exact ⟨rfl, rfl, hsymbol⟩
  | equality =>
    obtain ⟨symbol, hsymbol, h⟩ := bind_eq_ok_iff.1 h
    obtain ⟨checks, _, h⟩ := bind_eq_ok_iff.1 h
    cases h
    exact ⟨rfl, rfl, hsymbol⟩

end TypeTable

namespace Session

/-- `later` knows all functions and closures that `earlier` knows. -/
structure Extends (later earlier : Session) : Prop where
  functions : ∀ {key : TypeId × Purpose} {f : Function},
    earlier.functions.get? key = some f → later.functions.get? key = some f
  closures : ∀ {key : ClosureKey} {c : Closure},
    earlier.closures.get? key = some c → later.closures.get? key = some c

/-- The closure that a key stands for, over a function that the session has generated if the
    key names one. Primitives that take a size have closures that carry it. -/
def Builds (table : TypeTable) (s : Session) : ClosureKey → Closure → Prop
  | .primitive primitive, c => primitive.operation.takesSize = false ∧
    Closure.make table.target.pointerSize primitive.closureSymbol (.primitive primitive) none = .ok c
  | .varMemory purpose size, c =>
    Closure.make table.target.pointerSize (Closure.symbolOfSize purpose size)
      (.primitive ⟨purpose, .varMemory⟩) (some size) = .ok c
  | .generated ty purpose, c => ∃ f, s.functions.get? (ty, purpose) = some f ∧ wrap table ty f = .ok c

/-- What a session knows is what the type table gives. -/
structure Sound (table : TypeTable) (s : Session) : Prop where
  generated : ∀ {ty : TypeId} {purpose : Purpose} {f : Function},
    s.functions.get? (ty, purpose) = some f →
      requireCustom table purpose ty = .ok () ∧ table.synthesize purpose ty = .ok f
  callees : ∀ {ty : TypeId} {purpose : Purpose} {f : Function},
    s.functions.get? (ty, purpose) = some f →
      ∀ callee ∈ table.callees purpose ty, ∃ g, s.functions.get? (callee, purpose) = some g
  registered : ∀ {key : TypeId × Purpose} {f : Function}, s.functions.get? key = some f →
    ∃ g, s.function? f.symbol = some g
  known : ∀ {symbol : String} {f : Function}, s.function? symbol = some f →
    f.symbol = symbol ∧ s.functions.get? (f.ty, f.purpose) = some f
  closures : ∀ {key : ClosureKey} {c : Closure}, s.closures.get? key = some c →
    Builds table s key c

variable {table : TypeTable} {s s' : Session} {ty : TypeId} {purpose : Purpose} {f : Function}

namespace Extends

theorem refl (s : Session) : Extends s s :=
  ⟨id, id⟩

theorem trans {later middle earlier : Session} (h : Extends later middle)
    (h' : Extends middle earlier) : Extends later earlier :=
  ⟨fun hf => h.functions (h'.functions hf), fun hc => h.closures (h'.closures hc)⟩

end Extends

theorem Builds.extend (h : Extends s' s) {key : ClosureKey} {c : Closure}
    (hc : Builds table s key c) : Builds table s' key c := by
  cases key with
  | primitive primitive => exact hc
  | varMemory purpose size => exact hc
  | generated ty purpose =>
    obtain ⟨f, hf, hwrap⟩ := hc
    exact ⟨f, h.functions hf, hwrap⟩

/-- A key stands for one closure only. -/
theorem Builds.unique {key : ClosureKey} {c c' : Closure} (h : Builds table s key c)
    (h' : Builds table s key c') : c = c' := by
  cases key with
  | primitive primitive => exact Except.ok.inj (h.2.symm.trans h'.2)
  | varMemory purpose size => exact Except.ok.inj (h.symm.trans h')
  | generated ty purpose =>
    obtain ⟨f, hf, hwrap⟩ := h
    obtain ⟨f', hf', hwrap'⟩ := h'
    cases hf.symm.trans hf'
    exact Except.ok.inj (hwrap.symm.trans hwrap')

/-! ### Keeping sessions sound -/

theorem sound_empty (table : TypeTable) : Sound table empty := by
  have hnone : ∀ {symbol : String} {f : Function}, empty.function? symbol ≠ some f := by
    intro symbol f h
    rw [function?, empty, Std.HashMap.getElem?_empty] at h
    cases h
  refine ⟨fun h => ?_, fun h => ?_, fun h => ?_, fun h => absurd h hnone, fun h => ?_⟩
  all_goals
    rw [empty, Memo.get?_empty] at h
    cases h

/-- An empty cell changes nothing that a session knows. -/
theorem Sound.reserve_function (h : Sound table s) (key : TypeId × Purpose) :
    Sound table (functionsPlace.update (·.reserve key) s) ∧
      Extends (functionsPlace.update (·.reserve key) s) s := by
  have hget : ∀ k, (functionsPlace.update (·.reserve key) s).functions.get? k =
      s.functions.get? k := fun k => Memo.get?_reserve s.functions key k
  have hextends : Extends (functionsPlace.update (·.reserve key) s) s :=
    ⟨fun hf => (hget _).trans hf, id⟩
  refine ⟨⟨fun hf => ?_, fun hf callee hcallee => ?_, fun hf => ?_, fun hf => ?_, fun hc => ?_⟩,
    hextends⟩
  · rw [hget] at hf
    exact h.generated hf
  · rw [hget] at hf
    obtain ⟨g, hg⟩ := h.callees hf callee hcallee
    exact ⟨g, hextends.functions hg⟩
  · rw [hget] at hf
    exact h.registered hf
  · exact ⟨(h.known hf).1, hextends.functions (h.known hf).2⟩
  · exact (h.closures hc).extend hextends

theorem Sound.reserve_closure (h : Sound table s) (key : ClosureKey) :
    Sound table (closuresPlace.update (·.reserve key) s) ∧
      Extends (closuresPlace.update (·.reserve key) s) s := by
  have hget : ∀ k, (closuresPlace.update (·.reserve key) s).closures.get? k =
      s.closures.get? k := fun k => Memo.get?_reserve s.closures key k
  have hextends : Extends (closuresPlace.update (·.reserve key) s) s :=
    ⟨id, fun hc => (hget _).trans hc⟩
  refine ⟨⟨h.generated, h.callees, h.registered, h.known, fun hc => ?_⟩, hextends⟩
  rw [hget] at hc
  exact (h.closures hc).extend hextends

/-- A function that is made known after those that it calls is as good as the earlier ones. -/
theorem Sound.complete_function (h : Sound table s)
    (hcustom : requireCustom table purpose ty = .ok ()) (hf : table.synthesize purpose ty = .ok f)
    (hcallees : ∀ callee ∈ table.callees purpose ty,
      ∃ g, s.functions.get? (callee, purpose) = some g) :
    Sound table (functionsPlace.update (·.complete (ty, purpose) f) (register f s)) ∧
      Extends (functionsPlace.update (·.complete (ty, purpose) f) (register f s)) s := by
  obtain ⟨hty, hpurpose, _⟩ := TypeTable.of_synthesize_eq_ok hf
  generalize hlater : functionsPlace.update (·.complete (ty, purpose) f) (register f s) = later
  have hget : ∀ k, later.functions.get? k =
      if (ty, purpose) == k then some f else s.functions.get? k := fun k => by
    rw [← hlater]
    exact Memo.get?_complete s.functions (ty, purpose) k f
  have hfunction : ∀ symbol, later.function? symbol =
      if f.symbol == symbol then some f else s.function? symbol := fun symbol => by
    rw [← hlater]
    exact Std.HashMap.getElem?_insert
  have hcases : ∀ {k : TypeId × Purpose} {g : Function}, later.functions.get? k = some g →
      (k = (ty, purpose) ∧ g = f) ∨ s.functions.get? k = some g := by
    intro k g hg
    rw [hget] at hg
    split at hg
    · next heq => exact .inl ⟨(eq_of_beq heq).symm, (Option.some.inj hg).symm⟩
    · exact .inr hg
  have hextends : Extends later s := by
    refine ⟨fun {k g} hg => ?_, fun hc => by rw [← hlater]; exact hc⟩
    rw [hget]
    split
    · next heq =>
      -- The session knew the function already.
      cases eq_of_beq heq
      exact congrArg some (Except.ok.inj (hf.symm.trans (h.generated hg).2))
    · exact hg
  refine ⟨⟨fun hg => ?_, fun hg callee hcallee => ?_, fun {k g} hg => ?_, fun {symbol g} hg => ?_,
    fun hc => ?_⟩, hextends⟩
  · -- generated
    rcases hcases hg with ⟨heq, rfl⟩ | hg
    · cases heq
      exact ⟨hcustom, hf⟩
    · exact h.generated hg
  · -- callees
    rcases hcases hg with ⟨heq, rfl⟩ | hg
    · cases heq
      obtain ⟨g, hg⟩ := hcallees callee hcallee
      exact ⟨g, hextends.functions hg⟩
    · obtain ⟨g, hg⟩ := h.callees hg callee hcallee
      exact ⟨g, hextends.functions hg⟩
  · -- registered
    rw [hfunction]
    split
    · exact ⟨f, rfl⟩
    · next hne =>
      rcases hcases hg with ⟨_, rfl⟩ | hg
      · rw [beq_self_eq_true] at hne
        exact absurd rfl hne
      · exact h.registered hg
  · -- known
    rw [hfunction] at hg
    split at hg
    · next heq =>
      cases hg
      refine ⟨eq_of_beq heq, ?_⟩
      rw [hget, hty, hpurpose, beq_self_eq_true]
      rfl
    · exact ⟨(h.known hg).1, hextends.functions (h.known hg).2⟩
  · -- closures
    rw [← hlater] at hc
    exact (h.closures hc).extend hextends

theorem Sound.complete_closure (h : Sound table s) {key : ClosureKey} {c : Closure}
    (hc : Builds table s key c) : Sound table (closuresPlace.update (·.complete key c) s) ∧
      Extends (closuresPlace.update (·.complete key c) s) s := by
  have hget : ∀ k, (closuresPlace.update (·.complete key c) s).closures.get? k =
      if key == k then some c else s.closures.get? k :=
    fun k => Memo.get?_complete s.closures key k c
  have hextends : Extends (closuresPlace.update (·.complete key c) s) s := by
    refine ⟨id, fun {k c'} hc' => ?_⟩
    rw [hget]
    split
    · next heq =>
      -- The session knew the closure already.
      cases eq_of_beq heq
      exact congrArg some (hc.unique (h.closures hc'))
    · exact hc'
  refine ⟨⟨h.generated, h.callees, h.registered, h.known, fun {k c'} hc' => ?_⟩, hextends⟩
  rw [hget] at hc'
  split at hc'
  · next heq =>
    cases eq_of_beq heq
    cases hc'
    exact hc.extend hextends
  · exact (h.closures hc').extend hextends

/-! ### Requests one after the other -/

theorem tryCatch_eq {ε α : Type} (request : ExceptT ε (StateM Session) α)
    (handle : ε → ExceptT ε (StateM Session) α) (s : Session) :
    (tryCatch request handle : ExceptT ε (StateM Session) α) s =
      (match (request s).1 with
        | .ok a => (pure (.ok a) : StateM Session (Except ε α))
        | .error e => handle e) (request s).2 :=
  rfl

/-- What is done when a request is refused. -/
theorem tryCatch_apply {ε α : Type} (request : ExceptT ε (StateM Session) α)
    (handle : ε → ExceptT ε (StateM Session) α) (s : Session) :
    (tryCatch request handle : ExceptT ε (StateM Session) α) s = match request s with
      | (.ok a, s') => (.ok a, s')
      | (.error e, s') => handle e s' := by
  rw [tryCatch_eq]
  rcases request s with ⟨_ | _, s'⟩ <;> rfl

/-- Begun in a sound session, a request leaves a sound session that has forgotten nothing, and
    ends as stated. -/
structure Runs {ε α : Type} (table : TypeTable) (s : Session)
    (request : ExceptT ε (StateM Session) α) (post : Except ε α → Session → Prop) : Prop where
  sound : Sound table (request s).2
  grows : Extends (request s).2 s
  post : post (request s).1 (request s).2

namespace Runs

variable {ε ε' α β : Type} {request : ExceptT ε (StateM Session) α}
  {next : α → ExceptT ε (StateM Session) β} {mid post post' : Except ε α → Session → Prop}
  {final : Except ε β → Session → Prop}

theorem pure {a : α} (h : Sound table s) (hpost : post (.ok a) s) :
    Runs table s (pure a : ExceptT ε (StateM Session) α) post :=
  ⟨h, .refl s, hpost⟩

theorem throw {e : ε} (h : Sound table s) (hpost : post (.error e) s) :
    Runs table s (throw e : ExceptT ε (StateM Session) α) post :=
  ⟨h, .refl s, hpost⟩

theorem mono (h : Runs table s request mid)
    (hpost : ∀ answer s', Sound table s' → Extends s' s → mid answer s' → post answer s') :
    Runs table s request post :=
  ⟨h.sound, h.grows, hpost _ _ h.sound h.grows h.post⟩

theorem and (h : Runs table s request post) (h' : Runs table s request post') :
    Runs table s request fun answer s' => post answer s' ∧ post' answer s' :=
  ⟨h.sound, h.grows, h.post, h'.post⟩

theorem bind (h : Runs table s request mid)
    (hok : ∀ a s', Sound table s' → Extends s' s → mid (.ok a) s' → Runs table s' (next a) final)
    (herror : ∀ e s', Sound table s' → Extends s' s → mid (.error e) s' → final (.error e) s') :
    Runs table s (request >>= next) final := by
  have hbind := bind_apply request next s
  obtain ⟨hsound, hgrows, hmid⟩ := h
  rcases hrequest : request s with ⟨e | a, s'⟩
  · rw [hrequest] at hsound hgrows hmid hbind
    refine ⟨?_, ?_, ?_⟩ <;> rw [hbind]
    · exact hsound
    · exact hgrows
    · exact herror e s' hsound hgrows hmid
  · rw [hrequest] at hsound hgrows hmid hbind
    obtain ⟨hsound', hgrows', hfinal⟩ := hok a s' hsound hgrows hmid
    refine ⟨?_, ?_, ?_⟩ <;> rw [hbind]
    · exact hsound'
    · exact hgrows'.trans hgrows
    · exact hfinal

/-- What needs no session leaves it as it is. -/
theorem lift (h : Sound table s) (x : Except ε α) (hpost : post x s) :
    Runs table s (liftM x : ExceptT ε (StateM Session) α) post :=
  ⟨h, .refl s, hpost⟩

end Runs

end Session

end HashEq

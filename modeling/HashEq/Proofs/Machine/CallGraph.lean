import HashEq.Proofs.Machine.Calls
import HashEq.Proofs.Synthesis.Typing

/-!
# The call graph of generated code

Everything that the code of a session calls can be called: generated functions are
known by their symbols when they are first called for, and whatever is called gets
as many arguments as it takes. Functions call functions of types with smaller
numbers only, so that calls of generated code among itself end.

* `Session.Callable`: what can be called in a session;
* `Session.Sound.typed`: the functions that a session knows are well typed;
* `Session.Sound.callable_target`: what a closure calls;
* `Machine.calls_closed`: the calls of all functions and closures there ever are.
-/

namespace HashEq

/-- What a closure is for. -/
def ClosureKey.purpose : ClosureKey → Purpose
  | .primitive p => p.purpose
  | .varMemory purpose _ | .generated _ purpose => purpose

namespace Closure

/-- The number of arguments that the target of a closure is called with: two words, and the size if
    the closure carries one. -/
def count (c : Closure) : Nat :=
  2 + c.payload.toList.length

end Closure

namespace Session

open TypeTable

variable {table : TypeTable} {s s' : Session} {ty : TypeId} {purpose : Purpose} {f : Function}

/-- What code for a purpose can call in a session, and with how many arguments. -/
def Callable (s : Session) (purpose : Purpose) : Callee → Nat → Prop
  | .primitive primitive, count => primitive.purpose = purpose ∧ primitive.contract.arity = count
  | .generated symbol, count =>
    ∃ g, s.function? symbol = some g ∧ g.purpose = purpose ∧ g.params = count

section Sound

variable (h : Lawful table) (hs : Sound table s)
include h hs

/-- The symbol of a function can be called with two words. -/
theorem Sound.callable_symbol (hf : s.functions.get? (ty, purpose) = some f) :
    s.Callable purpose (.generated f.symbol) 2 := by
  obtain ⟨g, hg, hpurpose, hget, _, hty, _⟩ := hs.function?_text h hf
  exact ⟨g, hg, hpurpose, (h.typed_synthesize hty.1 (hs.generated hget).2).params⟩

/-- The functions that are synthesized call functions that the session knows. -/
theorem Sound.typed_generated (hf : s.functions.get? (ty, purpose) = some f) :
    f.Typed table (s.Callable purpose) := by
  obtain ⟨hcustom, hsynthesize⟩ := hs.generated hf
  have hhas := (h.requireCustom_eq_ok_iff.1 hcustom).1
  refine (h.typed_synthesize hhas hsynthesize).mono fun callee count hcallable => ?_
  cases callee with
  | primitive primitive => exact hcallable
  | generated symbol =>
    obtain ⟨rfl, callee, hcallee, hsymbol⟩ := hcallable
    obtain ⟨g, hg⟩ := hs.callees hf callee hcallee
    obtain ⟨_, _, hsymbol'⟩ := of_synthesize_eq_ok (hs.generated hg).2
    cases hsymbol.symm.trans hsymbol'
    exact hs.callable_symbol h hg

/-- The functions that a session knows are well typed. -/
theorem Sound.typed {symbol : String} (hf : s.function? symbol = some f) :
    f.Typed table (s.Callable f.purpose) :=
  hs.typed_generated h (hs.known hf).2

/-- What can be called can be called later on. -/
theorem Callable.extend (hs' : Sound table s') (hextends : Extends s' s) {callee : Callee} {count : Nat}
    (hcallable : s.Callable purpose callee count) : s'.Callable purpose callee count := by
  cases callee with
  | primitive primitive => exact hcallable
  | generated symbol =>
    obtain ⟨g, hg, rfl, rfl⟩ := hcallable
    obtain ⟨rfl, hget⟩ := hs.known hg
    rw [(hs.typed h hg).params]
    exact hs'.callable_symbol h (hextends.functions hget)

/-- What a closure calls can be called, with two words and the size that it carries. -/
theorem Sound.callable_target {key : ClosureKey} {c : Closure} (hc : Builds table s key c) :
    s.Callable key.purpose c.target c.count := by
  cases key with
  | primitive primitive =>
    obtain ⟨hsize, hmake⟩ := hc
    obtain ⟨htarget, hpayload⟩ := of_make_eq_ok hmake
    rw [htarget, Closure.count, hpayload]
    refine ⟨rfl, ?_⟩
    cases hpurpose : primitive.purpose <;> rw [Primitive.contract, hpurpose, hsize] <;> rfl
  | varMemory purpose size =>
    obtain ⟨htarget, hpayload⟩ := of_make_eq_ok hc
    rw [htarget, Closure.count, hpayload]
    cases purpose <;> exact ⟨rfl, rfl⟩
  | generated ty purpose =>
    obtain ⟨f, hf, hwrap⟩ := hc
    obtain ⟨htarget, hpayload⟩ := of_wrap_eq_ok hwrap
    rw [htarget, Closure.count, hpayload]
    exact hs.callable_symbol h hf

/-- A function calls functions of types with smaller numbers, if types have different texts. -/
theorem Sound.callee_lt (hdistinct : table.TextsDistinct)
    (hf : s.functions.get? (ty, purpose) = some f) {name : String} {count : Nat}
    (hcall : (Callee.generated name, count) ∈ f.calls) :
    ∃ g, s.function? name = some g ∧ g.ty.raw < ty.raw := by
  obtain ⟨hcustom, hsynthesize⟩ := hs.generated hf
  have hhas := (h.requireCustom_eq_ok_iff.1 hcustom).1
  obtain ⟨_, callee, hcallee, hsymbol⟩ := (h.typed_synthesize hhas hsynthesize).calls _ hcall
  obtain ⟨g, hg⟩ := hs.callees hf callee hcallee
  obtain ⟨rfl, _, hsymbol'⟩ := of_synthesize_eq_ok (hs.generated hg).2
  cases hsymbol.symm.trans hsymbol'
  exact ⟨g, hs.function?_symbol h hdistinct hg, callees_lt hcallee⟩

end Sound

/-! ### Closures that requests answer -/

/-- What the closures for a type call can be called. -/
structure TypeClosures.Callable (s : Session) (closures : TypeClosures) : Prop where
  hash : ∀ c ∈ closures.hash, s.Callable .hash c.target c.count
  equality : ∀ c ∈ closures.equality, s.Callable .equality c.target c.count

theorem purpose_closureKey (table : TypeTable) (purpose : Purpose) (ty : TypeId) :
    (closureKey table purpose ty).purpose = purpose := by
  unfold closureKey
  split <;> rfl

theorem Runs.attempt {α : Type} {request : SessionM α} {ok : α → Session → Prop} {fails : Prop}
    (h : Runs table s request (Post ok fails)) :
    Runs table s (attempt request) (Post (fun answer s' => ∀ a, answer = .ok a → ok a s') True) := by
  have happly := attempt_apply request s
  obtain ⟨hsound, hgrows, hpost⟩ := h
  rcases hrequest : request s with ⟨e | a, s'⟩
  · rw [hrequest] at hsound hgrows happly
    refine ⟨?_, ?_, ?_⟩ <;> rw [happly] <;> cases e <;> first | exact hsound | exact hgrows | trivial | exact nofun
  · rw [hrequest] at hsound hgrows hpost happly
    refine ⟨?_, ?_, ?_⟩ <;> rw [happly]
    · exact hsound
    · exact hgrows
    · rintro _ ⟨⟩
      exact hpost

theorem TypeClosures.Callable.extend (h : Lawful table) (hs : Sound table s) (hs' : Sound table s')
    (hextends : Extends s' s) {closures : TypeClosures} (hclosures : closures.Callable s) :
    closures.Callable s' :=
  ⟨fun c hc => (hclosures.hash c hc).extend h hs hs' hextends,
    fun c hc => (hclosures.equality c hc).extend h hs hs' hextends⟩

section Requests

variable (h : Built table) (hs : Sound table s)
include h hs

theorem runs_hashClosure_callable :
    Runs table s (hashClosure table ty)
      (Post (fun c s' => s'.Callable .hash c.target c.count) True) :=
  (runs_hashClosure h hs).mono fun answer s' hs' _ hanswer => by
    cases answer with
    | error e => trivial
    | ok c =>
      have hcallable := hs'.callable_target h.lawful hanswer
      rwa [purpose_closureKey] at hcallable

theorem runs_equalityClosure_callable :
    Runs table s (equalityClosure table ty)
      (Post (fun answer s' => ∀ c ∈ answer, s'.Callable .equality c.target c.count) True) :=
  (runs_equalityClosure h hs).mono fun answer s' hs' _ hanswer => by
    match answer, hanswer with
    | .error e, _ => trivial
    | .ok none, _ => exact nofun
    | .ok (some c), hc =>
      rintro _ ⟨⟩
      have hcallable := hs'.callable_target h.lawful hc.2
      rwa [purpose_closureKey] at hcallable

theorem runs_closuresFor :
    Runs table s (closuresFor table ty) (Post (fun closures s' => closures.Callable s') True) := by
  unfold closuresFor
  refine .andThen_fault hs _ (fun _ _ => trivial) fun _ _ => ?_
  split
  · exact .pure hs ⟨nofun, nofun⟩
  · refine (runs_hashClosure_callable h hs).andThen fun c s₁ hs₁ _ hc => ?_
    refine (runs_equalityClosure_callable h hs₁).andThen fun answer s₂ hs₂ hextends hanswer => ?_
    refine .pure hs₂ ⟨?_, hanswer⟩
    rintro _ ⟨⟩
    exact hc.extend h.lawful hs₁ hs₂ hextends

/-- What the closures for several types call can be called after the last of them is answered. -/
theorem runs_generateAll {types : List TypeId} :
    Runs table s (generateAll table types) (Post (fun answers s' =>
      ∀ closures : TypeClosures, .ok closures ∈ answers → closures.Callable s') True) := by
  unfold generateAll
  induction types generalizing s with
  | nil =>
    rw [List.mapM_nil]
    exact .pure hs fun _ hmem => absurd hmem List.not_mem_nil
  | cons ty types ih =>
    rw [List.mapM_cons]
    refine (runs_closuresFor h hs).attempt.andThen fun answer s₁ hs₁ _ hanswer => ?_
    refine (ih hs₁).andThen fun answers s₂ hs₂ hextends hanswers => .pure hs₂ fun closures hmem => ?_
    rcases List.mem_cons.1 hmem with rfl | hmem
    · exact (hanswer closures rfl).extend h.lawful hs₁ hs₂ hextends
    · exact hanswers closures hmem

end Requests

end Session

namespace Machine

open Session TypeTable

variable {table : TypeTable} {machine : Machine}

/-- A machine is asked for closures, answers one among them for the purpose, and becomes another
    machine. -/
inductive Yields (machine : Machine) : Purpose → Closure → Machine → Prop
  | hash {ty : TypeId} {c : Closure} {later : Machine} :
      request (Session.hashClosure · ty) machine = (.ok c, later) → Yields machine .hash c later
  | equality {ty : TypeId} {c : Closure} {later : Machine} :
      request (Session.equalityClosure · ty) machine = (.ok (some c), later) →
      Yields machine .equality c later
  | hashAmong {types : List TypeId} {answers : List (Except RequestError TypeClosures)}
      {closures : TypeClosures} {c : Closure} {later : Machine} :
      request (Session.generateAll · types) machine = (.ok answers, later) →
      .ok closures ∈ answers → closures.hash = some c → Yields machine .hash c later
  | equalityAmong {types : List TypeId} {answers : List (Except RequestError TypeClosures)}
      {closures : TypeClosures} {c : Closure} {later : Machine} :
      request (Session.generateAll · types) machine = (.ok answers, later) →
      .ok closures ∈ answers → closures.equality = some c → Yields machine .equality c later

/-- A request that is answered leads where its run does. -/
theorem of_request_eq_ok {α : Type} {action : TypeTable → SessionM α} {a : α} {later : Machine}
    {ok : α → Session → Prop} {fails : Prop}
    (hruns : Runs machine.table machine.session (action machine.table) (Post ok fails))
    (h : request action machine = (.ok a, later)) :
    later.table = machine.table ∧ Sound machine.table later.session ∧ ok a later.session := by
  rw [request, evaluate_apply, Prod.mk.injEq] at h
  obtain ⟨hanswer, rfl⟩ := h
  obtain ⟨hsound, _, hpost⟩ := hruns
  change ((action machine.table machine.session).1).mapError EvalError.ofRequest = .ok a at hanswer
  refine ⟨rfl, hsound, ?_⟩
  cases hrun : (action machine.table machine.session).1 with
  | error e =>
    rw [hrun] at hanswer
    cases hanswer
  | ok a' =>
    rw [hrun] at hanswer hpost
    cases hanswer
    exact hpost

/-- What a closure calls can be called as soon as the closure is answered. -/
theorem Yields.callable (hbuilt : Built machine.table) (hsound : Sound machine.table machine.session)
    {purpose : Purpose} {c : Closure} {later : Machine} (h : Yields machine purpose c later) :
    later.table = machine.table ∧ Sound machine.table later.session ∧
      later.session.Callable purpose c.target c.count := by
  cases h with
  | hash h => exact of_request_eq_ok (runs_hashClosure_callable hbuilt hsound) h
  | equality h =>
    obtain ⟨htable, hsound', hcallable⟩ :=
      of_request_eq_ok (runs_equalityClosure_callable hbuilt hsound) h
    exact ⟨htable, hsound', hcallable c rfl⟩
  | hashAmong h hmem hc =>
    obtain ⟨htable, hsound', hcallable⟩ := of_request_eq_ok (runs_generateAll hbuilt hsound) h
    exact ⟨htable, hsound', (hcallable _ hmem).hash c hc⟩
  | equalityAmong h hmem hc =>
    obtain ⟨htable, hsound', hcallable⟩ := of_request_eq_ok (runs_generateAll hbuilt hsound) h
    exact ⟨htable, hsound', (hcallable _ hmem).equality c hc⟩

/-- Every call in a function that was generated, and the call of every closure that a session keeps
    or has ever answered, is one that can be made: of a primitive for the same purpose with as many
    arguments as its contract tells, or of a symbol that stands for a function for the same purpose
    that takes as many. If types have different texts, functions call functions of types with
    smaller numbers. -/
theorem calls_closed (h : Built table) :
    (∀ machine : Machine, Reachable table machine →
      (∀ f, (∃ symbol, machine.session.function? symbol = some f) ∨
          (∃ key, machine.session.functions.get? key = some f) →
        (∀ call ∈ f.calls, machine.session.Callable f.purpose call.1 call.2) ∧
        (table.TextsDistinct → ∀ name count, (Callee.generated name, count) ∈ f.calls →
          ∃ g, machine.session.function? name = some g ∧ g.ty.raw < f.ty.raw)) ∧
      ∀ key c, machine.session.closures.get? key = some c →
        machine.session.Callable key.purpose c.target c.count) ∧
    ∀ earlier machine later : Machine, ∀ purpose c, Reachable table earlier →
      Yields earlier purpose c machine → Leads machine later →
      later.session.Callable purpose c.target c.count := by
  refine ⟨fun machine hreachable => ?_, fun earlier machine later purpose c hreachable hyields hleads => ?_⟩
  · obtain ⟨rfl, hsound⟩ := hreachable.sound h
    refine ⟨fun f hf => ?_, fun key c hc => hsound.callable_target h.lawful (hsound.closures hc)⟩
    have hget : machine.session.functions.get? (f.ty, f.purpose) = some f := by
      rcases hf with ⟨symbol, hf⟩ | ⟨key, hf⟩
      · exact (hsound.known hf).2
      · obtain ⟨hty, hpurpose, _⟩ := of_synthesize_eq_ok (hsound.generated hf).2
        rwa [hty, hpurpose]
    exact ⟨(hsound.typed_generated h.lawful hget).calls,
      fun hdistinct name count => hsound.callee_lt h.lawful hdistinct hget⟩
  · obtain ⟨rfl, hsound⟩ := hreachable.sound h
    obtain ⟨htable, hsound', hcallable⟩ := hyields.callable h hsound
    rw [← htable] at h hsound'
    obtain ⟨_, hsound'', hextends⟩ := hleads.sound h hsound'
    exact hcallable.extend h.lawful hsound' hsound'' hextends

/-- After the first request for the closure that hashes two pairs, what that closure calls can be
    called, and the function of the type calls that of a single pair, which has a smaller number. -/
theorem calls_closed_pairs :
    ∃ (machine : Machine) (c : Closure) (f g : Function), Yields (ofTable pairTable) .hash c machine ∧
      machine.session.Callable .hash c.target c.count ∧
      machine.session.functions.get? (⟨33⟩, .hash) = some f ∧
      (Callee.generated ".hash.pair", 2) ∈ f.calls ∧
      machine.session.Callable .hash (.generated ".hash.pair") 2 ∧
      machine.session.function? ".hash.pair" = some g ∧ g.ty.raw < f.ty.raw := by
  have hbuilt := built_pairTable
  have hspecial : pairTable.Has ⟨33⟩ ∧ pairTable.base ⟨33⟩ = .special := by decide +kernel
  have hcalls : (pairTable.synthesize .hash ⟨33⟩).toOption.map (·.calls) =
      some [(Callee.generated ".hash.pair", 2), (Callee.generated ".hash.pair", 2)] := by
    decide +kernel
  obtain ⟨hclosed, hyielded⟩ := calls_closed hbuilt
  have hclosure : Runs pairTable .empty (EvalM.ofRequest (Session.hashClosure pairTable ⟨33⟩))
      fun answer s => ∃ c, answer = .ok c ∧ Builds pairTable s (closureKey pairTable .hash ⟨33⟩) c :=
    (runs_hashClosure hbuilt (sound_empty _)).ofRequest fun answer s hanswer => by
      cases answer with
      | error e => exact absurd ⟨hspecial.1, by rw [hspecial.2]; decide⟩ hanswer
      | ok c => exact ⟨c, rfl, hanswer⟩
  obtain ⟨hsound, _, c, hc, hbuilds⟩ := hclosure
  have hyields : Yields (ofTable pairTable) .hash c
      ((Request.hashClosure ⟨33⟩).after (ofTable pairTable)) := .hash (Prod.ext hc rfl)
  obtain ⟨f, hf, _⟩ := hbuilds.of_special hspecial.2
  obtain ⟨_, hsynthesize⟩ := hsound.generated hf
  obtain ⟨hty, hpurpose, _⟩ := of_synthesize_eq_ok hsynthesize
  have hcall : (Callee.generated ".hash.pair", 2) ∈ f.calls := by
    rw [hsynthesize] at hcalls
    have hlist : f.calls = _ := Option.some.inj hcalls
    rw [hlist]
    exact List.mem_cons_self
  obtain ⟨hcallable, hsmaller⟩ :=
    (hclosed _ (.request (.hashClosure ⟨33⟩) .refl)).1 f (.inr ⟨_, hf⟩)
  obtain ⟨g, hg, hlt⟩ := hsmaller textsDistinct_pairTable _ _ hcall
  exact ⟨_, c, f, g, hyields, hyielded _ _ _ _ c .refl hyields .refl, hf, hcall,
    hpurpose ▸ hcallable _ hcall, hg, hlt⟩

end Machine

end HashEq

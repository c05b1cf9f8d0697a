import HashEq.Proofs.Memo

/-!
# Values computed once

A computation of a value may request other keys of the same table on the way; so
while it runs, there are keys whose cells are empty, further cells come in, and a
key that is requested again may have got its value in between. What happens is
noted as it happens: which computation a request offers for its key, which one is
started, the value a computation finishes with, and the value a request is answered.

* `Memo.Computation`: a computation, with what it offers for the keys it requests;
* `Memo.Step`, `Memo.history`: requests and reads of a fresh table, and what is noted;
* `Memo.Patient`: no key is requested while its value is being computed;
* `Memo.patient_history`: it is so if what is offered for a key never requests it again;
* `Memo.Tells`: the notes tell what the table holds, also while computations run;
* `Memo.once_history`: of the computations offered for a key, that of the first
  request runs and no other, and its value answers all requests;
* `Memo.ask_eq`: requests that add up the answers to others, as computations.
-/

namespace HashEq.Memo

/-! ### Computations -/

/-- A computation of a value. On the way it requests keys of a table: it offers a computation
    for the key, and goes on with the answer. -/
inductive Computation (κ ν : Type)
  | value (v : ν)
  | request (key : κ) (offer : Computation κ ν) (next : ν → Computation κ ν)

/-- What is noted of the requests to a table and of the reads. -/
inductive Event (κ ν : Type)
  | requested (key : κ) (offer : Computation κ ν)
  | started (key : κ) (offer : Computation κ ν)
  | finished (key : κ) (v : ν)
  | answered (key : κ) (v : ν)
  | looked (key : κ) (found : Option ν)
  | counted (n : Nat)
  | listed (vs : List ν)

/-! ### What is noted -/

section Noted

variable {κ ν α : Type} [BEq κ] {events before es : List (Event κ ν)} {event : Event κ ν} {key : κ}
  {v : ν}

namespace Event

@[simp]
def requested? : Event κ ν → Option (κ × Computation κ ν)
  | requested key offer => some (key, offer)
  | _ => none

@[simp]
def started? : Event κ ν → Option (κ × Computation κ ν)
  | started key offer => some (key, offer)
  | _ => none

@[simp]
def finished? : Event κ ν → Option (κ × ν)
  | finished key v => some (key, v)
  | _ => none

@[simp]
def answered? : Event κ ν → Option (κ × ν)
  | answered key v => some (key, v)
  | _ => none

end Event

/-- What the events of one kind say about a key, in order. -/
def noted (kind : Event κ ν → Option (κ × α)) (events : List (Event κ ν)) (key : κ) : List α :=
  events.filterMap fun event => (kind event).bind fun (k, a) => if k == key then some a else none

/-- The computations offered for a key. -/
abbrev requests : List (Event κ ν) → κ → List (Computation κ ν) :=
  noted Event.requested?

/-- The computations started for a key. -/
abbrev starts : List (Event κ ν) → κ → List (Computation κ ν) :=
  noted Event.started?

/-- The values that computations for a key finished with. -/
abbrev finishes : List (Event κ ν) → κ → List ν :=
  noted Event.finished?

/-- The values that requests for a key were answered. -/
abbrev answers : List (Event κ ν) → κ → List ν :=
  noted Event.answered?

/-- The value of a key is being computed. -/
def Open (events : List (Event κ ν)) (key : κ) : Prop :=
  starts events key ≠ [] ∧ finishes events key = []

/-- Each event is related to those before it. -/
def Throughout (P : List (Event κ ν) → Event κ ν → Prop) (events : List (Event κ ν)) : Prop :=
  ∀ before event later, events = before ++ event :: later → P before event

/-- A key that is requested is not being computed. -/
def Heeds (before : List (Event κ ν)) : Event κ ν → Prop
  | .requested key _ => ¬Open before key
  | _ => True

/-- No key is requested while its value is being computed. -/
def Patient (events : List (Event κ ν)) : Prop :=
  Throughout Heeds events

/-- What an event says of those before it. -/
def Justified (before : List (Event κ ν)) : Event κ ν → Prop
  | .started key offer =>
    ∃ earlier, before = earlier ++ [.requested key offer] ∧ requests earlier key = []
  | .looked key found => ∀ v, found = some v ↔ v ∈ answers before key
  | .counted n => ∃ keys : List κ, keys.Nodup ∧ (∀ key, key ∈ keys ↔ requests before key ≠ []) ∧
      n = keys.length
  | .listed vs => ∃ keys : List κ, keys.Nodup ∧ (∀ key, key ∈ keys ↔ answers before key ≠ []) ∧
      keys.Forall₂ (fun key v => v ∈ answers before key) vs
  | .requested _ _ | .finished _ _ | .answered _ _ => True

/-- Of the computations offered for a key, only that of the first request is started, right
    then. Its value answers all requests. Reads tell what has been requested and answered. -/
structure Once (events : List (Event κ ν)) : Prop where
  starts : ∀ key, starts events key = (requests events key).take 1
  answers : ∀ key, requests events key ≠ [] → ∃ v, finishes events key = [v] ∧
    answers events key = List.replicate (requests events key).length v
  justified : Throughout Justified events

@[simp]
theorem noted_append (kind : Event κ ν → Option (κ × α)) (events es : List (Event κ ν)) (key : κ) :
    noted kind (events ++ es) key = noted kind events key ++ noted kind es key :=
  List.filterMap_append

@[simp]
theorem noted_nil (kind : Event κ ν → Option (κ × α)) (key : κ) : noted kind [] key = [] :=
  rfl

@[simp]
theorem noted_cons (kind : Event κ ν → Option (κ × α)) (event : Event κ ν)
    (events : List (Event κ ν)) (key : κ) : noted kind (event :: events) key =
      ((kind event).bind fun (k, a) => if k == key then some a else none).toList ++
        noted kind events key := by
  rw [noted, List.filterMap_cons]
  cases (kind event).bind _ <;> rfl

/-- An event of another kind says nothing. -/
theorem noted_concat_of_eq_none {kind : Event κ ν → Option (κ × α)} (h : kind event = none)
    (events : List (Event κ ν)) (key : κ) :
    noted kind (events ++ [event]) key = noted kind events key := by
  rw [noted_append, noted_cons, h, noted_nil, Option.bind_none, Option.toList_none, List.append_nil,
    List.append_nil]

omit [BEq κ] in
theorem throughout_concat {P : List (Event κ ν) → Event κ ν → Prop} :
    Throughout P (events ++ [event]) ↔ Throughout P events ∧ P events event := by
  constructor
  · refine fun h => ⟨fun before e later heq => ?_, h events event [] rfl⟩
    exact h before e (later ++ [event]) (by rw [heq, List.append_assoc, List.cons_append])
  · rintro ⟨h, hevent⟩ before e later heq
    rcases later.eq_nil_or_concat with rfl | ⟨later, last, rfl⟩
    · obtain ⟨rfl, hlast⟩ := List.append_inj' heq rfl
      cases hlast
      exact hevent
    · rw [List.concat_eq_append, ← List.cons_append, ← List.append_assoc] at heq
      exact h before e later (List.append_inj' heq rfl).1

omit [BEq κ] in
theorem Throughout.of_isPrefix {P : List (Event κ ν) → Event κ ν → Prop} (h : Throughout P events)
    (hbefore : before <+: events) : Throughout P before := by
  obtain ⟨later, rfl⟩ := hbefore
  intro b e l heq
  exact h b e (l ++ later) (by rw [heq, List.append_assoc, List.cons_append])

end Noted

/-! ### Steps -/

section Steps

variable {κ ν : Type} [BEq κ] [Hashable κ]

/-- A table, and what has been noted so far. -/
structure Record (κ ν : Type) [BEq κ] [Hashable κ] where
  memo : Memo κ ν
  events : List (Event κ ν)

namespace Record

/-- Where a record keeps its table. -/
def place : Place (Record κ ν) κ ν where
  read record := record.memo
  update change record := { record with memo := change record.memo }

/-- Nothing has been requested or noted. -/
def empty : Record κ ν :=
  ⟨Memo.empty, []⟩

end Record

def note (event : Event κ ν) : StateM (Record κ ν) Unit :=
  modify fun record => { record with events := record.events ++ [event] }

/-- Runs a computation; the keys that it requests are obtained from the table. -/
def Computation.run : Computation κ ν → StateM (Record κ ν) ν
  | value v => return v
  | request key offer next => do
    note (.requested key offer)
    let v ← obtain Record.place key do
      note (.started key offer)
      let v ← run offer
      note (.finished key v)
      return v
    note (.answered key v)
    run (next v)

/-- What is done with a table: a request, or a read of one of three kinds. -/
inductive Step (κ ν : Type)
  | request (key : κ) (offer : Computation κ ν)
  | get (key : κ)
  | size
  | values

def Step.run : Step κ ν → StateM (Record κ ν) Unit
  | request key offer => discard (Computation.request key offer .value).run
  | get key => do note (.looked key ((← MonadState.get).memo.get? key))
  | size => do note (.counted (← MonadState.get).memo.size)
  | values => do note (.listed (← MonadState.get).memo.values)

/-- What is noted when the steps are taken with a fresh table. -/
def history (steps : List (Step κ ν)) : List (Event κ ν) :=
  ((steps.forM Step.run).run .empty).2.events

end Steps

/-! ### Running a computation -/

section Run

variable {κ ν : Type} [BEq κ] [Hashable κ] {record : Record κ ν} {key : κ} {v : ν}

namespace Record

/-- A request that finds the value of its key. -/
def reuse (record : Record κ ν) (key : κ) (offer : Computation κ ν) (v : ν) : Record κ ν :=
  ⟨record.memo, record.events ++ [.requested key offer] ++ [.answered key v]⟩

/-- A request that starts the computation it offers. -/
def start (record : Record κ ν) (key : κ) (offer : Computation κ ν) : Record κ ν :=
  ⟨record.memo.reserve key, record.events ++ [.requested key offer] ++ [.started key offer]⟩

/-- The computation started for a key ends, and the request is answered. -/
def finish (record : Record κ ν) (key : κ) (v : ν) : Record κ ν :=
  ⟨record.memo.complete key v, record.events ++ [.finished key v] ++ [.answered key v]⟩

end Record

/-- The value of a key, which is computed unless the table has it. -/
theorem obtain_apply {σ : Type} (place : Place σ κ ν) (key : κ) (compute : StateM σ ν) (s : σ) :
    obtain place key compute s =
      match (place.read s).get? key with
      | some v => (v, s)
      | none =>
        let (v, s') := compute (place.update (·.reserve key) s)
        (v, place.update (·.complete key v) s') := by
  change (match (place.read s).get? key with | some v => pure v | none => _ : StateM σ ν) s = _
  cases (place.read s).get? key with
  | some v => rfl
  | none => rfl

namespace Computation

variable {offer : Computation κ ν} {next : ν → Computation κ ν}

theorem run_request (key : κ) (offer : Computation κ ν) (next : ν → Computation κ ν)
    (record : Record κ ν) :
    (request key offer next).run record =
      match record.memo.get? key with
      | some v => (next v).run (record.reuse key offer v)
      | none =>
        let (v, later) := offer.run (record.start key offer)
        (next v).run (later.finish key v) := by
  rw [run]
  change (fun out : ν × Record κ ν => (next out.1).run
    { out.2 with events := out.2.events ++ [.answered key out.1] })
      ((obtain Record.place key _ : StateM (Record κ ν) ν)
        { record with events := record.events ++ [.requested key offer] }) = _
  rw [obtain_apply]
  dsimp only [Record.place]
  cases record.memo.get? key with
  | some v => rfl
  | none => rfl

/-- A request is answered before the computation goes on. -/
theorem run_request_bind (key : κ) (offer : Computation κ ν) (next : ν → Computation κ ν)
    (record : Record κ ν) :
    (request key offer next).run record =
      (next ((request key offer .value).run record).1).run
        ((request key offer .value).run record).2 := by
  rw [run_request, run_request]
  cases record.memo.get? key with
  | some v => rfl
  | none => rfl

end Computation

end Run

/-! ### What the notes tell -/

section Tells

variable {κ ν : Type} [BEq κ] [Hashable κ] {record : Record κ ν} {key : κ} {v : ν}
  {offer : Computation κ ν}

/-- The notes tell what the table holds. Keys that are being computed have been requested, and
    have no value yet. -/
structure Tells (record : Record κ ν) : Prop where
  cells : ∀ key, key ∈ record.memo.cells ↔ requests record.events key ≠ []
  starts : ∀ key, starts record.events key = (requests record.events key).take 1
  finishes : ∀ key, finishes record.events key = (record.memo.get? key).toList
  answers : ∀ key v, v ∈ answers record.events key ↔ record.memo.get? key = some v
  justified : Throughout Justified record.events

namespace Tells

protected theorem empty : Tells (.empty : Record κ ν) := by
  refine ⟨fun key => ?_, fun key => rfl, fun key => ?_, fun key v => ?_, ?_⟩
  · exact iff_of_false Std.HashMap.not_mem_empty fun h => h rfl
  · rw [Record.empty, get?_empty]
    rfl
  · rw [Record.empty, get?_empty]
    exact iff_of_false List.not_mem_nil nofun
  · intro before event later h
    cases List.nil_eq_append_iff.1 h |>.2

variable [LawfulBEq κ]

theorem open_iff (h : Tells record) : Open record.events key ↔ record.memo.Pending key := by
  rw [Open, h.starts, h.finishes, pending_iff, h.cells, ne_eq, List.take_eq_nil_iff,
    Option.toList_eq_nil_iff]
  simp

theorem mem_of_get? (h : record.memo.get? key = some v) : key ∈ record.memo.cells :=
  Std.HashMap.mem_iff_isSome_getElem?.2 (by rw [get?_eq_some_iff.1 h]; rfl)

protected theorem reuse (h : Tells record) (hv : record.memo.get? key = some v) :
    Tells (record.reuse key offer v) := by
  have hrequests : Memo.requests record.events key ≠ [] := (h.cells key).1 (mem_of_get? hv)
  refine ⟨fun k => ?_, fun k => ?_, fun k => ?_, fun k v' => ?_, ?_⟩
  · by_cases hk : key = k
    · subst hk
      simp [Record.reuse, h.cells, hrequests]
    · simp [Record.reuse, h.cells, hk]
  · by_cases hk : key = k
    · subst hk
      simp [Record.reuse, h.starts, List.take_append_of_le_length (List.length_pos_iff.2 hrequests)]
    · simp [Record.reuse, h.starts, hk]
  · simp [Record.reuse, h.finishes]
  · by_cases hk : key = k
    · subst hk
      simp [Record.reuse, h.answers, hv, @eq_comm _ v' v]
    · simp [Record.reuse, h.answers, hk]
  · exact throughout_concat.2 ⟨throughout_concat.2 ⟨h.justified, trivial⟩, trivial⟩

protected theorem start (h : Tells record) (hkey : key ∉ record.memo.cells) :
    Tells (record.start key offer) := by
  have hnone : Memo.requests record.events key = [] := by rwa [h.cells, not_not] at hkey
  refine ⟨fun k => ?_, fun k => ?_, fun k => ?_, fun k v => ?_, ?_⟩
  · by_cases hk : key = k
    · subst hk
      simp [Record.start, reserve]
    · simp [Record.start, reserve, h.cells, hk]
  · by_cases hk : key = k
    · subst hk
      simp [Record.start, h.starts, hnone]
    · simp [Record.start, h.starts, hk]
  · simp [Record.start, h.finishes, get?_reserve]
  · simp [Record.start, h.answers, get?_reserve]
  · exact throughout_concat.2 ⟨throughout_concat.2 ⟨h.justified, trivial⟩, record.events, rfl, hnone⟩

protected theorem finish (h : Tells record) (hkey : record.memo.Pending key) :
    Tells (record.finish key v) := by
  have hcell := (pending_iff.1 hkey).1
  refine ⟨fun k => ?_, fun k => ?_, fun k => ?_, fun k v' => ?_, ?_⟩
  · by_cases hk : key = k
    · subst hk
      simp [Record.finish, complete, (h.cells key).1 hcell]
    · simp [Record.finish, complete, h.cells, hk]
  · simp [Record.finish, h.starts]
  · by_cases hk : key = k
    · subst hk
      simp [Record.finish, h.finishes, get?_complete, hkey.get?_eq_none]
    · simp [Record.finish, h.finishes, get?_complete, hk]
  · by_cases hk : key = k
    · subst hk
      simp [Record.finish, h.answers, get?_complete, hkey.get?_eq_none, @eq_comm _ v' v]
    · simp [Record.finish, h.answers, get?_complete, hk]
  · exact throughout_concat.2 ⟨throughout_concat.2 ⟨h.justified, trivial⟩, trivial⟩

end Tells

end Tells

/-! ### Runs -/

section Runs

variable {κ ν : Type} [BEq κ] [Hashable κ] {record : Record κ ν}

namespace Computation

/-- What each request adds to a record, a computation adds up. -/
theorem run_induction {R : Record κ ν → Record κ ν → Prop} (hrefl : ∀ record, R record record)
    (htrans : ∀ {a b c}, R a b → R b c → R a c)
    (hreuse : ∀ record key offer v, R record (record.reuse key offer v))
    (hfinish : ∀ {record key offer later} v, R (record.start key offer) later →
      R record (later.finish key v))
    (computation : Computation κ ν) (record : Record κ ν) : R record (computation.run record).2 := by
  induction computation generalizing record with
  | value v => exact hrefl record
  | request key offer next ihoffer ihnext =>
    rw [run_request]
    cases record.memo.get? key with
    | some v => exact htrans (hreuse record key offer v) (ihnext v _)
    | none => exact htrans (hfinish _ (ihoffer (record.start key offer))) (ihnext _ _)

/-- Nothing that was noted is lost. -/
theorem isPrefix_run (computation : Computation κ ν) (record : Record κ ν) :
    record.events <+: (computation.run record).2.events := by
  have hconcat : ∀ events es es' : List (Event κ ν), events <+: events ++ es ++ es' :=
    fun events es es' => (List.prefix_append _ es).trans (List.prefix_append _ es')
  refine run_induction (R := fun record later => record.events <+: later.events)
    (fun _ => List.prefix_rfl) .trans (fun record key offer v => hconcat ..) ?_ computation record
  exact fun v h => (hconcat ..).trans (h.trans (hconcat ..))

theorem isPrefix_request {key : κ} {offer : Computation κ ν} {next : ν → Computation κ ν} :
    record.events ++ [.requested key offer] <+: ((request key offer next).run record).2.events := by
  rw [run_request]
  cases record.memo.get? key with
  | some v => exact (List.prefix_append _ _).trans (isPrefix_run (next v) (record.reuse key offer v))
  | none =>
    have hoffer := isPrefix_run offer (record.start key offer)
    rcases hrun : offer.run (record.start key offer) with ⟨v, later⟩
    rw [hrun] at hoffer
    have hfinish : later.events <+: (later.finish key v).events :=
      (List.prefix_append _ _).trans (List.prefix_append _ _)
    have hnext := isPrefix_run (next v) (later.finish key v)
    exact (List.prefix_append _ _).trans (hoffer.trans (hfinish.trans hnext))

/-- As many requests for a key are answered as are made. -/
theorem length_answers_run (computation : Computation κ ν) (record : Record κ ν) (key : κ) :
    (answers (computation.run record).2.events key).length + (requests record.events key).length =
      (requests (computation.run record).2.events key).length +
        (answers record.events key).length := by
  refine run_induction (R := fun record later => (answers later.events key).length +
    (requests record.events key).length = (requests later.events key).length +
      (answers record.events key).length) ?_ ?_ ?_ ?_ computation record
  · exact fun record => Nat.add_comm ..
  · intro a b c hab hbc
    omega
  · intro record k offer v
    by_cases hk : k == key <;> simp [Record.reuse, answers, requests, hk] <;> omega
  · intro record k offer later v h
    by_cases hk : k == key <;>
      simp [Record.start, Record.finish, answers, requests, hk] at h ⊢ <;> omega

variable [LawfulBEq κ]

/-- While a computation runs that never requests a key being computed, the notes keep telling
    what the table holds. It leaves open what was open before, and nothing else. -/
theorem tells_run (computation : Computation κ ν) {record : Record κ ν} (h : Tells record)
    (hpatient : Patient (computation.run record).2.events) :
    Tells (computation.run record).2 ∧
      ∀ key, (computation.run record).2.memo.Pending key ↔ record.memo.Pending key := by
  induction computation generalizing record with
  | value v => exact ⟨h, fun _ => .rfl⟩
  | request key offer next ihoffer ihnext =>
    -- As the run is patient, the key is not being computed.
    have hfree : ¬record.memo.Pending key := fun hkey =>
      (throughout_concat.1 (hpatient.of_isPrefix isPrefix_request)).2 (h.open_iff.2 hkey)
    cases hget : record.memo.get? key with
    | some v =>
      rw [run_request, hget] at hpatient ⊢
      exact ihnext v (h.reuse hget) hpatient
    | none =>
      have hcell : key ∉ record.memo.cells := fun hcell => hfree (pending_iff.2 ⟨hcell, hget⟩)
      rw [run_request, hget] at hpatient ⊢
      rcases hrun : offer.run (record.start key offer) with ⟨v, later⟩
      rw [hrun] at hpatient
      have hfinish := hpatient.of_isPrefix (isPrefix_run (next v) (later.finish key v))
      have hlater := (throughout_concat.1 (throughout_concat.1 hfinish).1).1
      obtain ⟨hlater, hpending⟩ := ihoffer (h.start hcell) (by rw [hrun]; exact hlater)
      rw [hrun] at hlater hpending
      -- Whatever the offer requested, its own key is still open.
      have hkey : later.memo.Pending key := (hpending key).2 (pending_reserve_iff.2 (.inl ⟨rfl, hcell⟩))
      obtain ⟨hfinal, hpending'⟩ := ihnext v (hlater.finish hkey) hpatient
      refine ⟨hfinal, fun k => ?_⟩
      rw [hpending', Record.finish, pending_complete_iff, hpending, Record.start, pending_reserve_iff]
      constructor
      · rintro ⟨hne, hk | hk⟩
        · exact absurd hk.1 hne
        · exact hk
      · exact fun hk => ⟨fun heq => hfree (heq ▸ hk), .inr hk⟩

/-- A computation never requests a key of `above`, nor does what it offers, and what is offered
    for a key never requests that key again. -/
def Avoids (above : List κ) : Computation κ ν → Prop
  | value _ => True
  | request key offer next => key ∉ above ∧ Avoids (key :: above) offer ∧ ∀ v, Avoids above (next v)

/-- A computation that avoids the keys being computed never requests one. -/
theorem patient_run (computation : Computation κ ν) {record : Record κ ν} {above : List κ}
    (h : Tells record) (hpatient : Patient record.events) (havoids : computation.Avoids above)
    (hpending : ∀ key, record.memo.Pending key → key ∈ above) :
    Patient (computation.run record).2.events := by
  induction computation generalizing record above with
  | value v => exact hpatient
  | request key offer next ihoffer ihnext =>
    obtain ⟨hkey, hoffer, hnext⟩ := havoids
    have hrequested : Patient (record.events ++ [.requested key offer]) :=
      throughout_concat.2 ⟨hpatient, fun hopen => hkey (hpending key (h.open_iff.1 hopen))⟩
    rw [run_request]
    cases hget : record.memo.get? key with
    | some v =>
      exact ihnext v (h.reuse hget) (throughout_concat.2 ⟨hrequested, trivial⟩) (hnext v) hpending
    | none =>
      have hcell : key ∉ record.memo.cells := fun hcell =>
        hkey (hpending key (pending_iff.2 ⟨hcell, hget⟩))
      -- While a key is computed it is one of those to avoid.
      have habove : ∀ k, (record.start key offer).memo.Pending k → k ∈ key :: above := fun k hk =>
        (pending_reserve_iff.1 hk).elim (fun hk => hk.1 ▸ List.mem_cons_self)
          fun hk => List.mem_cons_of_mem key (hpending k hk)
      have hlater := ihoffer (h.start hcell) (throughout_concat.2 ⟨hrequested, trivial⟩) hoffer habove
      obtain ⟨htells, hiff⟩ := tells_run offer (h.start hcell) hlater
      rcases hrun : offer.run (record.start key offer) with ⟨v, later⟩
      rw [hrun] at hlater htells hiff
      have hfinish : Patient (later.finish key v).events :=
        throughout_concat.2 ⟨throughout_concat.2 ⟨hlater, trivial⟩, trivial⟩
      refine ihnext v (htells.finish ((hiff key).2 (pending_reserve_iff.2 (.inl ⟨rfl, hcell⟩)))) hfinish
        (hnext v) fun k hk => ?_
      obtain ⟨hne, hk⟩ := pending_complete_iff.1 hk
      exact (List.mem_cons.1 (habove k ((hiff k).1 hk))).resolve_left hne

end Computation

/-! ### Steps -/

/-- The notes tell what the table holds, nothing is being computed, and all requests have been
    answered. -/
structure Rests (record : Record κ ν) : Prop extends Tells record where
  idle : ∀ key, ¬record.memo.Pending key
  answered : ∀ key, (Memo.answers record.events key).length = (requests record.events key).length

theorem rests_empty : Rests (.empty : Record κ ν) :=
  ⟨.empty, fun _ => not_pending_empty, fun _ => rfl⟩

namespace Rests

/-- A read is noted with what the events before it say. -/
theorem read (h : Rests record) {event : Event κ ν} (hjustified : Justified record.events event)
    (hrequested : event.requested? = none) (hstarted : event.started? = none)
    (hfinished : event.finished? = none) (hanswered : event.answered? = none) :
    Rests ⟨record.memo, record.events ++ [event]⟩ := by
  refine ⟨⟨?_, ?_, ?_, ?_, throughout_concat.2 ⟨h.justified, hjustified⟩⟩, h.idle, ?_⟩
  · simpa only [noted_concat_of_eq_none hrequested] using h.cells
  · simpa only [noted_concat_of_eq_none hrequested, noted_concat_of_eq_none hstarted] using h.starts
  · simpa only [noted_concat_of_eq_none hfinished] using h.finishes
  · simpa only [noted_concat_of_eq_none hanswered] using h.answers
  · simpa only [noted_concat_of_eq_none hrequested, noted_concat_of_eq_none hanswered] using h.answered

variable [LawfulBEq κ]

theorem step (h : Rests record) (step : Step κ ν) (hpatient : Patient (step.run record).2.events) :
    Rests (step.run record).2 := by
  cases step with
  | request key offer =>
    obtain ⟨htells, hpending⟩ := Computation.tells_run (.request key offer .value) h.toTells hpatient
    refine ⟨htells, fun k hk => h.idle k ((hpending k).1 hk), fun k => ?_⟩
    have hlength := Computation.length_answers_run (.request key offer .value) record k
    rw [h.answered] at hlength
    exact Nat.add_right_cancel hlength
  | get key => exact h.read (fun v => (h.answers key v).symm) rfl rfl rfl rfl
  | size =>
    refine h.read ⟨record.memo.cells.keys, Std.HashMap.nodup_keys, fun key => ?_, ?_⟩ rfl rfl rfl rfl
    · rw [Std.HashMap.mem_keys, h.cells]
    · exact Std.HashMap.length_keys.symm
  | values =>
    obtain ⟨keys, hnodup, hmem, hvalues⟩ := forall₂_values record.memo
    refine h.read ⟨keys, hnodup, fun key => ?_, ?_⟩ rfl rfl rfl rfl
    · rw [hmem, ne_eq, List.eq_nil_iff_forall_not_mem, not_forall_not]
      exact exists_congr fun v => (h.answers key v).symm
    · exact hvalues.imp fun key v => (h.answers key v).2

theorem once (h : Rests record) : Once record.events := by
  refine ⟨h.starts, fun key hkey => ?_, h.justified⟩
  cases hget : record.memo.get? key with
  | none => exact absurd (pending_iff.2 ⟨(h.cells key).2 hkey, hget⟩) (h.idle key)
  | some v =>
    refine ⟨v, by rw [h.finishes, hget]; rfl, List.eq_replicate_iff.2 ⟨h.answered key, ?_⟩⟩
    intro v' hv'
    rw [h.answers, hget] at hv'
    exact (Option.some.inj hv').symm

end Rests

theorem isPrefix_step (step : Step κ ν) (record : Record κ ν) :
    record.events <+: (step.run record).2.events := by
  cases step with
  | request key offer => exact Computation.isPrefix_run (.request key offer .value) record
  | get | size | values => exact List.prefix_append _ _

theorem isPrefix_steps (steps : List (Step κ ν)) (record : Record κ ν) :
    record.events <+: ((steps.forM Step.run).run record).2.events := by
  induction steps generalizing record with
  | nil => exact List.prefix_rfl
  | cons step steps ih => exact (isPrefix_step step record).trans (ih (step.run record).2)

variable [LawfulBEq κ]

theorem rests_steps {steps : List (Step κ ν)} (h : Rests record)
    (hpatient : Patient ((steps.forM Step.run).run record).2.events) :
    Rests ((steps.forM Step.run).run record).2 := by
  induction steps generalizing record with
  | nil => exact h
  | cons step steps ih =>
    exact ih (h.step step (hpatient.of_isPrefix (isPrefix_steps steps (step.run record).2))) hpatient

/-- A step whose computation never requests a key again below the request for it. -/
def Step.Avoids : Step κ ν → Prop
  | .request key offer => offer.Avoids [key]
  | .get _ | .size | .values => True

theorem patient_steps {steps : List (Step κ ν)} (havoids : ∀ step ∈ steps, step.Avoids)
    (h : Rests record) (hpatient : Patient record.events) :
    Patient ((steps.forM Step.run).run record).2.events := by
  induction steps generalizing record with
  | nil => exact hpatient
  | cons step steps ih =>
    have hstep : Patient (step.run record).2.events := by
      cases step with
      | request key offer =>
        have hrequest : (Computation.request key offer .value).Avoids [] :=
          ⟨List.not_mem_nil, havoids _ List.mem_cons_self, fun _ => trivial⟩
        exact Computation.patient_run _ h.toTells hpatient hrequest fun k hk => absurd hk (h.idle k)
      | get | size | values => exact throughout_concat.2 ⟨hpatient, trivial⟩
    exact ih (fun s hs => havoids s (List.mem_cons_of_mem step hs)) (h.step step hstep) hstep

/-- If no key is requested below a request for it, none is requested while it is computed. -/
theorem patient_history {steps : List (Step κ ν)} (havoids : ∀ step ∈ steps, step.Avoids) :
    Patient (history steps) :=
  patient_steps havoids rests_empty fun _ _ _ h => nomatch List.nil_eq_append_iff.1 h |>.2

/-- Whatever computations the requests offer, however these request further keys and whatever is
    read in between: of the computations offered for a key, that of the first request runs, and no
    other. Its value answers all requests for the key from then on, and it is what reads find. -/
theorem once_history (steps : List (Step κ ν)) (hpatient : Patient (history steps)) :
    Once (history steps) :=
  (rests_steps rests_empty hpatient).once

/-- The key 2 is requested three times: first below the request for 1, then below the request for
    3, which is below that for 1 as well, and last after a read of its value. -/
def sharing : List (Step Word Word) :=
  [.request 1 (.request 2 (.value 5) fun a => .request 3 (.request 2 (.value 9) .value) fun b =>
      .value (a + b)),
    .get 2, .request 2 (.value 7), .size, .values]

theorem once_history_sharing :
    (∀ step ∈ sharing, step.Avoids) ∧ Patient (history sharing) ∧ Once (history sharing) := by
  have havoids : ∀ step ∈ sharing, step.Avoids := by
    simp [sharing, Step.Avoids, Computation.Avoids]
  exact ⟨havoids, patient_history havoids, once_history sharing (patient_history havoids)⟩

end Runs

/-! ### Requests that add up answers -/

section Requests

namespace Request

/-- The key of a request. -/
def key : Request → Word
  | mk key _ _ => key

mutual

/-- What a request offers for its key. -/
def computation : Request → Computation Word Word
  | mk _ value inner => total value inner

/-- Adds the answers to the requests, made in order, to `sum`. -/
def total (sum : Word) : List Request → Computation Word Word
  | [] => .value sum
  | request :: inner =>
    .request request.key (computation request) fun value => total (sum + value) inner

end

end Request

/-- The keys whose computations have been started, in order. -/
def startedKeys (events : List (Event Word Word)) : List Word :=
  events.filterMap fun event => event.started?.map (·.1)

/-- Of a record, a journal keeps the table and the started keys. -/
def Record.journal (record : Record Word Word) : Journal :=
  ⟨record.memo, (startedKeys record.events).toArray⟩

section Journal

variable (record : Record Word Word) (key value : Word) (offer : Computation Word Word)

theorem journal_reuse : (record.reuse key offer value).journal = record.journal := by
  simp [Record.journal, Record.reuse, startedKeys]

theorem journal_start : (record.start key offer).journal =
    ⟨record.memo.reserve key, record.journal.started.push key⟩ := by
  simp [Record.journal, Record.start, startedKeys]

theorem journal_finish : (record.finish key value).journal =
    Request.place.update (·.complete key value) record.journal := by
  simp [Record.journal, Record.finish, startedKeys, Request.place]

end Journal

mutual

/-- A request is answered like the computation that requests its key. -/
theorem answer_journal : ∀ (request : Request) (record : Record Word Word),
    request.answer record.journal =
      (((Computation.request request.key request.computation .value).run record).1,
        ((Computation.request request.key request.computation .value).run record).2.journal)
  | .mk key value inner, record => by
    rw [Request.answer, obtain_apply, Computation.run_request, Request.key, Request.computation]
    cases hget : record.memo.get? key with
    | some v =>
      rw [show (Request.place.read record.journal).get? key = some v from hget]
      exact congrArg (Prod.mk v) (journal_reuse record key v (Request.total value inner)).symm
    | none =>
      rw [show (Request.place.read record.journal).get? key = none from hget]
      have hinner := answerAll_journal value inner (record.start key (Request.total value inner))
      rw [journal_start] at hinner
      change (fun out : Word × Journal => (out.1, Request.place.update (·.complete key out.1) out.2))
        ((Request.answerAll value inner : StateM Journal Word)
          ⟨record.memo.reserve key, record.journal.started.push key⟩) = _
      rw [hinner]
      exact congrArg (Prod.mk _) (journal_finish _ key _).symm

theorem answerAll_journal : ∀ (sum : Word) (inner : List Request) (record : Record Word Word),
    Request.answerAll sum inner record.journal =
      (((Request.total sum inner).run record).1, ((Request.total sum inner).run record).2.journal)
  | sum, [], record => rfl
  | sum, request :: inner, record => by
    rw [Request.total, Computation.run_request_bind]
    change Request.answerAll (sum + (request.answer record.journal).1) inner
      (request.answer record.journal).2 = _
    rw [answer_journal request record, answerAll_journal]

end

/-- Asking for a key runs the computation that the request offers, in the table alone. -/
theorem ask_eq (memo : Memo Word Word) (request : Request) :
    ask memo request =
      let (value, record) := (Computation.request request.key request.computation .value).run ⟨memo, []⟩
      ((value, startedKeys record.events), record.memo) := by
  have hanswer := answer_journal request ⟨memo, []⟩
  change ((_, (request.answer ⟨memo, #[]⟩).2.started.toList), _) = _
  rw [show (⟨memo, #[]⟩ : Journal) = Record.journal ⟨memo, []⟩ from rfl, hanswer]
  rfl

end Requests

end HashEq.Memo

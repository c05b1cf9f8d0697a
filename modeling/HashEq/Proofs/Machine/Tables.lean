import HashEq.Proofs.Session.Independence
import HashEq.Proofs.Utf8

/-!
# The tables of a session

Whatever is asked of a machine comes to a sequence of requests to its session: the
request itself, and those for closures that the code makes that it runs. What the
session lists, counts and finds by symbols agrees with these requests.

* `Machine.Requested`: the requests that a machine's session has seen;
* `Session.Consistent`: the tables of a session agree with each other and with the
  requests;
* `Machine.tables_consistent`: they do on every machine that can be reached.
-/

namespace HashEq

namespace Session

open TypeTable

variable {table : TypeTable} {s : Session} {made : List Request}

/-- The tables of a session hold what the requests demanded, each thing once and in the order of the
    bytes of the symbols, and they agree with each other. -/
structure Consistent (table : TypeTable) (made : List Request) (s : Session) : Prop where
  functions_increasing : s.functionList.Pairwise fun f g => utf8 f.symbol < utf8 g.symbol
  /-- There is one entry for each function that was demanded. -/
  functions_of_demanded : ∀ ty purpose, Demanded table made (.function ty purpose) →
    ∃ f ∈ s.functionList, f.ty = ty ∧ f.purpose = purpose ∧
      ∀ g ∈ s.functionList, g.ty = ty → g.purpose = purpose → g = f
  /-- There are no other entries. -/
  demanded_of_mem : ∀ f ∈ s.functionList, Demanded table made (.function f.ty f.purpose)
  functions_counted : s.functionList.length = s.functionCount
  functions_found : ∀ f ∈ s.functionList, s.function? f.symbol = some f
  closures_increasing : s.closureList.Pairwise fun c d => utf8 c.symbol < utf8 d.symbol
  /-- There is one entry for each key of a closure that was demanded. -/
  closures_of_demanded : ∀ key, Demanded table made (.closure key) →
    ∃ c ∈ s.closureList, s.closures.get? key = some c ∧ c.symbol = key.symbol table
  /-- There are no other entries, and none stands for two keys. -/
  key_of_mem : ∀ c ∈ s.closureList, ∃ key, s.closures.get? key = some c ∧
    Demanded table made (.closure key) ∧ ∀ key', s.closures.get? key' = some c → key' = key
  closures_counted : s.closureList.length = s.closureCount
  symbols_ne : ∀ c ∈ s.closureList, ∀ f ∈ s.functionList, c.symbol ≠ f.symbol

/-- What was requested of a new session fills its tables. -/
theorem consistent_after (h : Built table) (hdistinct : table.TextsDistinct) (made : List Request) :
    Consistent table made (after table made .empty) := by
  have hs := settled_after h made (settled_empty table)
  have hknows := knows_after_empty h made
  generalize hsession : after table made .empty = s at hs hknows
  have hmem := fun {f} => hs.mem_functionList h.lawful hdistinct (f := f)
  refine ⟨?_, fun ty purpose hcell => ?_, fun f hf => ?_, ?_, fun f hf => ?_, ?_, fun key hcell => ?_,
    fun c hc => ?_, ?_, fun c hc f hf => ?_⟩
  · exact hs.functionList_increasing.imp lt_iff_utf8_lt.1
  · exact hs.functionList_of_knows h.lawful hdistinct ((hknows _).2 hcell)
  · exact (hknows _).1 ⟨f, hmem.1 hf⟩
  · exact hs.length_functionList h.lawful hdistinct
  · exact (hs.function?_eq_some_iff h.lawful hdistinct).2 ⟨rfl, hmem.1 hf⟩
  · exact (hs.closureList_increasing h.lawful hdistinct).imp lt_iff_utf8_lt.1
  · obtain ⟨c, hc⟩ := (hknows _).2 hcell
    exact ⟨c, mem_closureList.2 ⟨key, hc⟩, hc, (hs.symbol_closure h.lawful hc).1⟩
  · obtain ⟨key, hkey⟩ := mem_closureList.1 hc
    exact ⟨key, hkey, (hknows _).1 ⟨c, hkey⟩,
      fun key' hkey' => hs.key_inj h.lawful hdistinct hkey' hkey rfl⟩
  · rw [← hsession]
    exact length_closureList (not_pending_after h made)
  · obtain ⟨key, hkey⟩ := mem_closureList.1 hc
    exact hs.symbol_closure_ne h.lawful hkey (hmem.1 hf)

end Session

namespace Machine

open Session TypeTable

variable {table : TypeTable} {machine : Machine}

/-- The requests that have been made to the session of a machine: those that were asked of the
    machine, each followed by those for closures that the code made that it ran. -/
inductive Requested (table : TypeTable) : Machine → List Session.Request → Prop
  | start : Requested table (ofTable table) []
  | request {machine : Machine} {made : List Session.Request} (request : Request)
      (inner : List Session.Request) : Requested table machine made →
      (∀ closure ∈ inner, closure.IsClosure) →
      (request.after machine).session = Session.after table (request.direct ++ inner) machine.session →
      Requested table (request.after machine) (made ++ (request.direct ++ inner))
  | memory {machine : Machine} {made : List Session.Request} (arena : Arena) :
      Requested table machine made → Requested table { machine with arena } made

theorem Reachable.requested (h : Reachable table machine) :
    machine.table = table ∧ ∃ made, Requested table machine made := by
  induction h with
  | refl => exact ⟨rfl, [], .start⟩
  | @request later request _ ih =>
    obtain ⟨htable, made, hmade⟩ := ih
    obtain ⟨htable', inner, hinner, hsession⟩ := request.session_after later
    rw [htable] at hsession
    exact ⟨htable'.trans htable, _, .request request inner hmade hinner hsession⟩
  | memory arena _ ih =>
    obtain ⟨htable, made, hmade⟩ := ih
    exact ⟨htable, made, .memory arena hmade⟩

theorem Requested.session_eq {made : List Session.Request} (h : Requested table machine made) :
    machine.session = Session.after table made .empty := by
  induction h with
  | start => rfl
  | @request _ made request inner _ _ hsession ih => rw [hsession, ih, Session.after_append made]
  | memory arena _ ih => exact ih

/-- What would follow a request is not done when it is refused. -/
theorem refused_bind {α β : Type} {request : SessionM α} (next : α → EvalM β) {s : Session}
    {e : RequestError} (he : (request s).1 = .error e) :
    ((EvalM.ofRequest request >>= next) s).2 = (request s).2 := by
  rw [bind_apply]
  have hrequest : EvalM.ofRequest request s = (.error (.ofRequest e), (request s).2) := by
    change ((request s).1.mapError EvalError.ofRequest, (request s).2) = _
    rw [he]
    rfl
  rw [hrequest]

/-- If the session refuses a request, no code is run. -/
theorem Request.session_of_refused {request : Request} {direct : Session.Request} {e : RequestError}
    (hdirect : request.direct = [direct])
    (he : (direct.run machine.table machine.session).1 = .error e) :
    (request.after machine).session = (direct.run machine.table machine.session).2 := by
  cases request with
  | hashClosure ty | equalityClosure ty | generate purpose ty | hashCallee ty | equalityCallee ty
  | generateAll types =>
    cases hdirect
    rfl
  | store ty value fill => cases hdirect
  | call callee args => cases hdirect
  | callClosure target payload args => cases hdirect
  | hash ty p seed =>
    cases hdirect
    rw [Request.after, hash_eq]
    change (Session.hashClosure machine.table ty machine.session).1 = _ at he
    exact refused_bind _ he
  | equal ty p q =>
    cases hdirect
    rw [Request.after, equal_eq]
    change (Session.equalityClosure machine.table ty machine.session).1 = _ at he
    exact refused_bind _ he

/-- On every machine that can be reached, the tables of the session agree with each other and with
    the requests that were made, and requests that are refused leave them as they are. -/
theorem tables_consistent (h : Built table) (hdistinct : table.TextsDistinct)
    (hreachable : Reachable table machine) :
    (∃ made, Requested table machine made) ∧
    (∀ made, Requested table machine made → Consistent table made machine.session) ∧
    ∀ (request : Request) (direct : Session.Request) (e : RequestError), request.direct = [direct] →
      (direct.run table machine.session).1 = .error e → (∀ f, e ≠ .fault f) →
      Alike (request.after machine).session machine.session := by
  obtain ⟨htable, made, hmade⟩ := hreachable.requested
  refine ⟨⟨made, hmade⟩, fun made hmade => ?_, fun request direct e hdirect he hfault => ?_⟩
  · rw [hmade.session_eq]
    exact consistent_after h hdistinct made
  · rw [← htable] at he
    rw [request.session_of_refused hdirect he, htable]
    rw [htable, hmade.session_eq] at he
    rw [hmade.session_eq]
    have halike := alike_of_refused h hdistinct he hfault
    rwa [after_append] at halike

/-- A struct of two pairs for which a hash closure was requested: its hash function is listed, and a
    request for a function of strings, which is refused, adds nothing. -/
theorem tables_consistent_pairs :
    let machine := (Request.hashClosure ⟨33⟩).after pairMachine
    (∃ f ∈ machine.session.functionList, f.ty = ⟨33⟩ ∧ f.purpose = .hash) ∧
    machine.session.functionList.length = machine.session.functionCount ∧
    Alike ((Request.generate .hash ⟨14⟩).after machine).session machine.session := by
  intro machine
  have hreachable : Reachable pairTable machine :=
    .request (.hashClosure ⟨33⟩) reachable_pairMachine
  obtain ⟨_, hconsistent, hrefused⟩ :=
    tables_consistent built_pairTable textsDistinct_pairTable hreachable
  have hmade : Requested pairTable machine [.hashClosure ⟨33⟩] := by
    have hstart : Requested pairTable pairMachine [] := .memory pairMachine.arena .start
    exact .request (.hashClosure ⟨33⟩) [] hstart (fun _ hmem => absurd hmem List.not_mem_nil) rfl
  have htables := hconsistent _ hmade
  have hdemanded : Demanded pairTable [.hashClosure ⟨33⟩] (.function ⟨33⟩ .hash) := by
    have hcells : Session.Request.cells pairTable (.hashClosure ⟨33⟩) =
        [.closure (.generated ⟨33⟩ .hash)] := by decide +kernel
    refine demanded_iff.2 ⟨_, List.mem_singleton_self _, ?_⟩
    rw [hcells, needed_singleton]
    exact .inl (needed_of_mem (List.mem_append_right _ (List.mem_singleton_self _)))
  refine ⟨?_, htables.functions_counted, ?_⟩
  · obtain ⟨f, hf, hty, hpurpose, _⟩ := htables.functions_of_demanded _ _ hdemanded
    exact ⟨f, hf, hty, hpurpose⟩
  · have hstring : pairTable.Has ⟨14⟩ ∧ pairTable.base ⟨14⟩ ≠ .special := by decide +kernel
    have hgives := gives_generate_refused built_pairTable.lawful hstring.1 hstring.2 .hash
    exact hrefused (.generate .hash ⟨14⟩) _ _ rfl
      (hgives.answers (hreachable.settled built_pairTable)) fun _ => refusal_ne_fault

end Machine

end HashEq

import HashEq.Proofs.NameTable
import HashEq.Proofs.Session.Lists
import HashEq.Proofs.Session.Sequences

/-!
# Functions by name

The functions of a session are kept by name: the symbol of a function is given a name,
and this number leads to the function. All texts share one name table, so the number
depends on whatever was given a name before. It shows nowhere: a function is found by the
text of its symbol, and the functions are listed in the order of these texts.

* `NamedFunctions.run`: functions are registered, and other texts are given names;
* `Keeps`: functions are found by name where a session finds them by symbol;
* `Keeps.assign`, `Keeps.insert`: what is done to names and functions keeps them right, and
  `keeps_run`: so does a run;
* `Keeps.functionList_eq`: the list of functions is the same whatever their names;
* `named_after`: all of this for the functions that requests to a session register.
-/

namespace HashEq

namespace NameTable

variable {table later : NameTable} {text s t : String} {name : Name}

/-- A name stands for one text. -/
theorem Consistent.eq_of_find? (h : table.Consistent) (hs : table.find? s = some name)
    (ht : table.find? t = some name) : s = t :=
  Option.some.inj (((h s name).1 hs).symm.trans ((h t name).1 ht))

theorem Consistent.lookup_eq (h : table.Consistent) (hs : table.find? s = some name) :
    table.lookup name = s := by
  rw [lookup, (h s name).1 hs, Option.getD_some]

section Assign

variable (hassign : table.assign text = .ok (name, later))
include hassign

theorem Consistent.assign (h : table.Consistent) : later.Consistent := by
  rcases assign_cases hassign with ⟨_, rfl⟩ | ⟨hnew, _, hpush⟩
  · exact h
  · have hlater := h.push hnew
    rwa [hpush] at hlater

/-- Only the text that is given a name can be new. -/
theorem find?_assign_eq (s : String) :
    later.find? s = if text = s then some name else table.find? s := by
  split
  · next heq => exact heq ▸ find?_of_assign hassign
  · next hne =>
    rcases assign_cases hassign with ⟨_, rfl⟩ | ⟨_, _, hpush⟩
    · rfl
    · have hfind := find?_push table text s
      rwa [hpush, if_neg hne] at hfind

theorem size_assign_le_succ : later.size ≤ table.size + 1 := by
  rcases assign_cases hassign with ⟨_, rfl⟩ | ⟨_, _, hpush⟩
  · exact Nat.le_succ _
  · have hsize : (table.push text).2.size = table.size + 1 := Array.size_push text
    rw [hpush] at hsize
    exact Nat.le_of_eq hsize

end Assign

/-- As long as there are names left, every text is given one. -/
theorem exists_assign (text : String) (h : table.size < UInt32.size) :
    ∃ name later, table.assign text = .ok (name, later) :=
  ⟨_, _, if_pos (.inr h)⟩

end NameTable

/-! ### Names and functions -/

/-- The functions that were registered, by the names of their symbols. -/
structure NamedFunctions where
  names : NameTable
  functions : Std.HashMap Name Function

namespace NamedFunctions

/-- What gives a name to a text: a function is registered under its symbol, or some other text is
    named. -/
inductive Event
  | text (text : String)
  | register (f : Function)

/-- The function that is registered, if one is. -/
def Event.function? : Event → Option Function
  | text _ => none
  | register f => some f

/-- Nothing is registered yet. -/
def empty : NamedFunctions :=
  ⟨.initial, ∅⟩

/-- What an event does, if there is a name for the text. -/
def step (named : NamedFunctions) : Event → Except String NamedFunctions
  | .text text => do
    let (_, names) ← named.names.assign text
    return ⟨names, named.functions⟩
  | .register f => do
    let (name, names) ← named.names.assign f.symbol
    return ⟨names, named.functions.insert name f⟩

/-- What is left after some events, if there were enough names. -/
def run (named : NamedFunctions) (events : List Event) : Except String NamedFunctions :=
  events.foldlM step named

/-- The function whose symbol is a given text. -/
def function? (named : NamedFunctions) (symbol : String) : Option Function :=
  (named.names.find? symbol).bind fun name => named.functions[name]?

/-- The functions, sorted by the texts that their names stand for. -/
def functionList (named : NamedFunctions) : List Function :=
  (named.functions.toList.mergeSort fun a b =>
    named.names.lookup a.1 ≤ named.names.lookup b.1).map (·.2)

/-- Functions are found by name where others are found by symbol. -/
structure Keeps (named : NamedFunctions) (registered : Std.HashMap String Function) : Prop where
  consistent : named.names.Consistent
  /-- A function is kept by the name of its symbol. -/
  symbol : ∀ name f, named.functions[name]? = some f → named.names.find? f.symbol = some name
  function? : ∀ symbol, named.function? symbol = registered[symbol]?

variable {named later : NamedFunctions} {registered : Std.HashMap String Function}
  {names : NameTable} {functions : Std.HashMap Name Function} {text : String} {name : Name}
  {f : Function} {event : Event} {events : List Event}

/-! ### What events do -/

theorem keeps_empty : Keeps empty ∅ where
  consistent := NameTable.knows_initial.consistent
  symbol name f hf := by
    rw [empty, Std.HashMap.getElem?_empty] at hf
    cases hf
  function? symbol := by
    rw [Std.HashMap.getElem?_empty]
    exact Option.bind_eq_none_iff.2 fun name _ => Std.HashMap.getElem?_empty

/-- Giving a name to a text changes nothing, as no function is kept by a name that is new. -/
theorem Keeps.assign (h : Keeps ⟨names, functions⟩ registered) {laterNames : NameTable}
    (hassign : names.assign text = .ok (name, laterNames)) :
    Keeps ⟨laterNames, functions⟩ registered := by
  have hconsistent := h.consistent.assign hassign
  have hsymbol : ∀ name f, functions[name]? = some f → laterNames.find? f.symbol = some name :=
    fun name f hf => NameTable.find?_assign hassign (h.symbol name f hf)
  refine ⟨hconsistent, hsymbol, fun symbol => ?_⟩
  rw [← h.function? symbol, NamedFunctions.function?, NamedFunctions.function?,
    NameTable.find?_assign_eq hassign]
  dsimp only
  split
  · next heq =>
    subst heq
    refine Option.ext fun f => ⟨fun hf => ?_, fun hf => ?_⟩
    · -- The function is kept by the name, so that the text had the name before.
      have hold : names.find? f.symbol = some name := h.symbol name f hf
      have heq := hconsistent.eq_of_find? (hsymbol name f hf) (NameTable.find?_of_assign hassign)
      exact Option.bind_eq_some_iff.2 ⟨name, heq ▸ hold, hf⟩
    · obtain ⟨old, hold, hf⟩ := Option.bind_eq_some_iff.1 hf
      have heq := (NameTable.find?_assign hassign hold).symm.trans (NameTable.find?_of_assign hassign)
      cases heq
      exact hf
  · rfl

/-- A function is put where its symbol leads. -/
theorem Keeps.insert (h : Keeps ⟨names, functions⟩ registered)
    (hname : names.find? f.symbol = some name) :
    Keeps ⟨names, functions.insert name f⟩ (registered.insert f.symbol f) := by
  refine ⟨h.consistent, fun other g hg => ?_, fun symbol => ?_⟩
  · rw [Std.HashMap.getElem?_insert] at hg
    split at hg
    · next heq =>
      cases eq_of_beq heq
      cases hg
      exact hname
    · exact h.symbol other g hg
  · rw [Std.HashMap.getElem?_insert, ← h.function? symbol, NamedFunctions.function?,
      NamedFunctions.function?]
    dsimp only
    by_cases hsymbol : f.symbol = symbol
    · subst hsymbol
      rw [hname, Option.bind_some, Std.HashMap.getElem?_insert_self, if_pos (beq_self_eq_true _)]
    · -- Another symbol has another name.
      rw [if_neg fun hbeq => hsymbol (eq_of_beq hbeq)]
      refine Option.bind_congr fun other hother => ?_
      rw [Std.HashMap.getElem?_insert, if_neg]
      intro hbeq
      cases eq_of_beq hbeq
      exact hsymbol (h.consistent.eq_of_find? hname hother)

theorem Keeps.step (h : Keeps named registered) (hstep : named.step event = .ok later) :
    Keeps later (Session.registerAll event.function?.toList registered) := by
  cases event with
  | text text =>
    obtain ⟨⟨name, names⟩, hassign, hstep⟩ := bind_eq_ok_iff.1 hstep
    cases hstep
    exact h.assign hassign
  | register f =>
    obtain ⟨⟨name, names⟩, hassign, hstep⟩ := bind_eq_ok_iff.1 hstep
    cases hstep
    exact (h.assign hassign).insert (NameTable.find?_of_assign hassign)

/-- A run registers the functions of its events, whatever else is given a name. -/
theorem keeps_run (h : Keeps named registered) (hrun : named.run events = .ok later) :
    Keeps later (Session.registerAll (events.filterMap Event.function?) registered) := by
  induction events generalizing named registered with
  | nil =>
    cases hrun
    exact h
  | cons event events ih =>
    rw [run, List.foldlM_cons] at hrun
    obtain ⟨middle, hstep, hrun⟩ := bind_eq_ok_iff.1 hrun
    have hlater := ih (h.step hstep) hrun
    rw [Session.registerAll, Session.registerAll, ← List.foldl_append] at hlater
    cases event with
    | text text => exact hlater
    | register f => exact hlater

/-- There are names for all texts as long as there are no more texts than names. -/
theorem exists_run (hroom : named.names.size + events.length ≤ UInt32.size) :
    ∃ later, named.run events = .ok later := by
  induction events generalizing named with
  | nil => exact ⟨named, rfl⟩
  | cons event events ih =>
    rw [List.length_cons] at hroom
    have hfree : named.names.size < UInt32.size := by omega
    obtain ⟨middle, hstep, hsize⟩ : ∃ middle, named.step event = .ok middle ∧
        middle.names.size ≤ named.names.size + 1 := by
      cases event with
      | text text =>
        obtain ⟨name, names, hassign⟩ := NameTable.exists_assign text hfree
        exact ⟨_, bind_eq_ok_iff.2 ⟨_, hassign, rfl⟩, NameTable.size_assign_le_succ hassign⟩
      | register f =>
        obtain ⟨name, names, hassign⟩ := NameTable.exists_assign f.symbol hfree
        exact ⟨_, bind_eq_ok_iff.2 ⟨_, hassign, rfl⟩, NameTable.size_assign_le_succ hassign⟩
    have hroom : middle.names.size + events.length ≤ UInt32.size := by omega
    obtain ⟨later, hrun⟩ := ih hroom
    exact ⟨later, bind_eq_ok_iff.2 ⟨middle, hstep, hrun⟩⟩

/-! ### What a session shows -/

namespace Keeps

variable {s : Session} (h : Keeps named s.registered)
include h

theorem symbol_eq {symbol : String} (hf : s.function? symbol = some f) : f.symbol = symbol := by
  rw [Session.function?, ← h.function? symbol] at hf
  obtain ⟨name, hname, hf⟩ := Option.bind_eq_some_iff.1 hf
  exact h.consistent.eq_of_find? (h.symbol name f hf) hname

theorem mem_functionList : f ∈ named.functionList ↔ f ∈ s.functionList := by
  rw [functionList, List.mem_map, Session.functionList, List.mem_mergeSort, mem_values_iff]
  constructor
  · rintro ⟨⟨name, f⟩, hmem, rfl⟩
    have hf := Std.HashMap.mem_toList_iff_getElem?_eq_some.1 (List.mem_mergeSort.1 hmem)
    refine ⟨f.symbol, ?_⟩
    rw [← h.function? f.symbol]
    exact Option.bind_eq_some_iff.2 ⟨name, h.symbol name f hf, hf⟩
  · rintro ⟨symbol, hf⟩
    rw [← h.function? symbol] at hf
    obtain ⟨name, _, hf⟩ := Option.bind_eq_some_iff.1 hf
    exact ⟨(name, f),
      List.mem_mergeSort.2 (Std.HashMap.mem_toList_iff_getElem?_eq_some.2 hf), rfl⟩

/-- The functions are listed in the same order, which is that of the texts and not of the names. -/
theorem functionList_eq : named.functionList = s.functionList := by
  have hlookup : ∀ p ∈ named.functions.toList, named.names.lookup p.1 = p.2.symbol := fun p hp =>
    h.consistent.lookup_eq (h.symbol p.1 p.2 (Std.HashMap.mem_toList_iff_getElem?_eq_some.1 hp))
  have hne : named.functions.toList.Pairwise fun p q =>
      named.names.lookup p.1 ≠ named.names.lookup q.1 := by
    refine (pairwise_toList named.functions).imp fun {p q} hpq heq => hpq.2.2 ?_
    have hp := h.symbol p.1 p.2 hpq.1
    have hq := h.symbol q.1 q.2 hpq.2.1
    rw [h.consistent.lookup_eq hp, h.consistent.lookup_eq hq] at heq
    rw [heq, hq] at hp
    exact (Option.some.inj hp).symm
  have hincreasing : named.functionList.Pairwise fun f g => f.symbol < g.symbol := by
    rw [functionList, List.pairwise_map]
    refine (increasing_mergeSort hne).imp_of_mem fun hp hq hlt => ?_
    rwa [hlookup _ (List.mem_mergeSort.1 hp), hlookup _ (List.mem_mergeSort.1 hq)] at hlt
  have hincreasing' : s.functionList.Pairwise fun f g => f.symbol < g.symbol := by
    refine increasing_mergeSort (pairwise_values fun hf hg hne heq => hne ?_)
    rw [← h.symbol_eq hf, ← h.symbol_eq hg, heq]
  exact eq_of_increasing hincreasing hincreasing' fun f => h.mem_functionList

end Keeps

/-- Requests to a session register functions in some order. Kept by name, whatever else is given a
    name before, between and after, they are found and listed as the session finds and lists them. -/
theorem named_after {table : TypeTable} (h : TypeTable.Built table) (made : List Session.Request) :
    ∃ fs : List Function, fs.length = (Session.after table made .empty).functionCount ∧
      ∀ events named, events.filterMap Event.function? = fs → empty.run events = .ok named →
        (∀ symbol, named.function? symbol = (Session.after table made .empty).function? symbol) ∧
          named.functionList = (Session.after table made .empty).functionList := by
  obtain ⟨fs, hregistered, hcount⟩ :=
    (Session.grown_after h made (Session.settled_empty table)).registers
  refine ⟨fs, (hcount.trans (Nat.zero_add _)).symm, fun events named hevents hrun => ?_⟩
  have hkeeps := keeps_run keeps_empty hrun
  rw [hevents] at hkeeps
  have hkeeps : Keeps named (Session.after table made .empty).registered := hregistered ▸ hkeeps
  exact ⟨hkeeps.function?, hkeeps.functionList_eq⟩

end NamedFunctions

end HashEq

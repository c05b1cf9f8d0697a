import HashEq.NameTable
import Mathlib.Data.Finset.Card
import Mathlib.Data.Finset.Dedup
import Mathlib.Data.List.TakeWhile

/-!
# Names and texts

The map and the texts of a name table are inverse to each other, from the texts known
from the start on and whatever is asked of the table. So names and texts correspond one
to one, and a name stands for its text forever.

* `Consistent.push`: the map and the texts stay inverse to each other;
* `Knows.push`, `Knows.assign`: what a table knows after one more text;
* `knows_afterFirst`: what a table knows after some calls;
* `answer_eq_error_iff`: when a call is refused;
* `names_correspond`: the names that calls are given, and what they stand for.
-/

namespace HashEq

namespace NameTable

/-! ### Tables that know texts -/

/-- The map finds a text exactly under the name at which the text stands. -/
def Consistent (table : NameTable) : Prop :=
  ∀ text name, table.find? text = some name ↔ table.texts[name.index]? = some text

/-- The number of different texts among some. -/
def distinct (texts : List String) : Nat :=
  texts.toFinset.card

/-- The number of different texts before the first occurrence of a text. -/
def rank (texts : List String) (text : String) : Nat :=
  distinct (texts.takeWhile (· ≠ text))

/-- A table knows some texts, listed as they came, and no others. -/
structure Knows (table : NameTable) (texts : List String) : Prop where
  consistent : table.Consistent
  mem_iff : ∀ text, text ∈ table.texts ↔ text ∈ texts
  index_eq : ∀ text name, table.find? text = some name → name.index = rank texts text

variable {table later : NameTable} {texts : List String} {text s : String} {name a : Name}

/-! ### Numbers of texts -/

theorem distinct_concat_of_mem (h : text ∈ texts) : distinct (texts ++ [text]) = distinct texts := by
  rw [distinct, List.toFinset_append, Finset.union_eq_left.2 (by simpa using h), distinct]

theorem distinct_concat_of_not_mem (h : text ∉ texts) :
    distinct (texts ++ [text]) = distinct texts + 1 := by
  have hnew : text ∉ texts.toFinset := mt List.mem_toFinset.1 h
  rw [distinct, List.toFinset_append, Finset.union_comm, List.toFinset_cons, List.toFinset_nil,
    Finset.insert_union, Finset.empty_union, Finset.card_insert_of_notMem hnew, distinct]

/-- Texts that come later do not change the rank of one that is listed. -/
theorem rank_append_of_mem (h : text ∈ texts) (rest : List String) :
    rank (texts ++ rest) text = rank texts text := by
  have hlength : ¬(texts.takeWhile (· ≠ text)).length = texts.length := fun hlength => by
    have hself := (List.takeWhile_prefix (l := texts) (· ≠ text)).eq_of_length hlength
    simpa using List.takeWhile_eq_self_iff.1 hself text h
  rw [rank, List.takeWhile_append, if_neg hlength, rank]

theorem rank_concat_of_not_mem (h : text ∉ texts) : rank (texts ++ [text]) text = distinct texts := by
  have hne : ∀ s ∈ texts, decide (s ≠ text) = true := fun s hs =>
    decide_eq_true fun heq => h (heq ▸ hs)
  rw [rank, List.takeWhile_append_of_pos hne]
  simp

/-! ### One more text -/

/-- No text stands in a table twice. -/
theorem Consistent.nodup (h : table.Consistent) : table.texts.toList.Nodup := by
  rw [List.nodup_iff_getElem?_ne_getElem?]
  intro i j hij hj heq
  obtain ⟨text, hi⟩ : ∃ text, table.texts.toList[i]? = some text :=
    ⟨_, List.getElem?_eq_getElem (Nat.lt_trans hij hj)⟩
  have hj' := heq.symm.trans hi
  rw [Array.getElem?_toList] at hi hj'
  have hname := ((h text ⟨i⟩).2 hi).symm.trans ((h text ⟨j⟩).2 hj')
  rw [Option.some.injEq, Name.mk.injEq] at hname
  omega

/-- A name that was given is less than the number of texts. -/
theorem Consistent.index_lt (h : table.Consistent) (hfind : table.find? text = some name) :
    name.index < table.size :=
  (Array.getElem?_eq_some_iff.1 ((h text name).1 hfind)).1

/-- The map and the texts stay inverse to each other when a new text is put behind the others. -/
theorem Consistent.push (h : table.Consistent) (hnew : table.find? text = none) :
    (table.push text).2.Consistent := by
  intro s name
  rw [find?_push, texts_push, Array.getElem?_push]
  by_cases hs : text = s
  · -- The new text stands nowhere but at the end.
    subst hs
    rw [if_pos rfl, Option.some.injEq]
    split
    · next hindex => exact iff_of_true (Name.ext hindex.symm) rfl
    · next hindex =>
      refine iff_of_false (fun heq => hindex (by rw [← heq]; rfl)) fun hget => ?_
      rw [(h text name).2 hget] at hnew
      cases hnew
  · -- Nothing else stands there, and no other name was that large.
    rw [if_neg hs]
    split
    · next hindex =>
      refine iff_of_false (fun hfind => ?_) fun heq => hs (Option.some.inj heq)
      exact absurd hindex (Nat.ne_of_lt (h.index_lt hfind))
    · exact h s name

namespace Knows

theorem exists_find? (h : Knows table texts) (hmem : text ∈ texts) :
    ∃ name, table.find? text = some name := by
  obtain ⟨i, hi⟩ := Array.mem_iff_getElem?.1 ((h.mem_iff text).2 hmem)
  exact ⟨⟨i⟩, (h.consistent text ⟨i⟩).2 hi⟩

theorem mem_of_find? (h : Knows table texts) (hfind : table.find? text = some name) :
    text ∈ texts :=
  (h.mem_iff text).1 (Array.mem_of_getElem? ((h.consistent text name).1 hfind))

theorem find?_eq_none_iff (h : Knows table texts) : table.find? text = none ↔ text ∉ texts := by
  refine ⟨fun hnone hmem => ?_, fun hnew => Option.eq_none_iff_forall_ne_some.2 fun _ hfind => ?_⟩
  · obtain ⟨name, hname⟩ := h.exists_find? hmem
    rw [hnone] at hname
    cases hname
  · exact hnew (h.mem_of_find? hfind)

theorem size_eq (h : Knows table texts) : table.size = distinct texts := by
  have htexts : table.texts.toList.toFinset = texts.toFinset := by
    ext text
    rw [List.mem_toFinset, List.mem_toFinset, Array.mem_toList_iff, h.mem_iff]
  rw [distinct, ← htexts, List.toFinset_card_of_nodup h.consistent.nodup, Array.length_toList, size]

/-- A text that is known already changes nothing. -/
theorem concat_of_mem (h : Knows table texts) (hmem : text ∈ texts) :
    Knows table (texts ++ [text]) := by
  refine ⟨h.consistent, fun s => ?_, fun s name hfind => ?_⟩
  · rw [h.mem_iff, List.mem_append, List.mem_singleton]
    exact ⟨.inl, fun hs => hs.elim id fun heq => heq ▸ hmem⟩
  · rw [rank_append_of_mem (h.mem_of_find? hfind), h.index_eq s name hfind]

/-- A new text is put behind the others. -/
theorem push (h : Knows table texts) (hnew : text ∉ texts) :
    Knows (table.push text).2 (texts ++ [text]) := by
  refine ⟨h.consistent.push (h.find?_eq_none_iff.2 hnew), fun s => ?_, fun s name hfind => ?_⟩
  · rw [texts_push, Array.mem_push, h.mem_iff, List.mem_append, List.mem_singleton]
  · rw [find?_push] at hfind
    split at hfind
    · next hs =>
      subst hs
      cases hfind
      rw [rank_concat_of_not_mem hnew, ← h.size_eq]
    · rw [rank_append_of_mem (h.mem_of_find? hfind), h.index_eq s name hfind]

/-- Different new texts are put behind the others in order. -/
theorem push_all {new : List String} (h : Knows table texts) (hnodup : (texts ++ new).Nodup) :
    Knows (new.foldl (fun table text => (table.push text).2) table) (texts ++ new) := by
  induction new generalizing table texts with
  | nil => rwa [List.append_nil]
  | cons text new ih =>
    have hnew : text ∉ texts := fun hmem =>
      (List.nodup_append.1 hnodup).2.2 text hmem text List.mem_cons_self rfl
    rw [List.append_cons] at hnodup ⊢
    exact ih (h.push hnew) hnodup

end Knows

theorem knows_empty : Knows empty [] := by
  have hnone : ∀ text, empty.find? text = none := fun text => Std.HashMap.getElem?_empty
  refine ⟨fun text name => ?_, fun text => ?_, fun text name hfind => ?_⟩
  · rw [hnone]
    exact iff_of_false nofun (by simp [empty])
  · simp [empty]
  · rw [hnone] at hfind
    cases hfind

/-- The texts known from the start are different, so they can be put into the table unseen. -/
theorem knows_initial : Knows initial wellKnown :=
  knows_empty.push_all (by decide)

section Assign

variable (hassign : table.assign text = .ok (name, later))
include hassign

/-- A text that is given a name is known from then on. -/
theorem Knows.assign (h : Knows table texts) : Knows later (texts ++ [text]) := by
  rcases assign_cases hassign with ⟨hfind, rfl⟩ | ⟨hnew, _, hpush⟩
  · exact h.concat_of_mem (h.mem_of_find? hfind)
  · have hknows := h.push (h.find?_eq_none_iff.1 hnew)
    rwa [hpush] at hknows

theorem find?_of_assign : later.find? text = some name := by
  rcases assign_cases hassign with ⟨hfind, rfl⟩ | ⟨_, _, hpush⟩
  · exact hfind
  · have hfind := find?_push table text text
    rw [hpush, if_pos rfl] at hfind
    exact hfind.trans (congrArg (some ·.1) hpush)

/-- Other texts keep their names. -/
theorem find?_assign (hs : table.find? s = some a) : later.find? s = some a := by
  rcases assign_cases hassign with ⟨_, rfl⟩ | ⟨hnew, _, hpush⟩
  · exact hs
  · have hfind := find?_push table text s
    have hne : text ≠ s := fun heq => by
      rw [heq, hs] at hnew
      cases hnew
    rwa [hpush, if_neg hne, hs] at hfind

theorem size_assign_le (h : table.size ≤ UInt32.size) : later.size ≤ UInt32.size := by
  rcases assign_cases hassign with ⟨_, rfl⟩ | ⟨_, hroom, hpush⟩
  · exact h
  · have hsize : (table.push text).2.size = table.size + 1 := Array.size_push text
    rw [hpush] at hsize
    exact hsize.trans_le hroom

end Assign

/-! ### Calls -/

/-- The text that a call interns. -/
def Call.text? : Call → Option String
  | intern text | internOwned text => some text
  | lookup _ | size | isEmpty => none

/-- The table after a call. A call that is refused leaves it as it is. -/
def after (table : NameTable) (call : Call) : NameTable :=
  match table.run call with
  | .ok (_, later) => later
  | .error _ => table

/-- The table that the first `n` calls leave. -/
def afterFirst (calls : List Call) (n : Nat) : NameTable :=
  (calls.take n).foldl after initial

/-- The answer to a call that is made after the first `n` calls. -/
def answer (calls : List Call) (n : Nat) (call : Call) : Except String Answer :=
  Prod.fst <$> (afterFirst calls n).run call

/-- Call number `n` interns a text, and is answered by a name. -/
def Gives (calls : List Call) (n : Nat) (text : String) (name : Name) : Prop :=
  ∃ call, calls[n]? = some call ∧ call.text? = some text ∧ answer calls n call = .ok (.name name)

/-- The text that call number `n` interns, if it is answered. -/
def given? (calls : List Call) (n : Nat) : Option String :=
  calls[n]?.bind fun call => if (answer calls n call).isOk then call.text? else none

/-- The texts that the first `n` calls interned, in order and as often as they did. -/
def interned (calls : List Call) (n : Nat) : List String :=
  (List.range n).filterMap (given? calls)

/-- The texts known after the first `n` calls. -/
def known (calls : List Call) (n : Nat) : List String :=
  wellKnown ++ interned calls n

variable {calls : List Call} {call : Call} {n m : Nat}

theorem run_of_text? (h : call.text? = some text) :
    table.run call = (fun (name, later) => (.name name, later)) <$> table.assign text := by
  cases call <;> cases h <;> rfl

/-- Only texts that are interned change a table. -/
theorem run_of_text?_eq_none (table : NameTable) (h : call.text? = none) :
    ∃ answer, table.run call = .ok (answer, table) := by
  cases call with
  | intern | internOwned => cases h
  | lookup | size | isEmpty => exact ⟨_, rfl⟩

theorem answer_of_text? (calls : List Call) (n : Nat) (h : call.text? = some text) :
    answer calls n call = (fun named => .name named.1) <$> (afterFirst calls n).assign text := by
  rw [answer, run_of_text? h]
  cases (afterFirst calls n).assign text <;> rfl

theorem afterFirst_succ (h : calls[n]? = some call) :
    afterFirst calls (n + 1) = (afterFirst calls n).after call := by
  rw [afterFirst, afterFirst, List.take_add_one, h, Option.toList_some, List.foldl_append]
  rfl

theorem known_zero : known calls 0 = wellKnown :=
  List.append_nil wellKnown

theorem known_succ : known calls (n + 1) = known calls n ++ (given? calls n).toList := by
  rw [known, interned, List.range_succ, List.filterMap_append, ← interned, ← List.append_assoc,
    ← known]
  cases h : given? calls n with
  | none => rw [List.filterMap_cons_none h]; rfl
  | some text => rw [List.filterMap_cons_some h]; rfl

theorem given?_eq_some_iff : given? calls n = some text ↔ ∃ name, Gives calls n text name := by
  unfold Gives
  rw [given?, Option.bind_eq_some_iff, exists_comm]
  refine exists_congr fun call => ?_
  rw [exists_and_left, exists_and_left]
  refine and_congr_right fun _ => ?_
  by_cases htext : call.text? = some text
  · rw [htext, answer_of_text? calls n htext]
    cases (afterFirst calls n).assign text with
    | error message => exact iff_of_false nofun nofun
    | ok named => exact iff_of_true rfl ⟨rfl, named.1, rfl⟩
  · refine iff_of_false (fun heq => ?_) fun hgives => htext hgives.1
    split at heq
    · exact htext heq
    · cases heq

/-- A call that is not given a name leaves the table as it is. -/
theorem afterFirst_succ_of_given?_eq_none (h : given? calls n = none) :
    afterFirst calls (n + 1) = afterFirst calls n := by
  cases hcall : calls[n]? with
  | none => rw [afterFirst, afterFirst, List.take_add_one, hcall, Option.toList_none, List.append_nil]
  | some call =>
    rw [afterFirst_succ hcall, after]
    cases htext : call.text? with
    | none =>
      obtain ⟨answer, hrun⟩ := run_of_text?_eq_none (afterFirst calls n) htext
      rw [hrun]
    | some text =>
      rw [given?, hcall, Option.bind_some, htext, answer_of_text? calls n htext] at h
      rw [run_of_text? htext]
      cases hassign : (afterFirst calls n).assign text with
      | error message => rfl
      | ok named =>
        rw [hassign] at h
        cases h

/-- What a call that interns a text does to the table. -/
theorem Gives.assign (h : Gives calls n text name) :
    (afterFirst calls n).assign text = .ok (name, afterFirst calls (n + 1)) := by
  obtain ⟨call, hcall, htext, hanswer⟩ := h
  rw [answer_of_text? calls n htext] at hanswer
  rw [afterFirst_succ hcall, after, run_of_text? htext]
  cases hassign : (afterFirst calls n).assign text with
  | error message =>
    rw [hassign] at hanswer
    cases hanswer
  | ok named =>
    rw [hassign] at hanswer
    cases hanswer
    rfl

theorem Gives.known_succ (h : Gives calls n text name) :
    known calls (n + 1) = known calls n ++ [text] := by
  rw [NameTable.known_succ, given?_eq_some_iff.2 ⟨name, h⟩, Option.toList_some]

/-- The table knows the texts that it has seen, from the start on and after every call. -/
theorem knows_afterFirst (calls : List Call) (n : Nat) :
    Knows (afterFirst calls n) (known calls n) := by
  induction n with
  | zero => exact known_zero ▸ knows_initial
  | succ n ih =>
    cases hgiven : given? calls n with
    | none =>
      rwa [afterFirst_succ_of_given?_eq_none hgiven, known_succ, hgiven, Option.toList_none,
        List.append_nil]
    | some text =>
      obtain ⟨name, hgives⟩ := given?_eq_some_iff.1 hgiven
      rw [hgives.known_succ]
      exact ih.assign hgives.assign

/-- A text keeps its name. -/
theorem find?_afterFirst (hle : m ≤ n) (h : (afterFirst calls m).find? text = some name) :
    (afterFirst calls n).find? text = some name := by
  induction hle with
  | refl => exact h
  | @step n _ ih =>
    cases hgiven : given? calls n with
    | none => rwa [afterFirst_succ_of_given?_eq_none hgiven]
    | some other =>
      obtain ⟨_, hgives⟩ := given?_eq_some_iff.1 hgiven
      exact find?_assign hgives.assign ih

theorem Gives.find? (h : Gives calls m text name) (hlt : m < n) :
    (afterFirst calls n).find? text = some name :=
  find?_afterFirst hlt (find?_of_assign h.assign)

/-- The number of texts counts those that are known, each of them once. -/
theorem answer_size (calls : List Call) (n : Nat) :
    answer calls n .size = .ok (.count (distinct (known calls n))) := by
  rw [← (knows_afterFirst calls n).size_eq]
  rfl

/-- There are no more texts than names. -/
theorem size_afterFirst_le (calls : List Call) (n : Nat) :
    (afterFirst calls n).size ≤ UInt32.size := by
  induction n with
  | zero =>
    rw [(knows_afterFirst calls 0).size_eq, known_zero]
    decide
  | succ n ih =>
    cases hgiven : given? calls n with
    | none => rwa [afterFirst_succ_of_given?_eq_none hgiven]
    | some text =>
      obtain ⟨_, hgives⟩ := given?_eq_some_iff.1 hgiven
      exact size_assign_le hgives.assign ih

/-- Only an unknown text is refused, and only when no name is left. -/
theorem answer_eq_error_iff {message : String} : answer calls n call = .error message ↔
    (∃ text, call.text? = some text ∧ text ∉ known calls n) ∧
      distinct (known calls n) = UInt32.size ∧
      message = "symbol table full at " ++ toString UInt32.size ++ " entries" := by
  -- The message counts the texts, and these are never more than the names.
  cases htext : call.text? with
  | none =>
    obtain ⟨found, hrun⟩ := run_of_text?_eq_none (afterFirst calls n) htext
    rw [answer, hrun]
    exact iff_of_false nofun fun ⟨⟨_, hsome, _⟩, _⟩ => nomatch hsome
  | some text =>
    have hknows := knows_afterFirst calls n
    have hle := size_afterFirst_le calls n
    have hrefused : answer calls n call = .error message ↔
        (afterFirst calls n).assign text = .error message := by
      rw [answer_of_text? calls n htext]
      cases (afterFirst calls n).assign text with
      | error refusal => exact ⟨fun h => by cases h; rfl, fun h => by cases h; rfl⟩
      | ok named => exact iff_of_false nofun nofun
    rw [hrefused, assign_eq_error_iff, hknows.find?_eq_none_iff, ← hknows.size_eq]
    constructor
    · rintro ⟨hnew, hfull, hmessage⟩
      have hsize := Nat.le_antisymm hle hfull
      exact ⟨⟨text, rfl, hnew⟩, hsize, hsize ▸ hmessage⟩
    · rintro ⟨⟨_, ⟨⟩, hnew⟩, hsize, hmessage⟩
      exact ⟨hnew, hsize.ge, hsize.symm ▸ hmessage⟩

/-! ### Names and texts correspond -/

/-- What names and texts are to each other, whatever is asked of a table. -/
structure Correspond (calls : List Call) : Prop where
  /-- At any two moments two texts are given the same name exactly if they are the same. -/
  same : ∀ m n s t a b, Gives calls m s a → Gives calls n t b → (a = b ↔ s = t)
  /-- A name stands for its text from then on. -/
  kept : ∀ m n text name, Gives calls m text name → m < n →
    answer calls n (.lookup name) = .ok (.text text)
  /-- A name is the number of different texts known before its text was. -/
  index : ∀ n text name, Gives calls n text name →
    name.index = rank (known calls (n + 1)) text ∧ name.index < UInt32.size
  /-- A new text is given the number of texts as its name, and is one more. -/
  grows : ∀ n text name, Gives calls n text name → text ∉ known calls n →
    answer calls n .size = .ok (.count name.index) ∧
      answer calls (n + 1) .size = .ok (.count (name.index + 1))
  /-- A text that is known does not change the number of texts. -/
  repeated : ∀ n text name, Gives calls n text name → text ∈ known calls n →
    answer calls (n + 1) .size = answer calls n .size
  /-- The number of texts counts those that are known, each of them once. -/
  size : ∀ n, answer calls n .size = .ok (.count (distinct (known calls n)))
  /-- A name that was not given stands for the empty text. -/
  unassigned : ∀ n name, distinct (known calls n) ≤ name.index →
    answer calls n (.lookup name) = .ok (.text "")
  /-- Nothing was added exactly if only texts known from the start were interned. -/
  empty : ∀ n, answer calls n .isEmpty =
    .ok (.flag (decide (∀ text ∈ interned calls n, text ∈ wellKnown)))
  /-- A call that interns a text is answered by a name as long as there is one. -/
  answered : ∀ n call text, calls[n]? = some call → call.text? = some text →
    (text ∈ known calls n ∨ distinct (known calls n) < UInt32.size) →
    ∃ name, Gives calls n text name
  /-- Only a new text is refused, when all names are given. -/
  refused : ∀ n call message, answer calls n call = .error message ↔
    (∃ text, call.text? = some text ∧ text ∉ known calls n) ∧
      distinct (known calls n) = UInt32.size ∧
      message = "symbol table full at " ++ toString UInt32.size ++ " entries"
  /-- A call that is not answered by a name leaves the table as it is. -/
  unchanged : ∀ n, (∀ text name, ¬Gives calls n text name) →
    afterFirst calls (n + 1) = afterFirst calls n

/-- Different texts have different names. -/
theorem Gives.eq_iff {t : String} {b : Name} (hs : Gives calls m s a) (ht : Gives calls n t b) :
    a = b ↔ s = t := by
  have hconsistent := (knows_afterFirst calls (max m n + 1)).consistent
  have hfinds := hs.find? (n := max m n + 1) (by omega)
  have hfindt := ht.find? (n := max m n + 1) (by omega)
  constructor
  · rintro rfl
    exact Option.some.inj (((hconsistent s a).1 hfinds).symm.trans ((hconsistent t a).1 hfindt))
  · rintro rfl
    exact Option.some.inj (hfinds.symm.trans hfindt)

theorem Gives.index_eq (h : Gives calls n text name) :
    name.index = rank (known calls (n + 1)) text :=
  (knows_afterFirst calls (n + 1)).index_eq text name (h.find? (Nat.lt_succ_self n))

theorem Gives.index_lt (h : Gives calls n text name) : name.index < UInt32.size :=
  Nat.lt_of_lt_of_le
    ((knows_afterFirst calls (n + 1)).consistent.index_lt (h.find? (Nat.lt_succ_self n)))
    (size_afterFirst_le calls (n + 1))

theorem isEmpty_afterFirst (calls : List Call) (n : Nat) :
    (afterFirst calls n).isEmpty = decide (∀ text ∈ interned calls n, text ∈ wellKnown) := by
  have hcount : wellKnown.length = wellKnown.toFinset.card := by decide
  rw [isEmpty, (knows_afterFirst calls n).size_eq, distinct, known, List.toFinset_append, hcount,
    decide_eq_decide]
  constructor
  · intro hle text hmem
    have heq := Finset.eq_of_subset_of_card_le Finset.subset_union_left hle
    rw [← List.mem_toFinset, heq]
    exact Finset.mem_union_right _ (List.mem_toFinset.2 hmem)
  · intro hsub
    rw [Finset.union_eq_left.2 fun text hmem => ?_]
    exact List.mem_toFinset.2 (hsub text (List.mem_toFinset.1 hmem))

/-- A name stands for its text from then on. -/
theorem Gives.answer_lookup (h : Gives calls m text name) (hlt : m < n) :
    answer calls n (.lookup name) = .ok (.text text) := by
  have htext := ((knows_afterFirst calls n).consistent text name).1 (h.find? hlt)
  have hlookup : (afterFirst calls n).lookup name = text := by rw [lookup, htext, Option.getD_some]
  rw [← hlookup]
  rfl

/-- A name that was not given stands for the empty text. -/
theorem answer_lookup_of_le (hle : distinct (known calls n) ≤ name.index) :
    answer calls n (.lookup name) = .ok (.text "") := by
  rw [← (knows_afterFirst calls n).size_eq] at hle
  have hlookup : (afterFirst calls n).lookup name = "" := by
    rw [lookup, Array.getElem?_eq_none hle, Option.getD_none]
  rw [← hlookup]
  rfl

/-- A call that interns a text is answered by a name as long as there is one. -/
theorem exists_gives (hcall : calls[n]? = some call) (htext : call.text? = some text)
    (hroom : text ∈ known calls n ∨ distinct (known calls n) < UInt32.size) :
    ∃ name, Gives calls n text name := by
  have hanswer := answer_of_text? calls n htext
  have hknows := knows_afterFirst calls n
  cases hassign : (afterFirst calls n).assign text with
  | ok named =>
    rw [hassign] at hanswer
    exact ⟨named.1, call, hcall, htext, hanswer⟩
  | error message =>
    obtain ⟨hnew, hfull, _⟩ := assign_eq_error_iff.1 hassign
    rw [hknows.size_eq] at hfull
    exact absurd (hroom.resolve_left (hknows.find?_eq_none_iff.1 hnew)) (Nat.not_lt.2 hfull)

/-- A call that is not answered by a name leaves the table as it is. -/
theorem afterFirst_succ_of_not_gives (h : ∀ text name, ¬Gives calls n text name) :
    afterFirst calls (n + 1) = afterFirst calls n := by
  refine afterFirst_succ_of_given?_eq_none (Option.eq_none_iff_forall_ne_some.2 fun text hgiven => ?_)
  obtain ⟨name, hgives⟩ := given?_eq_some_iff.1 hgiven
  exact h text name hgives

/-- Names and texts correspond one to one, from the first call on and after every other. -/
theorem names_correspond (calls : List Call) : Correspond calls where
  same _ _ _ _ _ _ hs ht := hs.eq_iff ht
  kept _ _ _ _ hgives hlt := hgives.answer_lookup hlt
  index _ _ _ hgives := ⟨hgives.index_eq, hgives.index_lt⟩
  grows n text name hgives hnew := by
    rw [answer_size, answer_size, hgives.known_succ, distinct_concat_of_not_mem hnew,
      hgives.index_eq, hgives.known_succ, rank_concat_of_not_mem hnew]
    exact ⟨rfl, rfl⟩
  repeated n text name hgives hmem := by
    rw [answer_size, answer_size, hgives.known_succ, distinct_concat_of_mem hmem]
  size := answer_size calls
  unassigned _ _ hle := answer_lookup_of_le hle
  empty n := by
    rw [← isEmpty_afterFirst]
    rfl
  answered _ _ _ hcall htext hroom := exists_gives hcall htext hroom
  refused _ _ _ := answer_eq_error_iff
  unchanged _ hnone := afterFirst_succ_of_not_gives hnone

end NameTable

end HashEq

import HashEq.TypeTable.Text
import Std.Data.String.ToNat

/-!
# Written types

What the text of a type shows is its *shape*: the type with its parts written out
in turn. A shape can be read off its text: the word and the character after it
with which a text starts tell the form of the type, and what follows a type never
starts like a part of it.

* `Shape.readsBack_of_form`: only shapes of one form are left to be told apart;
* `Shape.chars_append_inj`: texts that agree, whatever follows them, are texts of
  the same shape;
* `Shape.text_injective`: different shapes have different texts.
-/

namespace HashEq

/-- A type as it is written. -/
inductive Shape
  /-- A primitive type, an interface or the first struct of a name. -/
  | named (name : String)
  /-- The empty interface. -/
  | any
  | pointer (elem : Shape)
  | chan (elem : Shape)
  | slice (elem : Shape)
  | map (key value : Shape)
  | func (params results : List Shape)
  | array (len : Nat) (elem : Shape)
  /-- A struct that is not the first one of its name. -/
  | ordinal (name : String) (n : Nat)
  /-- A struct without a name; a blank field is written with an underscore. -/
  | struct (names : List String) (types : List Shape)
  | opaqueMemory (size align : Nat)

namespace Shape

/-- The text that follows the parameters of a function, given the texts of the results. -/
def answer : List String → String
  | [] => ""
  | [result] => " " ++ result
  | results => " (" ++ ", ".intercalate results ++ ")"

/-- The text of a type, as it is written. -/
def text : Shape → String
  | named name => name
  | any => "interface \x7b\x7d"
  | pointer elem => "*" ++ elem.text
  | chan elem => "chan " ++ elem.text
  | slice elem => "[]" ++ elem.text
  | map key value => "map[" ++ key.text ++ "]" ++ value.text
  | func params results =>
    "func(" ++ ", ".intercalate (params.map fun param => param.text) ++ ")" ++
      answer (results.map fun result => result.text)
  | array len elem => "[" ++ toString len ++ "]" ++ elem.text
  | ordinal name n => name ++ "·" ++ toString n
  | struct [] _ => "struct \x7b\x7d"
  | struct names types =>
    "struct \x7b " ++ "; ".intercalate
      (List.zipWith (fun name type => name ++ " " ++ type) names (types.map fun ty => ty.text)) ++
      " \x7d"
  | opaqueMemory size align => "opaque[" ++ toString size ++ ", align " ++ toString align ++ "]"

theorem text_struct {names : List String} (h : names ≠ []) (types : List Shape) :
    (struct names types).text = "struct \x7b " ++ "; ".intercalate
      (List.zipWith (fun name type => name ++ " " ++ type) names (types.map fun ty => ty.text)) ++
      " \x7d" := by
  rw [text]
  exact h

-- The equations of `text` are made here, once for all the lemmas below.
example : (struct ["key", "_"] [named "string", slice any]).text =
    "struct \x7b key string; _ []interface \x7b\x7d \x7d" := by cbv

/-- The characters of the text of a type. -/
def chars (shape : Shape) : List Char :=
  shape.text.toList

/-- The text of the results of a function. -/
def resultChars : List Shape → List Char
  | [] => []
  | [result] => ' ' :: result.chars
  | results => ' ' :: '(' :: [',', ' '].intercalate (results.map chars) ++ [')']

/-- The text of a field. -/
def fieldChars (name : String) (ty : Shape) : List Char :=
  name.toList ++ ' ' :: ty.chars

theorem toList_intercalate (separator : String) (shapes : List Shape) :
    (separator.intercalate (shapes.map fun shape => shape.text)).toList =
      separator.toList.intercalate (shapes.map chars) := by
  rw [String.toList_intercalate, List.map_map]
  rfl

theorem chars_named (name : String) : (named name).chars = name.toList := by
  rw [chars, text]

theorem chars_any : any.chars = "interface".toList ++ [' ', '\x7b', '\x7d'] := by
  rw [chars, text]
  rfl

theorem chars_pointer (elem : Shape) : (pointer elem).chars = '*' :: elem.chars := by
  rw [chars, text, String.toList_append]
  rfl

theorem chars_chan (elem : Shape) : (chan elem).chars = "chan".toList ++ ' ' :: elem.chars := by
  rw [chars, text, String.toList_append]
  rfl

theorem chars_slice (elem : Shape) : (slice elem).chars = '[' :: ']' :: elem.chars := by
  rw [chars, text, String.toList_append]
  rfl

theorem chars_map (key value : Shape) :
    (map key value).chars = "map".toList ++ '[' :: key.chars ++ ']' :: value.chars := by
  rw [chars, text, String.toList_append, String.toList_append, String.toList_append]
  simp [chars]

theorem chars_func (params results : List Shape) :
    (func params results).chars =
      "func".toList ++ '(' :: [',', ' '].intercalate (params.map chars) ++
        ')' :: resultChars results := by
  have hresults : (answer (results.map fun result => result.text)).toList =
      resultChars results := by
    match results with
    | [] => rfl
    | [result] =>
      rw [List.map_singleton, answer, String.toList_append]
      rfl
    | first :: second :: rest =>
      rw [List.map_cons, List.map_cons, answer, String.toList_append, String.toList_append,
        ← List.map_cons, ← List.map_cons, toList_intercalate]
      · rfl
      · rintro ⟨⟩
      · rintro result ⟨⟩
  rw [chars, text, String.toList_append, String.toList_append, String.toList_append, hresults,
    toList_intercalate]
  simp

theorem chars_array (len : Nat) (elem : Shape) :
    (array len elem).chars = '[' :: len.repr.toList ++ ']' :: elem.chars := by
  rw [chars, text]
  simp [chars]

theorem chars_ordinal (name : String) (n : Nat) :
    (ordinal name n).chars = name.toList ++ '·' :: n.repr.toList := by
  rw [chars, text]
  simp

theorem chars_struct_nil (types : List Shape) :
    (struct [] types).chars = "struct".toList ++ [' ', '\x7b', '\x7d'] := by
  rw [chars, text]
  rfl

theorem chars_struct_cons (name : String) (names : List String) (types : List Shape) :
    (struct (name :: names) types).chars =
      "struct".toList ++ ' ' :: '\x7b' :: ' ' ::
        [';', ' '].intercalate (List.zipWith fieldChars (name :: names) types) ++
        [' ', '\x7d'] := by
  have hfields : (List.zipWith (fun name type => name ++ " " ++ type) (name :: names)
      (types.map fun ty => ty.text)).map String.toList =
        List.zipWith fieldChars (name :: names) types := by
    rw [List.map_zipWith, List.zipWith_map_right]
    congr 1
    funext name ty
    simp [fieldChars, chars]
  rw [chars, text, String.toList_append, String.toList_append, String.toList_intercalate, hfields]
  · simp
  · rintro ⟨⟩

theorem chars_opaqueMemory (size align : Nat) :
    (opaqueMemory size align).chars =
      "opaque".toList ++ '[' :: size.repr.toList ++ ',' :: " align ".toList ++
        align.repr.toList ++ [']'] := by
  rw [chars, text]
  simp

/-! ### Words and what follows them -/

/-- Whether a character can be part of a name, that is, is no punctuation. -/
def isNameChar (c : Char) : Bool :=
  !" []()\x7b\x7d*,;·".toList.contains c

/-- A name has characters, all of which can be part of a name. -/
def IsWord (name : String) : Prop :=
  name.toList ≠ [] ∧ ∀ c ∈ name.toList, isNameChar c = true

/-- A property of all characters of a text is decided by a run over the text, not by one over all
    characters that there are. -/
instance decidableForallMem (text : List Char) (p : Char → Prop) [DecidablePred p] :
    Decidable (∀ c ∈ text, p c) :=
  List.decidableBAll p text

instance (name : String) : Decidable (IsWord name) :=
  inferInstanceAs (Decidable (_ ∧ _))

/-- What can follow a type. -/
def Follows : List Char → Prop
  | [] => True
  | ' ' :: rest => rest.head? = some '\x7d'
  | c :: _ => c = ']' ∨ c = ',' ∨ c = ')' ∨ c = ';'

/-- What can follow a name. -/
def Stops (rest : List Char) : Prop :=
  ∀ c ∈ rest.head?, isNameChar c = false

variable {a b r r' : List Char}

theorem Follows.stops (h : Follows r) : Stops r := by
  unfold Follows at h
  split at h
  · rintro c ⟨⟩
  · rintro c ⟨⟩
    decide
  · rintro c ⟨⟩
    rcases h with rfl | rfl | rfl | rfl <;> decide

theorem takeWhile_word (ha : ∀ c ∈ a, isNameChar c = true) (hr : Stops r) :
    (a ++ r).takeWhile isNameChar = a := by
  rw [List.takeWhile_append_of_pos ha]
  cases r with
  | nil => exact List.append_nil a
  | cons c r => rw [List.takeWhile_cons_of_neg (by simp [hr c rfl]), List.append_nil]

/-- Names can be told from what follows them. -/
theorem word_append_inj (ha : ∀ c ∈ a, isNameChar c = true) (hb : ∀ c ∈ b, isNameChar c = true)
    (hr : Stops r) (hr' : Stops r') (h : a ++ r = b ++ r') : a = b ∧ r = r' := by
  have heq : a = b := by rw [← takeWhile_word ha hr, h, takeWhile_word hb hr']
  subst heq
  exact ⟨rfl, List.append_cancel_left h⟩

theorem isNameChar_repr (n : Nat) : ∀ c ∈ n.repr.toList, isNameChar c = true := by
  intro c hc
  rw [Nat.toList_repr] at hc
  have hdigit := Nat.isDigit_of_mem_toDigits (by decide) (by decide) hc
  have hpunctuation : ∀ c ∈ " []()\x7b\x7d*,;·".toList, c.isDigit = false := by decide
  rw [isNameChar, Bool.not_eq_true', List.contains_eq_mem, decide_eq_false_iff_not]
  intro hmem
  rw [hpunctuation c hmem] at hdigit
  cases hdigit

theorem name_append_inj {name name' : String} (hname : IsWord name) (hname' : IsWord name')
    (hr : Stops r) (hr' : Stops r') (h : name.toList ++ r = name'.toList ++ r') :
    name = name' ∧ r = r' := by
  obtain ⟨hnames, hrest⟩ := word_append_inj hname.2 hname'.2 hr hr' h
  exact ⟨String.toList_inj.1 hnames, hrest⟩

theorem number_append_inj {m n : Nat} (hr : Stops r) (hr' : Stops r')
    (h : m.repr.toList ++ r = n.repr.toList ++ r') : m = n ∧ r = r' := by
  obtain ⟨hnumbers, hrest⟩ := word_append_inj (isNameChar_repr m) (isNameChar_repr n) hr hr' h
  exact ⟨Nat.repr_inj.1 (String.toList_inj.1 hnumbers), hrest⟩

/-- A shape whose names can be told from the punctuation. -/
inductive WellFormed : Shape → Prop
  | named {name : String} : IsWord name → WellFormed (named name)
  | any : WellFormed any
  | pointer {elem : Shape} : WellFormed elem → WellFormed (pointer elem)
  | chan {elem : Shape} : WellFormed elem → WellFormed (chan elem)
  | slice {elem : Shape} : WellFormed elem → WellFormed (slice elem)
  | map {key value : Shape} : WellFormed key → WellFormed value → WellFormed (map key value)
  | func {params results : List Shape} : (∀ param ∈ params, WellFormed param) →
      (∀ result ∈ results, WellFormed result) → WellFormed (func params results)
  | array {len : Nat} {elem : Shape} : WellFormed elem → WellFormed (array len elem)
  | ordinal {name : String} {n : Nat} : IsWord name → WellFormed (ordinal name n)
  | struct {names : List String} {types : List Shape} : (∀ name ∈ names, IsWord name) →
      names.length = types.length → (∀ ty ∈ types, WellFormed ty) → WellFormed (struct names types)
  | opaqueMemory {size align : Nat} : WellFormed (opaqueMemory size align)

/-! ### The form of a type -/

/-- The forms that types are written in. -/
inductive Form
  | named
  | any
  | pointer
  | chan
  | slice
  | map
  | func
  | array
  | ordinal
  | struct
  | opaqueMemory

/-- The form that a type is written in. -/
def form : Shape → Form
  | named _ => .named
  | any => .any
  | pointer _ => .pointer
  | chan _ => .chan
  | slice _ => .slice
  | map _ _ => .map
  | func _ _ => .func
  | array _ _ => .array
  | ordinal _ _ => .ordinal
  | struct _ _ => .struct
  | opaqueMemory _ _ => .opaqueMemory

/-- The form of a type whose text starts with a word, given what comes after the word. -/
def formAfter (word rest : List Char) : Form :=
  match word, rest with
  | [], '*' :: _ => .pointer
  | [], '[' :: ']' :: _ => .slice
  | [], _ => .array
  | _, '·' :: _ => .ordinal
  | word, ' ' :: '\x7b' :: _ => if word = "struct".toList then .struct else .any
  | _, ' ' :: '\x7d' :: _ => .named
  | _, ' ' :: _ => .chan
  | _, '(' :: _ => .func
  | word, '[' :: _ => if word = "map".toList then .map else .opaqueMemory
  | _, _ => .named

/-- The form of a type, read off its text. -/
def readForm (text : List Char) : Form :=
  formAfter (text.takeWhile isNameChar) (text.dropWhile isNameChar)

theorem readForm_word (ha : ∀ c ∈ a, isNameChar c = true) (hr : Stops r) :
    readForm (a ++ r) = formAfter a r := by
  have hword := takeWhile_word ha hr
  have hsplit : (a ++ r).takeWhile isNameChar ++ (a ++ r).dropWhile isNameChar = a ++ r :=
    List.takeWhile_append_dropWhile
  rw [hword] at hsplit
  rw [readForm, hword, List.append_cancel_left hsplit]

theorem formAfter_of_follows (ha : a ≠ []) (hr : Follows r) : formAfter a r = .named := by
  cases a with
  | nil => exact absurd rfl ha
  | cons c a =>
    unfold Follows at hr
    split at hr
    · rfl
    · next rest =>
      cases rest with
      | nil => cases hr
      | cons d rest => cases hr; rfl
    · rcases hr with rfl | rfl | rfl | rfl <;> rfl

/-- The text of a type starts with a character of a name, an asterisk or a bracket. -/
theorem head?_chars {s : Shape} (hs : s.WellFormed) :
    ∃ c rest, s.chars = c :: rest ∧ (isNameChar c = true ∨ c = '*' ∨ c = '[') := by
  have hword : ∀ {name : String} {rest : List Char}, IsWord name →
      ∃ c rest', name.toList ++ rest = c :: rest' ∧ (isNameChar c = true ∨ c = '*' ∨ c = '[') := by
    intro name rest hname
    obtain ⟨c, cs, hcs⟩ := List.exists_cons_of_ne_nil hname.1
    exact ⟨c, cs ++ rest, by rw [hcs, List.cons_append],
      .inl (hname.2 c (hcs ▸ List.mem_cons_self))⟩
  cases hs with
  | @named name hname =>
    rw [chars_named, ← List.append_nil name.toList]
    exact hword hname
  | any => exact ⟨_, _, chars_any, .inl (by decide)⟩
  | pointer _ => exact ⟨_, _, chars_pointer _, .inr (.inl rfl)⟩
  | chan _ => exact ⟨_, _, chars_chan _, .inl (by decide)⟩
  | slice _ => exact ⟨_, _, chars_slice _, .inr (.inr rfl)⟩
  | map _ _ => exact ⟨_, _, chars_map _ _, .inl (by decide)⟩
  | func _ _ => exact ⟨_, _, chars_func _ _, .inl (by decide)⟩
  | array _ => exact ⟨_, _, chars_array _ _, .inr (.inr rfl)⟩
  | ordinal hname =>
    rw [chars_ordinal]
    exact hword hname
  | @struct names types _ _ _ =>
    cases names with
    | nil => exact ⟨_, _, chars_struct_nil _, .inl (by decide)⟩
    | cons name names => exact ⟨_, _, chars_struct_cons _ _ _, .inl (by decide)⟩
  | opaqueMemory => exact ⟨_, _, chars_opaqueMemory _ _, .inl (by decide)⟩

theorem stops_cons {c : Char} (hc : isNameChar c = false) : Stops (c :: r) := by
  rintro d ⟨⟩
  exact hc

theorem readForm_cons {c : Char} (ha : ∀ c ∈ a, isNameChar c = true)
    (hc : isNameChar c = false) : readForm (a ++ c :: r) = formAfter a (c :: r) :=
  readForm_word ha (stops_cons hc)

theorem formAfter_space {c : Char} (ha : a ≠ [])
    (hc : isNameChar c = true ∨ c = '*' ∨ c = '[') : formAfter a (' ' :: c :: r) = .chan := by
  have hopen : c ≠ '\x7b' := by rintro rfl; revert hc; decide
  have hclose : c ≠ '\x7d' := by rintro rfl; revert hc; decide
  unfold formAfter
  split <;> simp_all

theorem formAfter_bracket {c : Char} (hc : isNameChar c = true) :
    formAfter [] ('[' :: c :: r) = .array := by
  have hclose : c ≠ ']' := by rintro rfl; revert hc; decide
  unfold formAfter
  split <;> simp_all

theorem formAfter_dot (ha : a ≠ []) : formAfter a ('·' :: r) = .ordinal := by
  unfold formAfter
  split <;> simp_all

theorem exists_repr_cons (n : Nat) : ∃ c rest, n.repr.toList = c :: rest ∧ isNameChar c = true := by
  obtain ⟨c, rest, heq⟩ := List.exists_cons_of_ne_nil (l := n.repr.toList) (by
    rw [Nat.toList_repr]
    exact Nat.toDigits_ne_nil)
  exact ⟨c, rest, heq, isNameChar_repr n c (heq ▸ List.mem_cons_self)⟩

/-- The form of a type can be read off its text, whatever follows. -/
theorem readForm_chars {s : Shape} (hs : s.WellFormed) (hr : Follows r) :
    readForm (s.chars ++ r) = s.form := by
  have hnil : ∀ c ∈ ([] : List Char), isNameChar c = true := by rintro c ⟨⟩
  cases hs with
  | named hname =>
    rw [chars_named, readForm_word hname.2 hr.stops]
    exact formAfter_of_follows hname.1 hr
  | any =>
    rw [chars_any, List.append_assoc]
    exact readForm_cons (by decide) (by decide)
  | pointer _ =>
    rw [chars_pointer]
    exact readForm_cons hnil (by decide)
  | @chan elem helem =>
    -- A space comes after other words too; no brace follows it here.
    obtain ⟨c, rest, hrest, hc⟩ := head?_chars helem
    rw [chars_chan, hrest, List.append_assoc]
    refine (readForm_cons (by decide) (by decide)).trans ?_
    exact formAfter_space (by decide) hc
  | slice _ =>
    rw [chars_slice]
    exact readForm_cons hnil (by decide)
  | map _ _ =>
    rw [chars_map, List.append_assoc, List.append_assoc]
    exact readForm_cons (by decide) (by decide)
  | func _ _ =>
    rw [chars_func, List.append_assoc, List.append_assoc]
    exact readForm_cons (by decide) (by decide)
  | @array len elem _ =>
    -- A digit follows the bracket, where a slice has a closing bracket.
    obtain ⟨c, rest, hrest, hc⟩ := exists_repr_cons len
    rw [chars_array, hrest]
    refine (readForm_cons hnil (by decide)).trans ?_
    exact formAfter_bracket hc
  | ordinal hname =>
    rw [chars_ordinal, List.append_assoc]
    refine (readForm_cons hname.2 (by decide)).trans ?_
    exact formAfter_dot hname.1
  | @struct names types _ _ _ =>
    cases names with
    | nil =>
      rw [chars_struct_nil, List.append_assoc]
      exact readForm_cons (by decide) (by decide)
    | cons name names =>
      rw [chars_struct_cons, List.append_assoc, List.append_assoc]
      exact readForm_cons (by decide) (by decide)
  | opaqueMemory =>
    rw [chars_opaqueMemory]
    simp only [List.append_assoc]
    exact readForm_cons (by decide) (by decide)

/-! ### Reading types off their texts -/

/-- Two items whose texts agree, whatever follows them, are the same. -/
def ReadsBack {α : Type} (print : α → List Char) (x y : α) : Prop :=
  ∀ r r', Follows r → Follows r' → print x ++ r = print y ++ r' → x = y ∧ r = r'

/-- Items that can be read off their texts can be read off a list of them, up to its end. -/
theorem intercalate_append_inj {α : Type} {print : α → List Char} {d c : Char}
    {separator close : List Char} (hsep : ∀ r, Follows (d :: separator ++ r))
    (hclose : ∀ r, Follows (c :: close ++ r)) (hne : d ≠ c) {l l' : List α}
    (hread : ∀ x ∈ l, ∀ y ∈ l', ReadsBack print x y) (hl : l ≠ []) (hl' : l' ≠ [])
    (h : (d :: separator).intercalate (l.map print) ++ (c :: close ++ r) =
      (d :: separator).intercalate (l'.map print) ++ (c :: close ++ r')) : l = l' ∧ r = r' := by
  induction l generalizing l' with
  | nil => exact absurd rfl hl
  | cons x l ih =>
    cases l' with
    | nil => exact absurd rfl hl'
    | cons y l' =>
      have hxy := hread x List.mem_cons_self y List.mem_cons_self
      cases l with
      | nil =>
        cases l' with
        | nil =>
          rw [List.map_singleton, List.map_singleton, List.intercalate_singleton,
            List.intercalate_singleton] at h
          obtain ⟨rfl, hrest⟩ := hxy _ _ (hclose r) (hclose r') h
          exact ⟨rfl, List.append_cancel_left hrest⟩
        | cons z l' =>
          -- The second list goes on where the first one ends.
          rw [List.map_singleton, List.intercalate_singleton, List.map_cons, List.map_cons,
            List.intercalate_cons_cons, List.append_assoc, List.append_assoc] at h
          obtain ⟨-, hrest⟩ := hxy _ _ (hclose r) (hsep _) h
          exact absurd (List.cons.inj hrest).1.symm hne
      | cons w l =>
        cases l' with
        | nil =>
          rw [List.map_singleton, List.intercalate_singleton, List.map_cons, List.map_cons,
            List.intercalate_cons_cons, List.append_assoc, List.append_assoc] at h
          obtain ⟨-, hrest⟩ := hxy _ _ (hsep _) (hclose r') h
          exact absurd (List.cons.inj hrest).1 hne
        | cons z l' =>
          rw [List.map_cons, List.map_cons, List.map_cons, List.map_cons,
            List.intercalate_cons_cons, List.intercalate_cons_cons, List.append_assoc,
            List.append_assoc, List.append_assoc, List.append_assoc, ← List.map_cons,
            ← List.map_cons] at h
          obtain ⟨rfl, hrest⟩ := hxy _ _ (hsep _) (hsep _) h
          obtain ⟨heq, hr⟩ := ih (fun x hx y hy => hread x (List.mem_cons_of_mem _ hx) y
            (List.mem_cons_of_mem _ hy)) (List.cons_ne_nil _ _) (List.cons_ne_nil _ _)
            (List.append_cancel_left hrest)
          exact ⟨by rw [heq], hr⟩

/-- The text of a type does not start like what can follow one. -/
theorem chars_append_ne {s : Shape} (hs : s.WellFormed) {c : Char} {rest : List Char}
    (hc : isNameChar c = false ∧ c ≠ '*' ∧ c ≠ '[') : s.chars ++ r ≠ c :: rest := by
  intro heq
  obtain ⟨d, cs, hcs, hd⟩ := head?_chars hs
  rw [hcs] at heq
  cases heq
  rcases hd with hd | hd | hd
  · rw [hc.1] at hd
    cases hd
  · exact hc.2.1 hd
  · exact hc.2.2 hd

/-- The text of a list of types starts like that of the first one. -/
theorem intercalate_chars_ne {separator : List Char} {shapes : List Shape}
    (hs : ∀ s ∈ shapes, s.WellFormed) (hne : shapes ≠ []) {c : Char} {rest : List Char}
    (hc : isNameChar c = false ∧ c ≠ '*' ∧ c ≠ '[') :
    separator.intercalate (shapes.map chars) ++ r ≠ c :: rest := by
  cases shapes with
  | nil => exact absurd rfl hne
  | cons s shapes =>
    have hs' := hs s List.mem_cons_self
    cases shapes with
    | nil =>
      rw [List.map_singleton, List.intercalate_singleton]
      exact chars_append_ne hs' hc
    | cons t shapes =>
      rw [List.map_cons, List.map_cons, List.intercalate_cons_cons, List.append_assoc,
        List.append_assoc]
      exact chars_append_ne hs' hc

theorem follows_bracket (r : List Char) : Follows (']' :: r) :=
  .inl rfl

theorem follows_comma (r : List Char) : Follows (',' :: [' '] ++ r) :=
  .inr (.inl rfl)

theorem follows_paren (r : List Char) : Follows (')' :: [] ++ r) :=
  .inr (.inr (.inl rfl))

/-- The parameters of a function can be read off its text. -/
theorem params_append_inj {ps qs : List Shape} (hps : ∀ p ∈ ps, p.WellFormed)
    (hqs : ∀ q ∈ qs, q.WellFormed) (hread : ∀ p ∈ ps, ∀ q ∈ qs, ReadsBack chars p q)
    (h : [',', ' '].intercalate (ps.map chars) ++ ')' :: r =
      [',', ' '].intercalate (qs.map chars) ++ ')' :: r') : ps = qs ∧ r = r' := by
  by_cases hp : ps = []
  · subst hp
    by_cases hq : qs = []
    · subst hq
      exact ⟨rfl, (List.cons.inj h).2⟩
    · exact absurd h.symm (intercalate_chars_ne hqs hq (by decide))
  · by_cases hq : qs = []
    · subst hq
      exact absurd h (intercalate_chars_ne hps hp (by decide))
    · exact intercalate_append_inj follows_comma follows_paren (by decide) hread hp hq h

theorem not_follows_space {s : Shape} (hs : s.WellFormed) : ¬Follows (' ' :: (s.chars ++ r)) := by
  obtain ⟨c, cs, hcs, hc⟩ := head?_chars hs
  rw [hcs]
  intro hfollows
  cases Option.some.inj hfollows
  revert hc
  decide

theorem resultChars_append (p p' : Shape) (ps : List Shape) (r : List Char) :
    resultChars (p :: p' :: ps) ++ r =
      ' ' :: '(' :: ([',', ' '].intercalate ((p :: p' :: ps).map chars) ++ ')' :: r) := by
  simp [resultChars]

/-- The results of a function can be read off its text. -/
theorem results_append_inj {ps qs : List Shape} (hps : ∀ p ∈ ps, p.WellFormed)
    (hqs : ∀ q ∈ qs, q.WellFormed) (hread : ∀ p ∈ ps, ∀ q ∈ qs, ReadsBack chars p q)
    (hr : Follows r) (hr' : Follows r') (h : resultChars ps ++ r = resultChars qs ++ r') :
    ps = qs ∧ r = r' := by
  match ps, qs with
  | [], [] => exact ⟨rfl, h⟩
  | [], [q] =>
    -- What follows a type does not start like a result.
    rw [show r = _ from h] at hr
    exact absurd hr (not_follows_space (hqs q List.mem_cons_self))
  | [p], [] =>
    rw [show r' = _ from h.symm] at hr'
    exact absurd hr' (not_follows_space (hps p List.mem_cons_self))
  | [], _ :: _ :: _ =>
    rw [show r = _ from h] at hr
    cases Option.some.inj hr
  | _ :: _ :: _, [] =>
    rw [show r' = _ from h.symm] at hr'
    cases Option.some.inj hr'
  | [p], [q] =>
    obtain ⟨rfl, hrest⟩ := hread p List.mem_cons_self q List.mem_cons_self r r' hr hr'
      (List.cons.inj h).2
    exact ⟨rfl, hrest⟩
  | [p], _ :: _ :: _ =>
    exact absurd (List.cons.inj h).2 (chars_append_ne (hps p List.mem_cons_self) (by decide))
  | _ :: _ :: _, [q] =>
    exact absurd (List.cons.inj h).2.symm
      (chars_append_ne (hqs q List.mem_cons_self) (by decide))
  | p :: p' :: ps, q :: q' :: qs =>
    rw [resultChars_append, resultChars_append] at h
    exact intercalate_append_inj follows_comma follows_paren (by decide) hread
      (List.cons_ne_nil _ _) (List.cons_ne_nil _ _) (List.cons.inj (List.cons.inj h).2).2

theorem follows_semicolon (r : List Char) : Follows (';' :: [' '] ++ r) :=
  .inr (.inr (.inr rfl))

theorem follows_brace (r : List Char) : Follows (' ' :: ['\x7d'] ++ r) :=
  rfl

/-- The fields of a struct can be read off its text. -/
theorem fields_append_inj {names names' : List String} {types types' : List Shape}
    (hnames : ∀ name ∈ names, IsWord name) (hnames' : ∀ name ∈ names', IsWord name)
    (hlen : names.length = types.length) (hlen' : names'.length = types'.length)
    (hread : ∀ p ∈ types, ∀ q ∈ types', ReadsBack chars p q)
    (hne : names ≠ []) (hne' : names' ≠ [])
    (h : [';', ' '].intercalate (List.zipWith fieldChars names types) ++ ' ' :: '\x7d' :: r =
      [';', ' '].intercalate (List.zipWith fieldChars names' types') ++ ' ' :: '\x7d' :: r') :
    names = names' ∧ types = types' ∧ r = r' := by
  rw [← List.map_uncurry_zip_eq_zipWith, ← List.map_uncurry_zip_eq_zipWith] at h
  have hfst := List.map_fst_zip (Nat.le_of_eq hlen)
  have hfst' := List.map_fst_zip (Nat.le_of_eq hlen')
  have hfields : ∀ x ∈ names.zip types, ∀ y ∈ names'.zip types',
      ReadsBack (Function.uncurry fieldChars) x y := by
    rintro ⟨name, ty⟩ hx ⟨name', ty'⟩ hy r r' hr hr' heq
    obtain ⟨hname, hty⟩ := List.of_mem_zip hx
    obtain ⟨hname', hty'⟩ := List.of_mem_zip hy
    change fieldChars name ty ++ r = fieldChars name' ty' ++ r' at heq
    rw [fieldChars, fieldChars, List.append_assoc, List.append_assoc] at heq
    obtain ⟨rfl, hrest⟩ := name_append_inj (hnames name hname) (hnames' name' hname')
      (stops_cons (by decide)) (stops_cons (by decide)) heq
    obtain ⟨rfl, hr⟩ := hread ty hty ty' hty' r r' hr hr' (List.cons.inj hrest).2
    exact ⟨rfl, hr⟩
  obtain ⟨heq, hr⟩ := intercalate_append_inj follows_semicolon follows_brace (by decide) hfields
    (fun hnil => hne (by rw [← hfst, hnil, List.map_nil]))
    (fun hnil => hne' (by rw [← hfst', hnil, List.map_nil])) h
  refine ⟨by rw [← hfst, heq, hfst'], ?_, hr⟩
  rw [← List.map_snd_zip (Nat.le_of_eq hlen.symm), heq, List.map_snd_zip (Nat.le_of_eq hlen'.symm)]

/-- The text of a struct without fields closes where that of a struct with fields goes on. -/
theorem struct_nil_append_ne {name : String} {names : List String} {types types' : List Shape} :
    (struct [] types).chars ++ r ≠ (struct (name :: names) types').chars ++ r' := by
  intro h
  rw [chars_struct_nil, chars_struct_cons] at h
  simp only [List.append_assoc, List.cons_append] at h
  have hbrace := (List.cons.inj (List.cons.inj (List.append_cancel_left h)).2).2
  cases (List.cons.inj hbrace).1

/-- A struct can be read off its text. -/
theorem struct_append_inj {names names' : List String} {types types' : List Shape}
    (hnames : ∀ name ∈ names, IsWord name) (hnames' : ∀ name ∈ names', IsWord name)
    (hlen : names.length = types.length) (hlen' : names'.length = types'.length)
    (hread : ∀ p ∈ types, ∀ q ∈ types', ReadsBack chars p q)
    (h : (struct names types).chars ++ r = (struct names' types').chars ++ r') :
    names = names' ∧ types = types' ∧ r = r' := by
  match names, names' with
  | [], [] =>
    rw [List.eq_nil_of_length_eq_zero hlen.symm, List.eq_nil_of_length_eq_zero hlen'.symm] at h ⊢
    exact ⟨rfl, rfl, List.append_cancel_left h⟩
  | [], _ :: _ => exact absurd h struct_nil_append_ne
  | _ :: _, [] => exact absurd h.symm struct_nil_append_ne
  | name :: names, name' :: names' =>
    rw [chars_struct_cons, chars_struct_cons] at h
    simp only [List.append_assoc, List.cons_append] at h
    exact fields_append_inj hnames hnames' hlen hlen' hread (List.cons_ne_nil _ _)
      (List.cons_ne_nil _ _)
      (List.cons.inj (List.cons.inj (List.cons.inj (List.append_cancel_left h)).2).2).2

theorem cons_append_inj {c : Char} (h : c :: a ++ r = c :: b ++ r') : a ++ r = b ++ r' :=
  (List.cons.inj h).2

/-! ### Types of one form -/

section Forms

variable {name name' : String} {m n size size' align align' : Nat} {p q : Shape}
  {ps qs : List Shape}

theorem readsBack_named (hname : IsWord name) (hname' : IsWord name') :
    ReadsBack chars (named name) (named name') := by
  intro r r' hr hr' h
  rw [chars_named, chars_named] at h
  obtain ⟨rfl, hrest⟩ := name_append_inj hname hname' hr.stops hr'.stops h
  exact ⟨rfl, hrest⟩

theorem readsBack_any : ReadsBack chars any any :=
  fun _ _ _ _ h => ⟨rfl, List.append_cancel_left h⟩

theorem readsBack_pointer (hread : ReadsBack chars p q) :
    ReadsBack chars (pointer p) (pointer q) := by
  intro r r' hr hr' h
  rw [chars_pointer, chars_pointer] at h
  obtain ⟨rfl, hrest⟩ := hread r r' hr hr' (cons_append_inj h)
  exact ⟨rfl, hrest⟩

theorem readsBack_chan (hread : ReadsBack chars p q) : ReadsBack chars (chan p) (chan q) := by
  intro r r' hr hr' h
  rw [chars_chan, chars_chan, List.append_assoc, List.append_assoc] at h
  obtain ⟨rfl, hrest⟩ := hread r r' hr hr' (cons_append_inj (List.append_cancel_left h))
  exact ⟨rfl, hrest⟩

theorem readsBack_slice (hread : ReadsBack chars p q) : ReadsBack chars (slice p) (slice q) := by
  intro r r' hr hr' h
  rw [chars_slice, chars_slice] at h
  obtain ⟨rfl, hrest⟩ := hread r r' hr hr' (cons_append_inj (cons_append_inj h))
  exact ⟨rfl, hrest⟩

theorem readsBack_map {key key' value value' : Shape} (hkey : ReadsBack chars key key')
    (hvalue : ReadsBack chars value value') :
    ReadsBack chars (map key value) (map key' value') := by
  intro r r' hr hr' h
  rw [chars_map, chars_map] at h
  simp only [List.append_assoc, List.cons_append] at h
  obtain ⟨rfl, hrest⟩ := hkey _ _ (follows_bracket _) (follows_bracket _)
    (List.cons.inj (List.append_cancel_left h)).2
  obtain ⟨rfl, hr⟩ := hvalue r r' hr hr' (List.cons.inj hrest).2
  exact ⟨rfl, hr⟩

theorem readsBack_func {rs rs' : List Shape} (hps : ∀ p ∈ ps, p.WellFormed)
    (hqs : ∀ q ∈ qs, q.WellFormed) (hrs : ∀ p ∈ rs, p.WellFormed) (hrs' : ∀ q ∈ rs', q.WellFormed)
    (hparams : ∀ p ∈ ps, ∀ q ∈ qs, ReadsBack chars p q)
    (hresults : ∀ p ∈ rs, ∀ q ∈ rs', ReadsBack chars p q) :
    ReadsBack chars (func ps rs) (func qs rs') := by
  intro r r' hr hr' h
  rw [chars_func, chars_func] at h
  simp only [List.append_assoc, List.cons_append] at h
  obtain ⟨rfl, hrest⟩ := params_append_inj hps hqs hparams
    (List.cons.inj (List.append_cancel_left h)).2
  obtain ⟨rfl, hr⟩ := results_append_inj hrs hrs' hresults hr hr' hrest
  exact ⟨rfl, hr⟩

theorem readsBack_array (hread : ReadsBack chars p q) :
    ReadsBack chars (array m p) (array n q) := by
  intro r r' hr hr' h
  rw [chars_array, chars_array] at h
  simp only [List.append_assoc, List.cons_append] at h
  obtain ⟨rfl, hrest⟩ := number_append_inj (stops_cons (by decide)) (stops_cons (by decide))
    (List.cons.inj h).2
  obtain ⟨rfl, hr⟩ := hread r r' hr hr' (List.cons.inj hrest).2
  exact ⟨rfl, hr⟩

theorem readsBack_ordinal (hname : IsWord name) (hname' : IsWord name') :
    ReadsBack chars (ordinal name m) (ordinal name' n) := by
  intro r r' hr hr' h
  rw [chars_ordinal, chars_ordinal] at h
  simp only [List.append_assoc, List.cons_append] at h
  obtain ⟨rfl, hrest⟩ := name_append_inj hname hname' (stops_cons (by decide))
    (stops_cons (by decide)) h
  obtain ⟨rfl, hr⟩ := number_append_inj hr.stops hr'.stops (List.cons.inj hrest).2
  exact ⟨rfl, hr⟩

theorem readsBack_struct {names names' : List String} (hnames : ∀ name ∈ names, IsWord name)
    (hnames' : ∀ name ∈ names', IsWord name) (hlen : names.length = ps.length)
    (hlen' : names'.length = qs.length) (hread : ∀ p ∈ ps, ∀ q ∈ qs, ReadsBack chars p q) :
    ReadsBack chars (struct names ps) (struct names' qs) := by
  intro r r' _ _ h
  obtain ⟨rfl, rfl, hr⟩ := struct_append_inj hnames hnames' hlen hlen' hread h
  exact ⟨rfl, hr⟩

theorem readsBack_opaqueMemory :
    ReadsBack chars (opaqueMemory size align) (opaqueMemory size' align') := by
  intro r r' _ _ h
  rw [chars_opaqueMemory, chars_opaqueMemory] at h
  simp only [List.append_assoc, List.cons_append] at h
  obtain ⟨rfl, hrest⟩ := number_append_inj (stops_cons (by decide)) (stops_cons (by decide))
    (List.cons.inj (List.append_cancel_left h)).2
  obtain ⟨rfl, hr⟩ := number_append_inj (stops_cons (by decide)) (stops_cons (by decide))
    (List.append_cancel_left (List.cons.inj hrest).2)
  exact ⟨rfl, (List.cons.inj hr).2⟩

end Forms

/-! ### Types of any form -/

/-- The form can be read off the text, so only shapes of one form are left to be told apart. -/
theorem readsBack_of_form {s t : Shape} (hs : s.WellFormed) (ht : t.WellFormed)
    (hread : s.form = t.form → ReadsBack chars s t) : ReadsBack chars s t := by
  intro r r' hr hr' h
  have hform : s.form = t.form := by rw [← readForm_chars hs hr, h, readForm_chars ht hr']
  exact hread hform r r' hr hr' h

/-- A shape can be read off its text, whatever follows. -/
theorem chars_append_inj {s t : Shape} (hs : s.WellFormed) (ht : t.WellFormed) :
    ReadsBack chars s t := by
  refine readsBack_of_form hs ht fun hform => ?_
  induction hs generalizing t with
  | named hname =>
    cases ht with
    | named hname' => exact readsBack_named hname hname'
    | _ => cases hform
  | any =>
    cases ht with
    | any => exact readsBack_any
    | _ => cases hform
  | pointer helem ih =>
    cases ht with
    | pointer helem' =>
      exact readsBack_pointer (readsBack_of_form helem helem' (ih helem'))
    | _ => cases hform
  | chan helem ih =>
    cases ht with
    | chan helem' => exact readsBack_chan (readsBack_of_form helem helem' (ih helem'))
    | _ => cases hform
  | slice helem ih =>
    cases ht with
    | slice helem' => exact readsBack_slice (readsBack_of_form helem helem' (ih helem'))
    | _ => cases hform
  | map hkey hvalue ihk ihv =>
    cases ht with
    | map hkey' hvalue' =>
      exact readsBack_map (readsBack_of_form hkey hkey' (ihk hkey'))
        (readsBack_of_form hvalue hvalue' (ihv hvalue'))
    | _ => cases hform
  | func hps hrs ihp ihr =>
    cases ht with
    | func hps' hrs' =>
      exact readsBack_func hps hps' hrs hrs'
        (fun p hp q hq => readsBack_of_form (hps p hp) (hps' q hq) (ihp p hp (hps' q hq)))
        (fun p hp q hq => readsBack_of_form (hrs p hp) (hrs' q hq) (ihr p hp (hrs' q hq)))
    | _ => cases hform
  | array helem ih =>
    cases ht with
    | array helem' => exact readsBack_array (readsBack_of_form helem helem' (ih helem'))
    | _ => cases hform
  | ordinal hname =>
    cases ht with
    | ordinal hname' => exact readsBack_ordinal hname hname'
    | _ => cases hform
  | struct hnames hlen htypes ih =>
    cases ht with
    | struct hnames' hlen' htypes' =>
      exact readsBack_struct hnames hnames' hlen hlen' fun p hp q hq =>
        readsBack_of_form (htypes p hp) (htypes' q hq) (ih p hp (htypes' q hq))
    | _ => cases hform
  | opaqueMemory =>
    cases ht with
    | opaqueMemory => exact readsBack_opaqueMemory
    | _ => cases hform

/-- Different shapes have different texts. -/
theorem text_injective {s t : Shape} (hs : s.WellFormed) (ht : t.WellFormed)
    (h : s.text = t.text) : s = t := by
  refine (chars_append_inj hs ht [] [] trivial trivial ?_).1
  rw [chars, chars, h]

end Shape

end HashEq

import HashEq.Proofs.Machine.Calls

/-!
# The lists of a session

A session lists its functions and its closures by symbol. No two functions in the
list have the same symbol, and if no two types that functions are generated for
have the same text, no two closures do. So what a session knows determines the
lists: each is the only one in strict order with these members.

* `Sound.mem_functionList`, `Sound.mem_closureList`: what the lists contain;
* `Sound.functionList_increasing`, `Sound.closureList_increasing`: their order;
* `Settled.length_functionList`, `Sound.length_closureList`: what the counters count;
* `ClosureKey.symbol_inj`, `ClosureKey.symbol_ne_functionSymbol`: different things
  have different symbols;
* `functionList_congr`, `closureList_congr`: sessions that know the same list the same.
-/

namespace HashEq

/-! ### Lists in strict order -/

section Increasing

variable {α : Type} {symbol : α → String} {l l' : List α}

theorem increasing_mergeSort (h : l.Pairwise fun a b => symbol a ≠ symbol b) :
    (l.mergeSort fun a b => symbol a ≤ symbol b).Pairwise fun a b => symbol a < symbol b := by
  have htrans : ∀ a b c : α, decide (symbol a ≤ symbol b) = true →
      decide (symbol b ≤ symbol c) = true → decide (symbol a ≤ symbol c) = true := fun _ _ _ hab hbc =>
    decide_eq_true (String.le_trans (of_decide_eq_true hab) (of_decide_eq_true hbc))
  have htotal : ∀ a b : α, (decide (symbol a ≤ symbol b) || decide (symbol b ≤ symbol a)) = true :=
    fun a b => by simpa using String.le_total (symbol a) (symbol b)
  have hsorted := List.pairwise_mergeSort htrans htotal l
  have hne := h.perm (List.mergeSort_perm l fun a b => symbol a ≤ symbol b).symm fun hab => hab.symm
  exact hsorted.imp₂ (fun _ _ hle hne => Std.lt_of_le_of_ne (of_decide_eq_true hle) hne) hne

theorem nodup_of_increasing (h : l.Pairwise fun a b => symbol a < symbol b) : l.Nodup := by
  refine h.imp fun {a b} hlt heq => ?_
  rw [heq] at hlt
  exact String.lt_irrefl _ hlt

/-- There is only one way to put the members of a list into strict order. -/
theorem eq_of_increasing (h : l.Pairwise fun a b => symbol a < symbol b)
    (h' : l'.Pairwise fun a b => symbol a < symbol b) (hmem : ∀ a, a ∈ l ↔ a ∈ l') : l = l' := by
  have hperm := (List.perm_ext_iff_of_nodup (nodup_of_increasing h) (nodup_of_increasing h')).2 hmem
  exact hperm.eq_of_pairwise (fun a b _ _ hab hba => absurd hba (String.lt_asymm hab)) h h'

end Increasing

/-! ### The symbols of closures -/

theorem stem_append_inj {purpose purpose' : Purpose} {a b : String}
    (h : Closure.stem purpose ++ a = Closure.stem purpose' ++ b) : purpose = purpose' ∧ a = b := by
  have hlist := congrArg String.toList h
  cases purpose <;> cases purpose'
  · exact ⟨rfl, (String.append_right_inj _).1 h⟩
  · simp [Closure.stem, String.toList_append] at hlist
  · simp [Closure.stem, String.toList_append] at hlist
  · exact ⟨rfl, (String.append_right_inj _).1 h⟩

theorem functionSymbol_ne_stem (purpose purpose' : Purpose) (a b : String) :
    functionSymbol purpose a ≠ Closure.stem purpose' ++ b := by
  intro h
  have hlist := congrArg String.toList h
  cases purpose <;> cases purpose' <;>
    simp [functionSymbol, Closure.stem, String.toList_append] at hlist

theorem closureSymbol_ne_stem (primitive : Primitive) (purpose : Purpose) (a : String) :
    primitive.closureSymbol ≠ Closure.stem purpose ++ a := by
  intro h
  have hlist := congrArg String.toList h
  cases purpose <;>
    simp [Primitive.closureSymbol, Primitive.symbol, Closure.stem, String.toList_append] at hlist

theorem closureSymbol_ne_functionSymbol (primitive : Primitive) (purpose : Purpose) (a : String) :
    primitive.closureSymbol ≠ functionSymbol purpose a := by
  intro h
  have hlist := congrArg String.toList h
  cases purpose <;>
    simp [Primitive.closureSymbol, Primitive.symbol, functionSymbol, String.toList_append] at hlist

theorem closureSymbol_inj {a b : Primitive} (h : a.closureSymbol = b.closureSymbol) : a = b := by
  have hname : a.name = b.name :=
    (String.append_right_inj "runtime.").1 ((String.append_left_inj "·f").1 h)
  have hfound := a.ofName?_name
  rw [hname, b.ofName?_name] at hfound
  exact (Option.some.inj hfound).symm

/-- A number does not begin with a dot. -/
theorem repr_ne_dot (n : Nat) (text : String) : n.repr ≠ "." ++ text := by
  intro h
  have hmem : '.' ∈ n.repr.toList := by
    rw [h, String.toList_append]
    exact List.mem_append_left _ (List.mem_singleton_self _)
  rw [Nat.toList_repr] at hmem
  exact absurd (Nat.isDigit_of_mem_toDigits (by decide) (by decide) hmem) (by decide)

namespace ClosureKey

variable {table : TypeTable} {key key' : ClosureKey}

/-- The symbol of the closure that a key stands for. -/
def symbol (table : TypeTable) : ClosureKey → String
  | primitive p => p.closureSymbol
  | varMemory purpose size => Closure.symbolOfSize purpose size
  | generated ty purpose => Closure.symbolOfText purpose (table.shape ty).text

/-- If a function is generated for the type that a key names, the table has the type. -/
def Fits (table : TypeTable) : ClosureKey → Prop
  | generated ty _ => table.Has ty ∧ table.base ty = .special
  | _ => True

/-- Sizes are glued to the stem, texts follow a dot; so different keys have different symbols. -/
theorem symbol_inj (h : TypeTable.Lawful table) (hdistinct : table.TextsDistinct)
    (hkey : key.Fits table) (hkey' : key'.Fits table) (heq : key.symbol table = key'.symbol table) :
    key = key' := by
  cases key with
  | primitive a =>
    cases key' with
    | primitive b => rw [closureSymbol_inj heq]
    | varMemory purpose size => exact absurd heq (closureSymbol_ne_stem a purpose _)
    | generated ty purpose =>
      rw [symbol, symbol, Closure.symbolOfText, String.append_assoc] at heq
      exact absurd heq (closureSymbol_ne_stem a purpose _)
  | varMemory purpose size =>
    cases key' with
    | primitive b => exact absurd heq.symm (closureSymbol_ne_stem b purpose _)
    | varMemory purpose' size' =>
      obtain ⟨rfl, hsize⟩ := stem_append_inj heq
      rw [UInt64.toNat_inj.1 (Nat.repr_inj.1 hsize)]
    | generated ty purpose' =>
      rw [symbol, symbol, Closure.symbolOfText, String.append_assoc] at heq
      -- No size starts with a dot.
      exact absurd (stem_append_inj heq).2 (repr_ne_dot _ _)
  | generated ty purpose =>
    cases key' with
    | primitive b =>
      rw [symbol, symbol, Closure.symbolOfText, String.append_assoc] at heq
      exact absurd heq.symm (closureSymbol_ne_stem b purpose _)
    | varMemory purpose' size' =>
      rw [symbol, symbol, Closure.symbolOfText, String.append_assoc] at heq
      exact absurd (stem_append_inj heq).2.symm (repr_ne_dot _ _)
    | generated ty' purpose' =>
      rw [symbol, symbol, Closure.symbolOfText, Closure.symbolOfText, String.append_assoc,
        String.append_assoc] at heq
      obtain ⟨rfl, htext⟩ := stem_append_inj heq
      have htext := (String.append_right_inj ".").1 htext
      have hty : ty = ty' := hdistinct hkey.1 hkey'.1 hkey.2 hkey'.2
        (by rw [h.text_eq hkey.1, h.text_eq hkey'.1, htext])
      rw [hty]

/-- No closure is called like a function. -/
theorem symbol_ne_functionSymbol (table : TypeTable) (key : ClosureKey) (purpose : Purpose)
    (text : String) : key.symbol table ≠ functionSymbol purpose text := by
  cases key with
  | primitive primitive => exact closureSymbol_ne_functionSymbol primitive purpose text
  | varMemory purpose' size => exact (functionSymbol_ne_stem purpose purpose' text _).symm
  | generated ty purpose' =>
    rw [symbol, Closure.symbolOfText, String.append_assoc]
    exact (functionSymbol_ne_stem purpose purpose' text _).symm

end ClosureKey

namespace Session

open TypeTable

variable {table : TypeTable} {s s' : Session} {f : Function} {c : Closure} {key : ClosureKey}

theorem symbol_of_make_eq_ok {pointerSize : Word} {symbol : String} {target : Callee}
    {payload : Option Word} (h : Closure.make pointerSize symbol target payload = .ok c) :
    c.symbol = symbol := by
  obtain ⟨size, _, h⟩ := bind_eq_ok_iff.1 h
  cases h
  rfl

/-- The symbol of a closure tells what the closure is for. -/
theorem Sound.symbol_closure (h : Lawful table) (hs : Sound table s)
    (hc : s.closures.get? key = some c) : c.symbol = key.symbol table ∧ key.Fits table := by
  have hbuilds := hs.closures hc
  cases key with
  | primitive primitive => exact ⟨symbol_of_make_eq_ok hbuilds.2, trivial⟩
  | varMemory purpose size => exact ⟨symbol_of_make_eq_ok hbuilds, trivial⟩
  | generated ty purpose =>
    obtain ⟨f, hf, hwrap⟩ := hbuilds
    obtain ⟨hty, hspecial, hsynthesize, _⟩ := hs.of_get? h hf
    obtain ⟨_, hpurpose, _⟩ := of_synthesize_eq_ok hsynthesize
    refine ⟨?_, hty, hspecial⟩
    obtain ⟨text, htext, hmake⟩ := make_of_wrap_eq_ok hwrap
    rw [h.text_eq hty] at htext
    cases htext
    rw [hpurpose] at hmake
    exact symbol_of_make_eq_ok hmake

/-! ### Functions -/

section Functions

theorem Sound.key_of_get? (hs : Sound table s) {k : TypeId × Purpose}
    (hf : s.functions.get? k = some f) : k = (f.ty, f.purpose) := by
  obtain ⟨hty, hpurpose, _⟩ := of_synthesize_eq_ok (hs.generated hf).2
  rw [hty, hpurpose]

/-- The list is in strict order, as no two functions are registered under one symbol. -/
theorem Sound.functionList_increasing (hs : Sound table s) :
    s.functionList.Pairwise fun f g => f.symbol < g.symbol := by
  refine increasing_mergeSort (pairwise_values fun hf hg hne heq => hne ?_)
  rw [← (hs.known hf).1, ← (hs.known hg).1, heq]

variable (h : Lawful table) (hdistinct : table.TextsDistinct) (hs : Sound table s)
include h hdistinct hs

/-- A symbol stands for the function that has it. -/
theorem Sound.function?_eq_some_iff {symbol : String} : s.function? symbol = some f ↔
    f.symbol = symbol ∧ s.functions.get? (f.ty, f.purpose) = some f := by
  refine ⟨hs.known, fun ⟨hsymbol, hf⟩ => ?_⟩
  rw [← hsymbol]
  exact hs.function?_symbol h hdistinct hf

/-- The list contains the functions that were generated. -/
theorem Sound.mem_functionList :
    f ∈ s.functionList ↔ s.functions.get? (f.ty, f.purpose) = some f := by
  rw [functionList, List.mem_mergeSort, mem_values_iff]
  constructor
  · rintro ⟨symbol, hf⟩
    exact (hs.known hf).2
  · intro hf
    exact ⟨f.symbol, hs.function?_symbol h hdistinct hf⟩

/-- Every function that is known stands in the list, once. -/
theorem Sound.functionList_of_knows {ty : TypeId} {purpose : Purpose}
    (hknows : s.Knows (.function ty purpose)) :
    ∃ f ∈ s.functionList, f.ty = ty ∧ f.purpose = purpose ∧
      ∀ g ∈ s.functionList, g.ty = ty → g.purpose = purpose → g = f := by
  obtain ⟨f, hf⟩ := hknows
  have hkey := Prod.mk.inj (hs.key_of_get? hf)
  refine ⟨f, ?_, hkey.1.symm, hkey.2.symm, fun g hg hty hpurpose => ?_⟩
  · rwa [hs.mem_functionList h hdistinct, ← hkey.1, ← hkey.2]
  · rw [hs.mem_functionList h hdistinct, hty, hpurpose, hf] at hg
    exact (Option.some.inj hg).symm

end Functions

/-- The counter counts the list. -/
theorem Settled.length_functionList (h : Lawful table) (hdistinct : table.TextsDistinct)
    (hs : Settled table s) : s.functionList.length = s.functionCount := by
  have hvalues : s.functions.values.Nodup := Memo.pairwise_values fun hf hg hne heq => hne (by
    rw [hs.key_of_get? hf, hs.key_of_get? hg, heq])
  rw [hs.counted]
  refine ((List.perm_ext_iff_of_nodup (nodup_of_increasing hs.functionList_increasing) hvalues).2
    fun f => ?_).length_eq
  rw [hs.mem_functionList h hdistinct, Memo.mem_values]
  constructor
  · exact fun hf => ⟨_, hf⟩
  · rintro ⟨k, hf⟩
    rwa [hs.key_of_get? hf] at hf

/-! ### Closures -/

theorem mem_closureList : c ∈ s.closureList ↔ ∃ key, s.closures.get? key = some c := by
  rw [closureList, List.mem_mergeSort, Memo.mem_values]

/-- The counter counts the list, as no closure is left unfinished. -/
theorem length_closureList (hpending : ∀ key, ¬s.closures.Pending key) :
    s.closureList.length = s.closureCount := by
  rw [closureList, List.length_mergeSort, Memo.length_values hpending, closureCount]

section Closures

variable (h : Lawful table) (hs : Sound table s)
include h hs

theorem Sound.key_inj (hdistinct : table.TextsDistinct) {key' : ClosureKey} {c' : Closure}
    (hc : s.closures.get? key = some c) (hc' : s.closures.get? key' = some c')
    (heq : c.symbol = c'.symbol) : key = key' := by
  obtain ⟨hsymbol, hfits⟩ := hs.symbol_closure h hc
  obtain ⟨hsymbol', hfits'⟩ := hs.symbol_closure h hc'
  exact ClosureKey.symbol_inj h hdistinct hfits hfits' (by rw [← hsymbol, ← hsymbol', heq])

theorem Sound.closureList_increasing (hdistinct : table.TextsDistinct) :
    s.closureList.Pairwise fun c d => c.symbol < d.symbol :=
  increasing_mergeSort (Memo.pairwise_values fun hc hd hne heq => hne (hs.key_inj h hdistinct hc hd heq))

/-- No closure is called like a function. -/
theorem Sound.symbol_closure_ne (hc : s.closures.get? key = some c) {k : TypeId × Purpose}
    (hf : s.functions.get? k = some f) : c.symbol ≠ f.symbol := by
  rw [(hs.symbol_closure h hc).1, (hs.of_get? h hf).2.2.2]
  exact key.symbol_ne_functionSymbol table _ _

end Closures

/-! ### Sessions that know the same -/

/-- What two sessions know they have in common, as the type table gives it. -/
theorem extends_of_knows (hs : Settled table s) (hs' : Settled table s')
    (hknows : ∀ cell, s.Knows cell → s'.Knows cell) : Extends s' s := by
  have hfunctions : ∀ {k : TypeId × Purpose} {f : Function}, s.functions.get? k = some f →
      s'.functions.get? k = some f := by
    intro k f hf
    obtain ⟨g, hg⟩ := hknows (.function k.1 k.2) ⟨f, hf⟩
    rwa [Except.ok.inj ((hs.generated hf).2.symm.trans (hs'.generated hg).2)]
  refine ⟨hfunctions, fun {key c} hc => ?_⟩
  obtain ⟨c', hc'⟩ := hknows (.closure key) ⟨c, hc⟩
  suffices heq : c = c' by rwa [heq]
  have hbuilds := hs.closures hc
  have hbuilds' := hs'.closures hc'
  cases key with
  | primitive primitive => exact Except.ok.inj (hbuilds.2.symm.trans hbuilds'.2)
  | varMemory purpose size => exact Except.ok.inj (hbuilds.symm.trans hbuilds')
  | generated ty purpose =>
    obtain ⟨f, hf, hwrap⟩ := hbuilds
    obtain ⟨f', hf', hwrap'⟩ := hbuilds'
    cases (hfunctions hf).symm.trans hf'
    exact Except.ok.inj (hwrap.symm.trans hwrap')

section Congr

variable (h : Lawful table) (hdistinct : table.TextsDistinct) (hs : Settled table s)
  (hs' : Settled table s') (hknows : ∀ cell, s.Knows cell ↔ s'.Knows cell)
include h hdistinct hs hs' hknows

theorem functionList_congr : s.functionList = s'.functionList := by
  have hextends := extends_of_knows hs hs' fun cell => (hknows cell).1
  have hextends' := extends_of_knows hs' hs fun cell => (hknows cell).2
  refine eq_of_increasing hs.functionList_increasing hs'.functionList_increasing fun f => ?_
  rw [hs.mem_functionList h hdistinct, hs'.mem_functionList h hdistinct]
  exact ⟨hextends.functions, hextends'.functions⟩

theorem closureList_congr : s.closureList = s'.closureList := by
  have hextends := extends_of_knows hs hs' fun cell => (hknows cell).1
  have hextends' := extends_of_knows hs' hs fun cell => (hknows cell).2
  refine eq_of_increasing (hs.closureList_increasing h hdistinct)
    (hs'.closureList_increasing h hdistinct) fun c => ?_
  rw [mem_closureList, mem_closureList]
  exact ⟨fun ⟨key, hc⟩ => ⟨key, hextends.closures hc⟩, fun ⟨key, hc⟩ => ⟨key, hextends'.closures hc⟩⟩

end Congr

end Session

end HashEq

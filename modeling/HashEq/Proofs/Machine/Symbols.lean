import HashEq.Proofs.Machine.Reachable

/-!
# What a symbol stands for

The symbol of a generated function tells the purpose and the text of its type. A
session knows one function for a symbol. That is the one for the type if no other
type that functions are generated for has the same text.

* `TextsDistinct`, `Sound.function?_symbol`: what a symbol stands for then;
* `Machine.function?_of_generate`: what it stands for in general.
-/

namespace HashEq

namespace TypeTable

/-- Types that functions are generated for have different texts. -/
def TextsDistinct (table : TypeTable) : Prop :=
  ∀ {a b : TypeId}, table.Has a → table.Has b → table.base a = .special →
    table.base b = .special → table.text a = table.text b → a = b

theorem Built.textsDistinct {table : TypeTable} (h : Built table) (hnamed : table.WellNamed)
    (hplain : table.Unmistakable) : table.TextsDistinct := fun ha hb _ _ htext =>
  h.eq_of_shape_eq hnamed hplain ha hb ((h.lawful.text_eq_iff hnamed ha hb).1 htext)

end TypeTable

theorem functionSymbol_inj {purpose purpose' : Purpose} {text text' : String}
    (h : functionSymbol purpose text = functionSymbol purpose' text') :
    purpose = purpose' ∧ text = text' := by
  have hlist := congrArg String.toList h
  cases purpose <;> cases purpose'
  · exact ⟨rfl, (String.append_right_inj _).1 h⟩
  · simp [functionSymbol, String.toList_append] at hlist
  · simp [functionSymbol, String.toList_append] at hlist
  · exact ⟨rfl, (String.append_right_inj _).1 h⟩

namespace Session

open TypeTable

variable {table : TypeTable} {s : Session} {ty : TypeId} {purpose : Purpose} {f : Function}

/-- A function that was generated has a symbol, and what that stands for is a function for the same
    purpose and a type with the same text. -/
theorem Sound.function?_text (h : Lawful table) (hs : Sound table s)
    (hf : s.functions.get? (ty, purpose) = some f) :
    ∃ g, s.function? f.symbol = some g ∧ g.purpose = purpose ∧
      s.functions.get? (g.ty, purpose) = some g ∧
      (table.Has ty ∧ table.base ty = .special) ∧
      (table.Has g.ty ∧ table.base g.ty = .special) ∧ table.text g.ty = table.text ty := by
  obtain ⟨g, hg⟩ := hs.registered hf
  obtain ⟨hsymbol, hget⟩ := hs.known hg
  obtain ⟨hcustom, hsynthesize⟩ := hs.generated hf
  obtain ⟨hcustom', hsynthesize'⟩ := hs.generated hget
  have hty := h.requireCustom_eq_ok_iff.1 hcustom
  have hty' := h.requireCustom_eq_ok_iff.1 hcustom'
  obtain ⟨_, _, heq⟩ := of_synthesize_eq_ok hsynthesize
  obtain ⟨_, _, heq'⟩ := of_synthesize_eq_ok hsynthesize'
  rw [h.symbolOf_eq hty.1] at heq
  rw [h.symbolOf_eq hty'.1, hsymbol, ← heq] at heq'
  obtain ⟨hpurpose, htext⟩ := functionSymbol_inj (Except.ok.inj heq')
  refine ⟨g, hg, hpurpose, hpurpose ▸ hget, hty, hty', ?_⟩
  rw [h.text_eq hty.1, h.text_eq hty'.1, htext]

/-- The symbol of a function stands for this very function if types have different texts. -/
theorem Sound.function?_symbol (h : Lawful table) (hdistinct : table.TextsDistinct)
    (hs : Sound table s) (hf : s.functions.get? (ty, purpose) = some f) :
    s.function? f.symbol = some f := by
  obtain ⟨g, hg, _, hget, hty, hty', htext⟩ := hs.function?_text h hf
  have heq := hdistinct hty'.1 hty.1 hty'.2 hty.2 htext
  rw [heq, hf] at hget
  rw [hg, hget]

end Session

namespace Machine

open TypeTable

variable {table : TypeTable}

/-- Types have the same text exactly if they have the same shape, and only then does the symbol of
    one stand for the function of the other, now or later. Different types have different shapes
    if no field is named like blank fields are written, and no interface like a struct. -/
theorem function?_of_generate (h : Built table) (hnamed : table.WellNamed) :
    (∀ a b : TypeId, table.Has a → table.Has b →
      (table.text a = table.text b ↔ table.shape a = table.shape b)) ∧
    (table.Unmistakable → ∀ a b : TypeId, table.Has a → table.Has b →
      table.text a = table.text b → a = b) ∧
    ∀ (machine machine' later : Machine) (purpose : Purpose) (ty : TypeId) (f : Function),
      Reachable table machine →
      request (Session.generate · purpose ty) machine = (.ok f, machine') → Leads machine' later →
      ∃ g, later.session.function? f.symbol = some g ∧ g.purpose = purpose ∧
        table.shape g.ty = table.shape ty ∧ (table.Unmistakable → g.ty = ty) := by
  have htext : ∀ a b : TypeId, table.Has a → table.Has b →
      (table.text a = table.text b ↔ table.shape a = table.shape b) :=
    fun _ _ ha hb => h.lawful.text_eq_iff hnamed ha hb
  have hunmistakable : table.Unmistakable → ∀ a b : TypeId, table.Has a → table.Has b →
      table.text a = table.text b → a = b :=
    fun hplain a b ha hb heq => h.eq_of_shape_eq hnamed hplain ha hb ((htext a b ha hb).1 heq)
  refine ⟨htext, hunmistakable, fun machine machine' later purpose ty f hreachable hrun hleads => ?_⟩
  obtain ⟨rfl, hsound⟩ := hreachable.sound h
  -- The function is known when it has been generated, and nothing is forgotten later on.
  have hgenerate : Session.Runs machine.table machine.session
      (EvalM.ofRequest (Session.generate machine.table purpose ty)) fun answer s =>
        ∀ f, answer = .ok f → s.functions.get? (ty, purpose) = some f :=
    (Session.runs_generate h.lawful hsound purpose).ofRequest fun answer s hanswer f hf => by
      cases answer with
      | error e => cases hf
      | ok g =>
        cases hf
        exact hanswer
  rw [request, evaluate_apply, Prod.mk.injEq] at hrun
  obtain ⟨hanswer, rfl⟩ := hrun
  obtain ⟨_, hsound', hextends⟩ := hleads.sound h hgenerate.sound
  obtain ⟨g, hg, hpurpose, _, hty, hty', heq⟩ :=
    hsound'.function?_text h.lawful (hextends.functions (hgenerate.post f hanswer))
  exact ⟨g, hg, hpurpose, (htext _ _ hty'.1 hty.1).1 heq,
    fun hplain => hunmistakable hplain _ _ hty'.1 hty.1 heq⟩

/-- The texts of the two structs in the table of pairs, and the hash function of the second one. -/
theorem function?_of_generate_pairs :
    pairTable.text ⟨32⟩ ≠ pairTable.text ⟨33⟩ ∧
    ∃ f g machine',
      request (Session.generate · .hash ⟨33⟩) (ofTable pairTable) = (.ok f, machine') ∧
      machine'.session.function? f.symbol = some g ∧ g.purpose = .hash ∧ g.ty = ⟨33⟩ := by
  have hbuilt := built_pairTable
  have hhas : pairTable.Has ⟨32⟩ ∧ pairTable.Has ⟨33⟩ ∧ pairTable.base ⟨33⟩ = .special := by
    decide +kernel
  obtain ⟨_, hdistinct, hfound⟩ := function?_of_generate hbuilt wellNamed_pairTable
  refine ⟨fun htext => ?_, ?_⟩
  · have heq := hdistinct unmistakable_pairTable _ _ hhas.1 hhas.2.1 htext
    exact absurd heq (by decide)
  · have hgenerate : Session.Runs pairTable .empty
        (EvalM.ofRequest (Session.generate pairTable .hash ⟨33⟩)) fun answer _ =>
          ∃ f, answer = .ok f :=
      (Session.runs_generate hbuilt.lawful (Session.sound_empty _) .hash).ofRequest
        fun answer _ hanswer => by
        cases answer with
        | error e => exact absurd hhas.2 hanswer
        | ok f => exact ⟨f, rfl⟩
    obtain ⟨f, hf⟩ := hgenerate.post
    obtain ⟨g, hg, hpurpose, _, hty⟩ := hfound (ofTable pairTable) _ _ .hash ⟨33⟩ f .refl
      (Prod.ext hf rfl) .refl
    exact ⟨f, g, _, Prod.ext hf rfl, hg, hpurpose, hty unmistakable_pairTable⟩

end Machine

end HashEq

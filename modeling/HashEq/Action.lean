/-!
# Actions

An action on a state is answered or fails, and either way it leaves a state: what it
has changed before it fails stays.

* `bind_apply`: an action that fails is not followed by another one;
* `outcome`: what an action answers, with the state that it leaves then.
-/

namespace HashEq

variable {ε σ α β : Type}

/-- An action that fails is not followed by another one. -/
theorem bind_apply (action : ExceptT ε (StateM σ) α) (next : α → ExceptT ε (StateM σ) β) (s : σ) :
    (action >>= next) s = match action s with
      | (.ok a, s') => next a s'
      | (.error e, s') => (.error e, s') := by
  change ExceptT.bindCont next (action s).1 (action s).2 = _
  rcases action s with ⟨_ | _, s'⟩ <;> rfl

theorem of_bind_eq_ok {action : ExceptT ε (StateM σ) α} {next : α → ExceptT ε (StateM σ) β}
    {s later : σ} {b : β} (h : (action >>= next) s = (.ok b, later)) :
    ∃ a between, action s = (.ok a, between) ∧ next a between = (.ok b, later) := by
  rw [bind_apply] at h
  rcases haction : action s with ⟨_ | a, between⟩
  · rw [haction] at h
    cases h
  · rw [haction] at h
    exact ⟨a, between, rfl, h⟩

theorem of_bind_eq_error {action : ExceptT ε (StateM σ) α} {next : α → ExceptT ε (StateM σ) β}
    {s later : σ} {e : ε} (h : (action >>= next) s = (.error e, later)) :
    action s = (.error e, later) ∨
      ∃ a between, action s = (.ok a, between) ∧ next a between = (.error e, later) := by
  rw [bind_apply] at h
  rcases haction : action s with ⟨e' | a, between⟩ <;> rw [haction] at h
  · cases h
    exact .inl rfl
  · exact .inr ⟨a, between, rfl, h⟩

theorem get_bind (next : σ → ExceptT ε (StateM σ) β) (s : σ) : (get >>= next) s = next s s :=
  rfl

/-- A question that does not depend on the state leaves it as it is. -/
theorem liftM_apply (question : Except ε α) (s : σ) :
    (liftM question : ExceptT ε (StateM σ) α) s = (question, s) :=
  rfl

/-- What an action answers, with the state that it leaves then. -/
def outcome (action : ExceptT ε (StateM σ) α) (s : σ) : Except ε (α × σ) :=
  match action s with
  | (.ok a, later) => .ok (a, later)
  | (.error e, _) => .error e

variable {action : ExceptT ε (StateM σ) α} {s later : σ}

theorem outcome_eq_ok_iff {a : α} : outcome action s = .ok (a, later) ↔ action s = (.ok a, later) := by
  unfold outcome
  rcases action s with ⟨e | a', later'⟩
  · exact ⟨nofun, nofun⟩
  · constructor
    · rintro ⟨⟩
      rfl
    · rintro ⟨⟩
      rfl

theorem outcome_eq_error_iff {e : ε} :
    outcome action s = .error e ↔ ∃ later, action s = (.error e, later) := by
  unfold outcome
  rcases action s with ⟨e' | a, later'⟩
  · constructor
    · rintro ⟨⟩
      exact ⟨later', rfl⟩
    · rintro ⟨_, ⟨⟩⟩
      rfl
  · exact ⟨nofun, nofun⟩

end HashEq

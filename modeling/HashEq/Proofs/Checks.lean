import HashEq.Machine.Structural

/-!
# Checks in order

Values are compared by a list of checks, each of which holds, does not hold or
fails. Checks are made in order, and the first that does not hold or fails is the
last one made.

* `conj`: the outcome of a list of checks;
* `conj_append`, `conj_flatMap`: checks can be grouped;
* `conj_eq_all`: when no check fails that is reached, the outcome does not depend
  on the order.
-/

namespace HashEq

variable {ε α : Type}

/-- The outcome of checks made in order. -/
def conj : List (Except ε Bool) → Except ε Bool
  | [] => .ok true
  | .ok true :: rest => conj rest
  | .ok false :: _ => .ok false
  | .error e :: _ => .error e

/-- The outcome of a check followed by further ones. -/
theorem conj_cons (check : Except ε Bool) (rest : List (Except ε Bool)) :
    conj (check :: rest) = check >>= fun holds => if holds then conj rest else .ok false := by
  rcases check with e | _ | _ <;> rfl

theorem conj_singleton (check : Except ε Bool) : conj [check] = check := by
  rcases check with e | _ | _ <;> rfl

/-- Checks made in order hold together exactly if each of them does. -/
theorem conj_eq_true_iff {checks : List (Except ε Bool)} :
    conj checks = .ok true ↔ ∀ check ∈ checks, check = .ok true := by
  induction checks with
  | nil => exact iff_of_true rfl nofun
  | cons check rest ih =>
    rw [List.forall_mem_cons, ← ih]
    rcases check with e | _ | _
    · exact iff_of_false nofun fun h => nomatch h.1
    · exact iff_of_false nofun fun h => nomatch h.1
    · exact (and_iff_right rfl).symm

theorem conj_append (a b : List (Except ε Bool)) :
    conj (a ++ b) = conj a >>= fun holds => if holds then conj b else .ok false := by
  induction a with
  | nil => rfl
  | cons check a ih =>
    rcases check with e | _ | _
    · rfl
    · rfl
    · exact ih

/-- Checks can be made group by group. -/
theorem conj_flatMap (l : List α) (checks : α → List (Except ε Bool)) :
    conj (l.flatMap checks) = conj (l.map fun a => conj (checks a)) := by
  induction l with
  | nil => rfl
  | cons a l ih => rw [List.flatMap_cons, conj_append, List.map_cons, conj_cons, ih]

theorem conj_map_congr {l : List α} {v w : α → Except ε Bool} (h : ∀ a ∈ l, v a = w a) :
    conj (l.map v) = conj (l.map w) := by
  rw [List.map_congr_left h]

/-- When every check that is reached has an outcome, all of them have to hold. -/
theorem conj_eq_all {v : α → Except ε Bool} {t : α → Bool} {l : List α}
    (h : ∀ before a after, l = before ++ a :: after → before.all t = true → v a = .ok (t a)) :
    conj (l.map v) = .ok (l.all t) := by
  induction l with
  | nil => rfl
  | cons a l ih =>
    rw [List.map_cons, conj_cons, h [] a l rfl rfl, List.all_cons]
    cases ha : t a with
    | false => rfl
    | true =>
      refine ih fun before b after hl hbefore => h (a :: before) b after (by rw [hl]; rfl) ?_
      rw [List.all_cons, ha, hbefore, Bool.and_self]

/-- Checks that all have an outcome have to hold. -/
theorem conj_map_ok (t : α → Bool) (l : List α) :
    conj (l.map fun a => (.ok (t a) : Except ε Bool)) = .ok (l.all t) :=
  conj_eq_all fun _ _ _ _ _ => rfl

/-- Only a step that is taken matters. -/
theorem bind_congr_ok {β : Type} {x : Except ε α} {f g : α → Except ε β}
    (h : ∀ a, x = .ok a → f a = g a) : x >>= f = x >>= g := by
  cases x with
  | error e => rfl
  | ok a => exact h a rfl

theorem foldlM_congr {σ : Type} {f g : σ → α → Except ε σ} {l : List α}
    (h : ∀ state, ∀ a ∈ l, f state a = g state a) (state : σ) : l.foldlM f state = l.foldlM g state := by
  induction l generalizing state with
  | nil => rfl
  | cons a l ih =>
    rw [List.foldlM_cons, List.foldlM_cons, h state a List.mem_cons_self]
    refine bind_congr fun state' => ih (fun state b hb => h state b (List.mem_cons_of_mem a hb)) _

/-- Steps that never fail make a plain fold. -/
theorem foldlM_eq_foldl {σ : Type} {step : σ → α → Except ε σ} {f : σ → α → σ} {l : List α}
    (h : ∀ state, ∀ a ∈ l, step state a = .ok (f state a)) (state : σ) :
    l.foldlM step state = .ok (l.foldl f state) := by
  induction l generalizing state with
  | nil => rfl
  | cons a l ih =>
    rw [List.foldlM_cons, h state a List.mem_cons_self, List.foldl_cons]
    exact ih (fun state b hb => h state b (List.mem_cons_of_mem a hb)) _

/-- Steps can be made group by group. -/
theorem foldlM_flatMap {β σ : Type} (l : List α) (f : α → List β) (step : σ → β → Except ε σ)
    (state : σ) :
    (l.flatMap f).foldlM step state = l.foldlM (fun state a => (f a).foldlM step state) state := by
  induction l generalizing state with
  | nil => rfl
  | cons a l ih =>
    rw [List.flatMap_cons, List.foldlM_append, List.foldlM_cons]
    exact bind_congr ih

/-! ### Walks -/

namespace Structural

theorem allFrom_eq_conj (check : Nat → Except ε Bool) (i n : Nat) :
    allFrom check i n = conj ((List.range' i n).map check) := by
  induction n generalizing i with
  | zero => rfl
  | succ n ih =>
    rw [List.range'_succ, List.map_cons, conj_cons, allFrom, ← ih]
    rcases check i with e | _ | _ <;> rfl

theorem allM_eq_conj (check : α → Except ε Bool) (l : List α) :
    l.allM check = conj (l.map check) := by
  induction l with
  | nil => rfl
  | cons a l ih =>
    rw [List.allM, ih, List.map_cons, conj_cons]
    rcases check a with e | _ | _ <;> rfl

theorem foldFrom_eq_foldlM {σ : Type} (step : Nat → σ → Except ε σ) (i n : Nat) (state : σ) :
    foldFrom step i n state = (List.range' i n).foldlM (fun state i => step i state) state := by
  induction n generalizing i state with
  | zero => rfl
  | succ n ih =>
    rw [List.range'_succ, List.foldlM_cons, foldFrom]
    cases step i state with
    | error e => rfl
    | ok state => exact ih _ _

end Structural

end HashEq

import Mathlib.Logic.Relation

/-!
Finite runs of a labelled transition system and the induction rules used on
them. A condition on steps is expressed by the step relation itself, so a run
all of whose steps meet a condition is a run of the restricted relation.
-/
namespace ColorXv6.Lib.Runs

variable {σ α : Type}

inductive Run (step : σ → α → σ → Prop) : σ → List α → σ → Prop where
  | nil (s : σ) : Run step s [] s
  | cons {s t u : σ} {a : α} {rest : List α} (first : step s a t) (later : Run step t rest u) :
      Run step s (a :: rest) u

/-- The steps of `step` whose label and source state satisfy `cond`. -/
def Guarded (cond : σ → α → Prop) (step : σ → α → σ → Prop) (s : σ) (a : α) (t : σ) : Prop :=
  cond s a ∧ step s a t

variable {step : σ → α → σ → Prop}

variable {s t : σ} {acts : List α}

/-- One-step preservation extends to every run. -/
theorem Run.preserves (inv : σ → Prop) (keeps : ∀ s a t, inv s → step s a t → inv t)
    (run : Run step s acts t) (start : inv s) : inv t := by
  induction run with
  | nil s => exact start
  | cons first later ih => exact ih (keeps _ _ _ start first)

theorem Run.snoc {u : σ} {a : α} (run : Run step s acts t)
    (last : step t a u) : Run step s (acts ++ [a]) u := by
  induction run with
  | nil s => exact .cons last (.nil u)
  | cons first later ih => exact .cons first (ih last)

/-- A run of a restricted relation is a run of the unrestricted one. -/
theorem Run.mono {step' : σ → α → σ → Prop} (weaker : ∀ s a t, step s a t → step' s a t)
    (run : Run step s acts t) : Run step' s acts t := by
  induction run with
  | nil s => exact .nil s
  | cons first _ ih => exact .cons (weaker _ _ _ first) ih

/-- A step behind a guard was taken. -/
theorem guarded {c : Prop} [Decidable c] (taken : (if c then some s else none) = some t) :
    c ∧ s = t := by
  obtain ⟨holds, same⟩ := Option.ite_none_right_eq_some.mp taken
  exact ⟨holds, Option.some.inj same⟩

/-- A lock that is free or with one holder is not with another. -/
theorem not_held {κ : Type} {lock : Option κ} {h q : κ} (mine : lock = none ∨ lock = some h)
    (other : q ≠ h) : lock ≠ some q := by
  rcases mine with rfl | rfl
  · exact (Option.some_ne_none q).symm
  · exact fun same => other (Option.some.inj same).symm

/-- The run of a deterministic system along given labels. -/
def execute (next : σ → α → Option σ) (s : σ) : List α → Option σ
  | [] => some s
  | a :: rest => (next s a).bind fun t => execute next t rest

theorem execute_run {next : σ → α → Option σ}
    (result : execute next s acts = some t) : Run (fun s a t => next s a = some t) s acts t := by
  induction acts generalizing s with
  | nil =>
    rw [← Option.some.inj result]
    exact .nil _
  | cons a rest ih =>
    obtain ⟨u, first, later⟩ := Option.bind_eq_some_iff.mp result
    exact .cons first (ih later)

/-- A run exists when its execution can be evaluated, and its end is as tested. -/
theorem execute_exists (next : σ → α → Option σ) (s : σ) (acts : List α) (test : σ → Bool)
    (passes : (execute next s acts).any test = true) :
    ∃ t, Run (fun s a t => next s a = some t) s acts t ∧ test t = true := by
  cases result : execute next s acts with
  | none => simp [result] at passes
  | some t =>
    rw [result] at passes
    exact ⟨t, execute_run result, passes⟩

end ColorXv6.Lib.Runs

import Mathlib.Data.List.Basic

/-!
# Runs of a partial step function

A machine is a function `step : σ → α → Option σ`; `none` means that the action is not possible in
the state.  `Reach` are the states of the runs in which every action meets a condition `ok` in the
state in which it is taken; `fun _ _ => True` gives all runs.
-/

namespace Run

variable {σ α : Type*} {step : σ → α → Option σ} {ok : σ → α → Prop}

/-- The states reached from `s₀` by actions that meet `ok`. -/
inductive Reach (step : σ → α → Option σ) (ok : σ → α → Prop) (s₀ : σ) : σ → Prop
  | start : Reach step ok s₀ s₀
  | next {s s' : σ} (a : α) : Reach step ok s₀ s → ok s a → step s a = some s' →
      Reach step ok s₀ s'

/-- What holds at the start and is kept by every step holds in every state reached. -/
theorem Reach.invariant {I : σ → Prop} {s₀ s : σ} (h : Reach step ok s₀ s) (hstart : I s₀)
    (hstep : ∀ s a s', I s → ok s a → step s a = some s' → I s') : I s := by
  induction h with
  | start => exact hstart
  | next a _ hok hs ih => exact hstep _ a _ ih hok hs

/-- In the states in which `I` holds the actions that meet `ok` also meet `ok'`. -/
theorem Reach.mono_of_invariant {ok' : σ → α → Prop} {I : σ → Prop} {s₀ s : σ}
    (h : Reach step ok s₀ s) (hstart : I s₀)
    (hstep : ∀ s a s', I s → ok s a → step s a = some s' → I s')
    (hok : ∀ s a, I s → ok s a → ok' s a) : Reach step ok' s₀ s := by
  induction h with
  | start => exact Reach.start
  | next a h ha hs ih => exact Reach.next a ih (hok _ a (h.invariant hstart hstep) ha) hs

theorem Reach.mono {ok' : σ → α → Prop} {s₀ s : σ} (h : Reach step ok s₀ s)
    (hok : ∀ s a, ok s a → ok' s a) : Reach step ok' s₀ s :=
  h.mono_of_invariant (I := fun _ => True) trivial (fun _ _ _ _ _ _ => trivial) fun s a _ => hok s a

theorem Reach.trans {s₀ s₁ s₂ : σ} (h₁ : Reach step ok s₀ s₁) (h₂ : Reach step ok s₁ s₂) :
    Reach step ok s₀ s₂ := by
  induction h₂ with
  | start => exact h₁
  | next a _ ha hs ih => exact Reach.next a ih ha hs

/-- A run of a machine is a run of another one that does its steps. -/
theorem Reach.map {τ β : Type*} {step' : τ → β → Option τ} {ok' : τ → β → Prop} (f : σ → τ) (g : α → β)
    {s₀ s : σ} (h : Reach step ok s₀ s)
    (hstep : ∀ s a s', ok s a → step s a = some s' →
      ok' (f s) (g a) ∧ step' (f s) (g a) = some (f s')) : Reach step' ok' (f s₀) (f s) := by
  induction h with
  | start => exact Reach.start
  | next a _ ha hs ih =>
    obtain ⟨ha', hs'⟩ := hstep _ a _ ha hs
    exact Reach.next (g a) ih ha' hs'

/-- The machine together with an observer, which sees every step and does not act. -/
def observe {η : Type*} (step : σ → α → Option σ) (see : σ → α → σ → η → η) (p : σ × η) (a : α) :
    Option (σ × η) := (step p.1 a).map fun s' => (s', see p.1 a s' p.2)

theorem observe_eq_some {η : Type*} {see : σ → α → σ → η → η} {p p' : σ × η} {a : α} :
    observe step see p a = some p' ↔ step p.1 a = some p'.1 ∧ p'.2 = see p.1 a p'.1 p.2 := by
  rw [observe, Option.map_eq_some_iff]
  constructor
  · rintro ⟨s', hs, rfl⟩
    exact ⟨hs, rfl⟩
  · rintro ⟨hs, hsee⟩
    exact ⟨p'.1, hs, by rw [← hsee]⟩

/-- The state after a list of actions that all meet `ok`. -/
def exec (step : σ → α → Option σ) (ok : σ → α → Prop) [∀ s a, Decidable (ok s a)] :
    σ → List α → Option σ
  | s, [] => some s
  | s, a :: l => if ok s a then (step s a).bind fun s' => exec step ok s' l else none

theorem reach_of_exec [∀ s a, Decidable (ok s a)] {s₀ s : σ} {l : List α}
    (h : exec step ok s₀ l = some s) : Reach step ok s₀ s := by
  induction l generalizing s₀ with
  | nil =>
    obtain rfl := Option.some.inj h
    exact Reach.start
  | cons a l ih =>
    rw [exec] at h
    split at h
    · rename_i hok
      obtain ⟨s₁, hs₁, hl⟩ := Option.bind_eq_some_iff.mp h
      exact (Reach.next a Reach.start hok hs₁).trans (ih hl)
    · cases h

/-- A list of actions that ends in a state with the property `p`. -/
theorem exists_reach_of_exec [∀ s a, Decidable (ok s a)] {s₀ : σ} {l : List α} {p : σ → Bool}
    (h : (exec step ok s₀ l).map p = some true) : ∃ s, Reach step ok s₀ s ∧ p s = true := by
  obtain ⟨s, hs, hp⟩ := Option.map_eq_some_iff.mp h
  exact ⟨s, reach_of_exec hs, hp⟩

end Run

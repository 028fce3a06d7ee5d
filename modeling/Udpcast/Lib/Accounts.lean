import Udpcast.Lib.Run

/-!
# What a run costs

An observer adds up what the steps of a run cost and what they bring in.  A potential out of which
every step is paid bounds the cost of a whole run.
-/

namespace Run

variable {σ α : Type*} {step : σ → α → Option σ}

/-- The sums of `cost` and of `income` over a run. -/
def account (cost income : σ → α → σ → ℕ) (s : σ) (a : α) (s' : σ) (t : ℕ × ℕ) : ℕ × ℕ :=
  (t.1 + cost s a s', t.2 + income s a s')

/-- Every step is paid out of the potential `Φ` and of `k` for each unit that it brings in. -/
theorem Reach.paid {cost income : σ → α → σ → ℕ} {P : σ → α → Prop} {I : σ → Prop} {Φ : σ → ℕ}
    {k : ℕ} {s₀ : σ} {p : σ × ℕ × ℕ}
    (h : Reach (observe step (account cost income)) (fun p a => P p.1 a) (s₀, 0, 0) p)
    (hstart : I s₀) (hkeep : ∀ s a s', I s → P s a → step s a = some s' → I s')
    (hpay : ∀ s a s', I s → P s a → step s a = some s' →
      Φ s' + cost s a s' ≤ Φ s + k * income s a s') :
    p.2.1 + Φ p.1 ≤ Φ s₀ + k * p.2.2 := by
  have hall : I p.1 ∧ p.2.1 + Φ p.1 ≤ Φ s₀ + k * p.2.2 := by
    refine h.invariant (I := fun p => I p.1 ∧ p.2.1 + Φ p.1 ≤ Φ s₀ + k * p.2.2)
      ⟨hstart, by simp⟩ fun p a p' ⟨hI, hle⟩ hok hs => ?_
    obtain ⟨hstep, hsums⟩ := observe_eq_some.mp hs
    refine ⟨hkeep _ a _ hI hok hstep, ?_⟩
    have hone := hpay _ a _ hI hok hstep
    rw [hsums, account, Nat.mul_add]
    omega
  exact hall.2

theorem Reach.swap {f g : σ → α → σ → ℕ} {P : σ → α → Prop} {s₀ : σ} {p : σ × ℕ × ℕ}
    (h : Reach (observe step (account f g)) (fun p a => P p.1 a) (s₀, 0, 0) p) :
    Reach (observe step (account g f)) (fun p a => P p.1 a) (s₀, 0, 0) (p.1, p.2.swap) := by
  induction h with
  | start => exact Reach.start
  | next a _ hok hs ih =>
    obtain ⟨hstep, hsums⟩ := observe_eq_some.mp hs
    refine Reach.next a ih hok (observe_eq_some.mpr ⟨hstep, ?_⟩)
    rw [hsums]
    rfl

end Run

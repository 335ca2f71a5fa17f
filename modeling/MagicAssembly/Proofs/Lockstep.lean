namespace MagicAssembly

/-- The state after `n` steps of a system that reports something at each step. -/
def after (step : σ → σ × ο) : Nat → σ → σ
  | 0, s => s
  | n + 1, s => after step n (step s).1

/-- What the first `n` steps report, in order. -/
def reports (step : σ → σ × ο) : Nat → σ → List ο
  | 0, _ => []
  | n + 1, s => (step s).2 :: reports step n (step s).1

theorem after_add (step : σ → σ × ο) (m n : Nat) (s : σ) :
    after step (m + n) s = after step n (after step m s) := by
  induction m generalizing s with
  | zero => rw [Nat.zero_add, after]
  | succ m ih => rw [Nat.succ_add, after, ih, after]

/-- What two systems keep between them at each step holds for ever. -/
theorem after_related {step₁ : σ → σ × ο} {step₂ : τ → τ × π} {R : σ → τ → Prop}
    (keeps : ∀ s t, R s t → R (step₁ s).1 (step₂ t).1) (n : Nat) {s : σ} {t : τ} (h : R s t) :
    R (after step₁ n s) (after step₂ n t) := by
  induction n generalizing s t with
  | zero => exact h
  | succ n ih => exact ih (keeps s t h)

/-- Two systems that keep a relation step by step keep it for ever, and the reports of the one are
those of the other, translated. -/
theorem lockstep {step₁ : σ → σ × ο} {step₂ : τ → τ × π} {R : σ → τ → Prop} (translate : ο → π)
    (keeps : ∀ s t, R s t →
      R (step₁ s).1 (step₂ t).1 ∧ (step₂ t).2 = translate (step₁ s).2)
    (n : Nat) {s : σ} {t : τ} (h : R s t) :
    R (after step₁ n s) (after step₂ n t) ∧
      reports step₂ n t = (reports step₁ n s).map translate := by
  induction n generalizing s t with
  | zero => exact ⟨h, rfl⟩
  | succ n ih =>
    obtain ⟨hnext, hreport⟩ := keeps s t h
    obtain ⟨hafter, hreports⟩ := ih hnext
    exact ⟨hafter, by simp only [reports, List.map_cons, hreport, hreports]⟩

end MagicAssembly

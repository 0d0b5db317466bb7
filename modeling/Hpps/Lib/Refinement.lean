import Hpps.Lib.TransitionSystem

/-! Runs that are measured, and systems whose runs are followed by those of another. -/
namespace TransitionSystem

universe u v
variable {σ : Type u} {ι : Type v} {step : σ → ι → Option σ} {s t : σ}

/-- If each move of one kind uses something up, and each of another brings in no more than `k`, then a run has no more
of the first than it starts with and is brought in. -/
theorem exec_countP_le (I : σ → Prop) (rank : σ → ℕ) (p q : ι → Bool) (k : ℕ)
    (hstep : ∀ s a t, I s → step s a = some t →
      I t ∧ rank t + (if p a then 1 else 0) ≤ rank s + if q a then k else 0) {as : List ι} (hs : I s)
    (h : exec step s as = some t) : rank t + as.countP p ≤ rank s + k * as.countP q := by
  induction as generalizing s with
  | nil =>
    cases h
    simp
  | cons a as ih =>
    obtain ⟨v, hv, ht⟩ := exec_cons.mp h
    obtain ⟨hI, hle⟩ := hstep s a v hs hv
    have hrest := ih hI ht
    have hgain : k * (as.countP q + if q a then 1 else 0) = k * as.countP q + if q a then k else 0 := by
      split <;> simp [mul_add]
    rw [List.countP_cons, List.countP_cons, hgain]
    omega

theorem Reachable.of_restrict {p : σ → ι → Prop} [∀ s a, Decidable (p s a)]
    (h : Reachable (restrict p step) s t) : Reachable step s t :=
  h.invariant (P := Reachable step s) .refl fun _ _ _ hx hstep => hx.tail (restrict_eq_some.mp hstep).2

section Simulation

universe u' v'
variable {σ' : Type u'} {ι' : Type v'} {step' : σ' → ι' → Option σ'} {R : σ → σ' → Prop} {s' : σ'}

/-- Each move from related states is followed by moves of the other system to related states. -/
def Simulates (step : σ → ι → Option σ) (step' : σ' → ι' → Option σ') (R : σ → σ' → Prop) : Prop :=
  ∀ s a t s', R s s' → step s a = some t → ∃ t', Reachable step' s' t' ∧ R t t'

theorem Simulates.reachable (h : Simulates step step' R) (hR : R s s') (ht : Reachable step s t) :
    ∃ t', Reachable step' s' t' ∧ R t t' := by
  apply ht.invariant (P := fun t => ∃ t', Reachable step' s' t' ∧ R t t') ⟨s', .refl, hR⟩
  rintro x a y ⟨x', hx', hR⟩ hstep
  obtain ⟨y', hy', hR⟩ := h x a y x' hR hstep
  exact ⟨y', hx'.trans hy', hR⟩

end Simulation

end TransitionSystem

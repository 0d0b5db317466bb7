import Mathlib

/-! Labelled systems whose labels name who moves. A label that cannot move yields `none`. -/
namespace TransitionSystem

universe u v
variable {σ : Type u} {ι : Type v} {step : σ → ι → Option σ} {s t u : σ}

/-- The state after the listed moves, if each of them was possible. -/
def exec (step : σ → ι → Option σ) : σ → List ι → Option σ
  | s, [] => some s
  | s, a :: as => (step s a).bind fun t => exec step t as

def Reachable (step : σ → ι → Option σ) (s t : σ) : Prop := ∃ as, exec step s as = some t

theorem exec_cons {a : ι} {as : List ι} :
    exec step s (a :: as) = some t ↔ ∃ v, step s a = some v ∧ exec step v as = some t := by
  simp only [exec, Option.bind_eq_some_iff]

theorem exec_append {as bs : List ι} :
    exec step s (as ++ bs) = some t ↔ ∃ v, exec step s as = some v ∧ exec step v bs = some t := by
  induction as generalizing s with
  | nil => simp [exec]
  | cons a as ih =>
    simp only [List.cons_append, exec_cons, ih]
    constructor
    · rintro ⟨v, hv, w, hw, ht⟩
      exact ⟨w, ⟨v, hv, hw⟩, ht⟩
    · rintro ⟨w, ⟨v, hv, hw⟩, ht⟩
      exact ⟨v, hv, w, hw, ht⟩

theorem Reachable.refl : Reachable step s s := ⟨[], rfl⟩

theorem Reachable.trans (h : Reachable step s t) (h' : Reachable step t u) :
    Reachable step s u := by
  obtain ⟨as, has⟩ := h
  obtain ⟨bs, hbs⟩ := h'
  exact ⟨as ++ bs, exec_append.mpr ⟨t, has, hbs⟩⟩

theorem Reachable.tail {a : ι} (h : Reachable step s t) (ha : step t a = some u) :
    Reachable step s u :=
  h.trans ⟨[a], exec_cons.mpr ⟨u, ha, rfl⟩⟩

/-- What holds initially and is preserved by each move holds of every reachable state. -/
theorem Reachable.invariant {P : σ → Prop} (h : Reachable step s t) (hs : P s)
    (hstep : ∀ x a y, P x → step x a = some y → P y) : P t := by
  obtain ⟨as, has⟩ := h
  induction as generalizing s with
  | nil => cases has; exact hs
  | cons a as ih =>
    obtain ⟨v, hv, ht⟩ := exec_cons.mp has
    exact ih (hstep s a v hs hv) ht

/-- The moves that meet a condition on the state before them. -/
def restrict (p : σ → ι → Prop) [∀ s a, Decidable (p s a)] (step : σ → ι → Option σ) (s : σ) (a : ι) :
    Option σ :=
  if p s a then step s a else none

theorem restrict_eq_some {p : σ → ι → Prop} [∀ s a, Decidable (p s a)] {a : ι} :
    restrict p step s a = some t ↔ p s a ∧ step s a = some t := by
  unfold restrict
  split
  · rename_i hp
    simp [hp]
  · rename_i hp
    simp [hp]

/-! ### Moves that commute -/

/-- Two different parties that can both move can move one after the other in either order. -/
def Diamond (step : σ → ι → Option σ) : Prop :=
  ∀ s i j t u, i ≠ j → step s i = some t → step s j = some u →
    ∃ v, step t j = some v ∧ step u i = some v

/-- Nothing can move. -/
def Halted (step : σ → ι → Option σ) (s : σ) : Prop := ∀ i, step s i = none

/-- Every run ends in `f`: it takes no more than `n` moves and can always be continued to `f`. -/
structure Ends (step : σ → ι → Option σ) (s f : σ) : Prop where
  halted : Halted step f
  completes : ∃ n, ∀ as t, exec step s as = some t →
    ∃ bs, as.length + bs.length = n ∧ exec step t bs = some f

/-- A move made first leaves the rest of a complete run to be done. -/
theorem Diamond.exec_move (h : Diamond step) (hf : Halted step u) {as : List ι} {i : ι}
    (has : exec step s as = some u) (hi : step s i = some t) :
    ∃ bs, bs.length + 1 = as.length ∧ exec step t bs = some u := by
  induction as generalizing s t with
  | nil =>
    cases has
    rw [hf i] at hi
    cases hi
  | cons j as ih =>
    obtain ⟨v, hv, has⟩ := exec_cons.mp has
    by_cases hij : i = j
    · subst hij
      rw [hi] at hv
      cases hv
      exact ⟨as, rfl, has⟩
    · obtain ⟨w, htw, hvw⟩ := h s i j t v hij hi hv
      obtain ⟨bs, hlen, hbs⟩ := ih has hvw
      exact ⟨j :: bs, by simp [hlen], exec_cons.mpr ⟨w, htw, hbs⟩⟩

/-- If moves commute, then one complete run decides how every run ends. -/
theorem Diamond.ends (h : Diamond step) (hf : Halted step u) (hr : Reachable step s u) :
    Ends step s u := by
  obtain ⟨cs, hcs⟩ := hr
  refine ⟨hf, cs.length, ?_⟩
  intro as
  induction as generalizing s cs with
  | nil =>
    rintro t ⟨⟩
    exact ⟨cs, by simp, hcs⟩
  | cons i as ih =>
    intro t ht
    obtain ⟨v, hv, ht⟩ := exec_cons.mp ht
    obtain ⟨bs, hlen, hbs⟩ := h.exec_move hf hcs hv
    obtain ⟨ds, hds, hend⟩ := ih bs hbs t ht
    refine ⟨ds, ?_, hend⟩
    rw [List.length_cons]
    omega

theorem Ends.reachable (h : Ends step s u) (ht : Reachable step s t) : Reachable step t u := by
  obtain ⟨n, hn⟩ := h.completes
  obtain ⟨as, has⟩ := ht
  obtain ⟨bs, -, hbs⟩ := hn as t has
  exact ⟨bs, hbs⟩

/-- A run that cannot go on has ended in `f`. -/
theorem Ends.eq_of_halted (h : Ends step s u) (ht : Reachable step s t) (hh : Halted step t) :
    t = u := by
  obtain ⟨bs, hbs⟩ := h.reachable ht
  cases bs with
  | nil =>
    cases hbs
    rfl
  | cons i bs =>
    obtain ⟨v, hv, -⟩ := exec_cons.mp hbs
    rw [hh i] at hv
    cases hv

/-! ### Runs whose moves all meet a condition -/

/-- Every state of a run is good if and only if each move meets the condition that decides whether a
good state is followed by a good one. -/
theorem good_iff_moves {I G : σ → Prop} {p : σ → ι → Prop}
    (hstep : ∀ s a t, I s → G s → step s a = some t → I t ∧ (G t ↔ p s a)) {as : List ι}
    (hI : I s) (hG : G s) (h : exec step s as = some t) :
    (∀ bs u, bs <+: as → exec step s bs = some u → G u) ↔
      ∀ bs a u, bs ++ [a] <+: as → exec step s bs = some u → p u a := by
  induction as generalizing s with
  | nil =>
    constructor
    · rintro - bs a u hbs -
      simp at hbs
    · rintro - bs u hbs hu
      cases List.prefix_nil.mp hbs
      cases hu
      exact hG
  | cons a as ih =>
    obtain ⟨v, hv, ht⟩ := exec_cons.mp h
    obtain ⟨hIv, hGv⟩ := hstep s a v hI hG hv
    constructor
    · intro hall bs b u hbs hu
      have hp : p s a := hGv.mp (hall [a] v (by simp) (exec_cons.mpr ⟨v, hv, rfl⟩))
      cases bs with
      | nil =>
        cases hu
        obtain ⟨rfl, -⟩ := List.cons_prefix_cons.mp hbs
        exact hp
      | cons c bs =>
        obtain ⟨rfl, hrest⟩ := List.cons_prefix_cons.mp hbs
        obtain ⟨w, hw, hu⟩ := exec_cons.mp hu
        cases hv.symm.trans hw
        refine (ih hIv (hGv.mpr hp) ht).mp (fun ds x hds hx => ?_) bs b u hrest hu
        exact hall (c :: ds) x (List.cons_prefix_cons.mpr ⟨rfl, hds⟩) (exec_cons.mpr ⟨v, hv, hx⟩)
    · intro hall bs u hbs hu
      have hp : p s a := hall [] a s (by simp) rfl
      cases bs with
      | nil =>
        cases hu
        exact hG
      | cons c bs =>
        obtain ⟨rfl, hrest⟩ := List.cons_prefix_cons.mp hbs
        obtain ⟨w, hw, hu⟩ := exec_cons.mp hu
        cases hv.symm.trans hw
        refine (ih hIv (hGv.mpr hp) ht).mpr (fun ds b x hds hx => ?_) bs u hrest hu
        exact hall (c :: ds) b x (List.cons_prefix_cons.mpr ⟨rfl, hds⟩) (exec_cons.mpr ⟨v, hv, hx⟩)

end TransitionSystem

namespace TwoParties

/-- Opened where a run of two parties is listed: `0` and `1` then name the two. -/
scoped instance neZero : NeZero 2 := ⟨two_ne_zero⟩

end TwoParties

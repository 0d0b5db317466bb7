import Mathlib

/-! Counting in a finite family of lists of which one is replaced at a time. -/
namespace Tally

universe u v
variable {ι : Type u} {α : Type v} [Fintype ι] {p : α → Bool} {f : ι → List α} {l : List α} {a : α}
  {i : ι}

/-- How many elements of all the lists have property `p`. -/
def tally (p : α → Bool) (f : ι → List α) : ℕ := ∑ i, (f i).countP p

@[simp] theorem tally_nil : tally p (fun _ : ι => []) = 0 := by simp [tally]

/-- A sum over a family changes by what one member changes. -/
theorem sum_update {σ M : Type*} [AddCommMonoid M] [DecidableEq ι] (F : σ → M) (f : ι → σ) (i : ι) (x : σ) :
    ∑ j, F (Function.update f i x j) + F (f i) = ∑ j, F (f j) + F x := by
  have h : ∀ g : ι → σ, ∑ j, F (g j) = F (g i) + ∑ j ∈ Finset.univ.erase i, F (g j) :=
    fun g => (Finset.add_sum_erase _ (fun j => F (g j)) (Finset.mem_univ i)).symm
  have hrest : ∑ j ∈ Finset.univ.erase i, F (Function.update f i x j) =
      ∑ j ∈ Finset.univ.erase i, F (f j) :=
    Finset.sum_congr rfl fun j hj => by rw [Function.update_of_ne (Finset.ne_of_mem_erase hj)]
  rw [h, h f, hrest, Function.update_self]
  abel

theorem tally_update [DecidableEq ι] :
    tally p (Function.update f i l) + (f i).countP p = tally p f + l.countP p :=
  sum_update (fun l => l.countP p) f i l

/-- A list that was empty is filled. -/
theorem tally_fill [DecidableEq ι] (h : f i = []) :
    tally p (Function.update f i l) = tally p f + l.countP p := by
  have := tally_update (p := p) (f := f) (l := l) (i := i)
  rw [h, List.countP_nil] at this
  omega

/-- The first element of a list is taken. -/
theorem tally_tail [DecidableEq ι] (h : f i = a :: l) :
    tally p (Function.update f i l) + (if p a then 1 else 0) = tally p f := by
  have := tally_update (p := p) (f := f) (l := l) (i := i)
  rw [h, List.countP_cons] at this
  omega

/-- An element is taken out of a list. -/
theorem perm_eraseIdx {k : ℕ} (h : l[k]? = some a) : (a :: l.eraseIdx k).Perm l := by
  obtain ⟨hk, rfl⟩ := List.getElem?_eq_some_iff.mp h
  exact List.getElem_cons_eraseIdx_perm hk

theorem countP_eraseIdx {k : ℕ} (h : l[k]? = some a) :
    (l.eraseIdx k).countP p + (if p a then 1 else 0) = l.countP p := by
  rw [← List.countP_cons]
  exact (perm_eraseIdx h).countP_eq p

/-- An element is replaced by another. -/
theorem countP_set {k : ℕ} {b : α} (h : l[k]? = some a) :
    (l.set k b).countP p + (if p a then 1 else 0) = l.countP p + if p b then 1 else 0 := by
  obtain ⟨hk, rfl⟩ := List.getElem?_eq_some_iff.mp h
  have hle : (if p l[k] then 1 else 0) ≤ l.countP p := by
    split
    · rename_i hp
      exact List.countP_pos_iff.mpr ⟨l[k], List.getElem_mem hk, hp⟩
    · exact Nat.zero_le _
  rw [List.countP_set hk]
  omega

theorem countP_le_tally : (f i).countP p ≤ tally p f :=
  Finset.single_le_sum (f := fun i => (f i).countP p) (fun _ _ => Nat.zero_le _) (Finset.mem_univ i)

theorem tally_pos_of_mem (h : a ∈ f i) (hp : p a) : 0 < tally p f :=
  (List.countP_pos_iff.mpr ⟨a, h, hp⟩).trans_le countP_le_tally

theorem tally_eq_zero : tally p f = 0 ↔ ∀ i, ∀ a ∈ f i, ¬ p a := by
  simp [tally, List.countP_eq_zero]

theorem exists_of_tally_pos (h : 0 < tally p f) : ∃ i, ∃ a ∈ f i, p a := by
  by_contra hno
  have hzero : tally p f = 0 := tally_eq_zero.mpr fun i a ha hp => hno ⟨i, a, ha, hp⟩
  omega

end Tally

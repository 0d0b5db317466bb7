import Hpps.Lib.Tally

/-! Weights of what lies in a finite family of lists, to which one element is added or from which one is taken. -/
namespace Weights

universe u v w
variable {ι : Type u} {κ : Type v} {α : Type w} [Fintype ι] [Fintype κ] {f : α → ℕ} {boxes : ι → List α}
  {net : ι → κ → List α} {i : ι} {k : κ} {a : α} {l : List α}

def weight (f : α → ℕ) (l : List α) : ℕ := (l.map f).sum

/-- What lies in all boxes. -/
def total (f : α → ℕ) (boxes : ι → List α) : ℕ := ∑ i, weight f (boxes i)

/-- What lies on all lines of a net. -/
def onNet (f : α → ℕ) (net : ι → κ → List α) : ℕ := ∑ i, total f (net i)

@[simp] theorem weight_nil : weight f [] = 0 := rfl

@[simp] theorem weight_cons : weight f (a :: l) = f a + weight f l := by simp [weight]

@[simp] theorem weight_append {l' : List α} : weight f (l ++ l') = weight f l + weight f l' := by simp [weight]

theorem le_weight (h : a ∈ l) : f a ≤ weight f l :=
  List.single_le_sum (fun _ _ => Nat.zero_le _) _ (List.mem_map_of_mem h)

theorem exists_of_weight_pos (h : 0 < weight f l) : ∃ a ∈ l, 0 < f a := by
  by_contra hno
  push Not at hno
  have hzero : weight f l = 0 := List.sum_eq_zero fun x hx => by
    obtain ⟨a, ha, rfl⟩ := List.mem_map.mp hx
    exact Nat.le_zero.mp (hno a ha)
  omega

section Boxes

variable [DecidableEq ι]

theorem total_push : total f (Function.update boxes i (boxes i ++ [a])) = total f boxes + f a := by
  have h := Tally.sum_update (weight f) boxes i (boxes i ++ [a])
  rw [weight_append, weight_cons, weight_nil] at h
  simp only [total]
  omega

theorem total_pop (h : boxes i = a :: l) : total f (Function.update boxes i l) + f a = total f boxes := by
  have hsum := Tally.sum_update (weight f) boxes i l
  rw [h, weight_cons] at hsum
  simp only [total]
  omega

end Boxes

theorem le_total (h : a ∈ boxes i) : f a ≤ total f boxes :=
  (le_weight h).trans (Finset.single_le_sum (f := fun i => weight f (boxes i)) (fun _ _ => Nat.zero_le _)
    (Finset.mem_univ i))

theorem exists_of_total_pos (h : 0 < total f boxes) : ∃ i, ∃ a ∈ boxes i, 0 < f a := by
  obtain ⟨i, -, hi⟩ := Finset.exists_ne_zero_of_sum_ne_zero h.ne'
  exact ⟨i, exists_of_weight_pos (Nat.pos_of_ne_zero hi)⟩

section Net

variable [DecidableEq ι] [DecidableEq κ]

theorem onNet_push (net : ι → κ → List α) (i : ι) (k : κ) (a : α) :
    onNet f (Function.update net i (Function.update (net i) k (net i k ++ [a]))) =
    onNet f net + f a := by
  have h := Tally.sum_update (total f) net i (Function.update (net i) k (net i k ++ [a]))
  rw [total_push] at h
  simp only [onNet]
  omega

theorem onNet_pop (h : net i k = a :: l) : onNet f (Function.update net i (Function.update (net i) k l)) + f a =
    onNet f net := by
  have hsum := Tally.sum_update (total f) net i (Function.update (net i) k l)
  rw [← total_pop h] at hsum
  simp only [onNet]
  omega

end Net

theorem le_onNet (h : a ∈ net i k) : f a ≤ onNet f net :=
  (le_total h).trans (Finset.single_le_sum (f := fun i => total f (net i)) (fun _ _ => Nat.zero_le _)
    (Finset.mem_univ i))

theorem exists_of_onNet_pos (h : 0 < onNet f net) : ∃ i k, ∃ a ∈ net i k, 0 < f a := by
  obtain ⟨i, -, hi⟩ := Finset.exists_ne_zero_of_sum_ne_zero h.ne'
  exact ⟨i, exists_of_total_pos (Nat.pos_of_ne_zero hi)⟩

end Weights

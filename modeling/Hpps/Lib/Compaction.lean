import Mathlib

/-! An array from which elements are taken out by swapping: those that stay move to the front, in order. -/
namespace Compaction

universe u
variable {α : Type u} {p : α → Bool} {xs l : List α} {x : α} {i unused : ℕ}

/-- `std::swap(l[i], l[j])`. -/
def swap (l : List α) (i j : ℕ) : List α :=
  match l[i]?, l[j]? with
  | some x, some y => (l.set i y).set j x
  | _, _ => l

/-- The first `i` elements of `xs` were looked at: those with `p` are in front, then the others in some order,
then the rest. -/
def Compacted (p : α → Bool) (xs : List α) (i : ℕ) (l : List α) (unused : ℕ) : Prop :=
  ∃ gone, l = (xs.take i).filter p ++ gone ++ xs.drop i ∧ gone.Perm ((xs.take i).filter fun x => !p x) ∧
    unused = ((xs.take i).filter p).length

theorem compacted_zero : Compacted p xs 0 xs 0 := ⟨[], by simp⟩

theorem swap_self (h : l[i]? = some x) : swap l i i = l := by
  obtain ⟨hi, rfl⟩ := List.getElem?_eq_some_iff.mp h
  simp [swap, h]

/-- The first of the elements taken out changes places with the next one. -/
theorem swap_append (kept gone rest : List α) (x : α) : ∃ gone', gone'.Perm gone ∧
    swap (kept ++ gone ++ x :: rest) kept.length (kept.length + gone.length) = kept ++ [x] ++ gone' ++ rest := by
  cases gone with
  | nil => exact ⟨[], .nil, by simpa using swap_self (show (kept ++ x :: rest)[kept.length]? = some x by simp)⟩
  | cons y gone =>
    refine ⟨gone ++ [y], List.perm_append_singleton y gone, ?_⟩
    have hx : (kept ++ (y :: gone) ++ x :: rest)[kept.length + (y :: gone).length]? = some x := by
      rw [List.getElem?_append_right (by simp), List.length_append, Nat.sub_self]
      rfl
    have hy : (kept ++ (y :: gone) ++ x :: rest)[kept.length]? = some y := by simp
    rw [swap, hx, hy]
    dsimp only
    rw [List.append_assoc, List.set_append_right _ _ le_rfl, Nat.sub_self, List.cons_append, List.set_cons_zero,
      List.set_append_right _ _ (by simp), Nat.add_sub_cancel_left, List.length_cons, List.set_cons_succ,
      List.set_append_right _ _ le_rfl, Nat.sub_self, List.set_cons_zero]
    simp

theorem Compacted.get (h : Compacted p xs i l unused) : l[i]? = xs[i]? := by
  obtain ⟨gone, rfl, hgone, -⟩ := h
  have hlen : ((xs.take i).filter p ++ gone).length = (xs.take i).length := by
    rw [List.length_append, hgone.length_eq, ← List.countP_eq_length_filter, ← List.countP_eq_length_filter]
    have := (xs.take i).length_eq_countP_add_countP p
    simpa using this.symm
  rcases le_or_gt i xs.length with hi | hi
  · rw [List.getElem?_append_right (by rw [hlen, List.length_take]; omega), hlen, List.length_take,
      min_eq_left hi, Nat.sub_self, List.getElem?_drop, Nat.add_zero]
  · rw [List.drop_eq_nil_of_le hi.le, List.append_nil, List.getElem?_eq_none hi.le, List.getElem?_eq_none]
    rw [hlen, List.length_take]
    omega

theorem take_succ_of_get (h : xs[i]? = some x) : xs.take (i + 1) = xs.take i ++ [x] ∧ xs.drop i = x :: xs.drop (i + 1) := by
  obtain ⟨hi, rfl⟩ := List.getElem?_eq_some_iff.mp h
  exact ⟨by rw [List.take_succ_eq_append_getElem hi], List.drop_eq_getElem_cons hi⟩

/-- The next element is taken out. -/
theorem Compacted.skip (h : Compacted p xs i l unused) (hx : xs[i]? = some x) (hp : p x = false) :
    Compacted p xs (i + 1) l unused := by
  obtain ⟨gone, rfl, hgone, rfl⟩ := h
  obtain ⟨htake, hdrop⟩ := take_succ_of_get hx
  refine ⟨gone ++ [x], ?_, ?_, ?_⟩
  · simp [htake, hdrop, hp]
  · simpa [htake, hp] using hgone.append_right [x]
  · simp [htake, hp]

/-- The next element stays. -/
theorem Compacted.keep (h : Compacted p xs i l unused) (hx : xs[i]? = some x) (hp : p x = true) :
    Compacted p xs (i + 1) (swap l unused i) (unused + 1) := by
  have hi := (List.getElem?_eq_some_iff.mp hx).1
  obtain ⟨gone, rfl, hgone, rfl⟩ := h
  obtain ⟨htake, hdrop⟩ := take_succ_of_get hx
  obtain ⟨gone', hperm, hswap⟩ := swap_append ((xs.take i).filter p) gone (xs.drop (i + 1)) x
  have hlen : ((xs.take i).filter p).length + gone.length = i := by
    rw [hgone.length_eq, ← List.countP_eq_length_filter, ← List.countP_eq_length_filter]
    have := (xs.take i).length_eq_countP_add_countP p
    rw [List.length_take, min_eq_left hi.le] at this
    simpa using this.symm
  rw [hlen, ← hdrop] at hswap
  refine ⟨gone', ?_, ?_, ?_⟩
  · rw [hswap, htake, List.filter_append, List.filter_singleton, hp]
    simp
  · simpa [htake, hp] using hperm.trans hgone
  · simp [htake, hp]

/-- All elements were looked at. -/
theorem Compacted.done (h : Compacted p xs xs.length l unused) :
    l.take unused = xs.filter p ∧ unused = (xs.filter p).length ∧ l.Perm xs := by
  obtain ⟨gone, rfl, hgone, rfl⟩ := h
  rw [List.take_length] at hgone
  rw [List.take_length, List.drop_length, List.append_nil]
  exact ⟨List.take_left, rfl, (hgone.append_left _).trans (List.filter_append_perm p xs)⟩

end Compaction

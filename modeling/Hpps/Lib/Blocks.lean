import Mathlib

/-! Arrays made of consecutive blocks, the `i`-th of length `len i`. -/
namespace Blocks

variable {α : Type} {len : ℕ → ℕ} {block : ℕ → List α} {n a b : ℕ}

/-- Where the `i`-th block starts. -/
def offset (len : ℕ → ℕ) (i : ℕ) : ℕ := ∑ j ∈ Finset.range i, len j

@[simp] theorem offset_zero : offset len 0 = 0 := rfl

theorem offset_succ : offset len (a + 1) = offset len a + len a := Finset.sum_range_succ ..

theorem offset_mono (h : a ≤ b) : offset len a ≤ offset len b :=
  monotone_nat_of_le_succ (fun a => by rw [offset_succ]; omega) h

theorem offset_add : offset len (a + b) = offset len a + ∑ j ∈ Finset.range b, len (a + j) :=
  Finset.sum_range_add ..

theorem dvd_offset {w : ℕ} (h : ∀ j < a, w ∣ len j) : w ∣ offset len a :=
  Finset.dvd_sum fun j hj => h j (Finset.mem_range.mp hj)

/-- Each position before the end of the last block is in a block. -/
theorem exists_block {k : ℕ} (h : k < offset len n) : ∃ j < n, offset len j ≤ k ∧ k < offset len j + len j := by
  induction n with
  | zero => simp at h
  | succ n ih =>
    by_cases hk : k < offset len n
    · obtain ⟨j, hj, hk⟩ := ih hk
      exact ⟨j, by omega, hk⟩
    · rw [offset_succ] at h
      exact ⟨n, by omega, by omega, h⟩

/-- The `i`-th block of an array. -/
def slice (len : ℕ → ℕ) (l : List α) (i : ℕ) : List α := (l.drop (offset len i)).take (len i)

theorem length_slice {l : List α} (hl : l.length = offset len n) (ha : a < n) :
    (slice len l a).length = len a := by
  have : offset len (a + 1) ≤ offset len n := offset_mono ha
  rw [offset_succ] at this
  rw [slice, List.length_take, List.length_drop]
  omega

theorem getElem?_slice {l : List α} {k : ℕ} (hk : k < len a) :
    (slice len l a)[k]? = l[offset len a + k]? := by
  rw [slice, List.getElem?_take_of_lt hk, List.getElem?_drop]

/-- The first `n` blocks. -/
def concat (block : ℕ → List α) (n : ℕ) : List α := (List.range n).flatMap block

theorem length_concat (h : ∀ j < n, (block j).length = len j) :
    (concat block n).length = offset len n := by
  induction n with
  | zero => rfl
  | succ n ih =>
    rw [concat, List.range_succ, List.flatMap_append, List.length_append, offset_succ,
      ← ih fun j hj => h j (by omega), concat]
    simp [h n (by omega)]

/-- An array is made of its blocks. -/
theorem concat_slice {l : List α} (hl : l.length = offset len n) : concat (slice len l) n = l := by
  have htake : ∀ m, concat (slice len l) m = l.take (offset len m) := by
    intro m
    induction m with
    | zero => rfl
    | succ m ih =>
      rw [offset_succ, List.take_add, ← ih, concat, List.range_succ, List.flatMap_append, ← concat]
      simp [slice]
  rw [htake, ← hl, List.take_length]

theorem concat_split (h : a ≤ n) :
    concat block n = concat block a ++ concat (fun j => block (a + j)) (n - a) := by
  conv_lhs => rw [concat, ← Nat.add_sub_cancel' h, List.range_add]
  rw [List.flatMap_append, List.flatMap_map, concat, concat]

end Blocks

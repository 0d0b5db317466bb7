import Mathlib

/-! Flat arrays cut into rows of one width, and copying a row into an array. -/
namespace Rows

universe u v
variable {α : Type u} {ι : Type v} {w i j n : ℕ} {l m src : List α} {f : ι → List α} {is : List ι}

/-- The `i`-th row of width `w`. -/
def row (w : ℕ) (l : List α) (i : ℕ) : List α := (l.drop (i * w)).take w

theorem length_row (h : (i + 1) * w ≤ l.length) : (row w l i).length = w := by
  rw [Nat.succ_mul] at h
  rw [row, List.length_take, List.length_drop]
  omega

theorem length_flatMap (hf : ∀ i ∈ is, (f i).length = w) :
    (is.flatMap f).length = is.length * w := by
  induction is with
  | nil => simp
  | cons i is ih =>
    simp only [List.forall_mem_cons] at hf
    rw [List.flatMap_cons, List.length_append, ih hf.2, hf.1, List.length_cons]
    ring

theorem row_flatMap (hf : ∀ i ∈ is, (f i).length = w) (hj : j < is.length) :
    row w (is.flatMap f) j = f is[j] := by
  induction is generalizing j with
  | nil => simp at hj
  | cons i is ih =>
    simp only [List.forall_mem_cons] at hf
    cases j with
    | zero => simp [row, hf.1]
    | succ j =>
      have := ih hf.2 (by simpa using hj)
      rw [List.getElem_cons_succ, ← this, row, row, List.flatMap_cons, Nat.succ_mul, Nat.add_comm,
        ← List.drop_drop, ← hf.1, List.drop_left]

theorem row_append (h : (i + 1) * w ≤ l.length) : row w (l ++ m) i = row w l i := by
  rw [Nat.succ_mul] at h
  rw [row, row, List.drop_append_of_le_length (by omega), List.take_append_of_le_length]
  rw [List.length_drop]
  omega

theorem row_append_right (h : l.length = n * w) : row w (l ++ m) (n + i) = row w m i := by
  rw [row, row, Nat.add_mul, ← h, ← List.drop_drop, List.drop_left]

/-- The rows of two arrays that are laid behind each other. -/
theorem map_row_append (h : l.length = n * w) (k : ℕ) :
    (List.range (n + k)).map (row w (l ++ m)) = (List.range n).map (row w l) ++ (List.range k).map (row w m) := by
  rw [List.range_add, List.map_append, List.map_map]
  congr 1
  · refine List.map_congr_left fun i hi => row_append ?_
    rw [h]
    exact Nat.mul_le_mul_right w (List.mem_range.mp hi)
  · exact List.map_congr_left fun i _ => row_append_right h

theorem row_drop : row w (l.drop (n * w)) i = row w l (n + i) := by
  rw [row, row, List.drop_drop, Nat.add_mul]

theorem row_take (h : (i + 1) * w ≤ n) : row w (l.take n) i = row w l i := by
  rw [Nat.succ_mul] at h
  rw [row, row, List.drop_take, List.take_take, min_eq_left (by omega)]

/-- Arrays of whole rows are equal if their rows are. -/
theorem eq_of_row_eq (hw : 0 < w) (hl : l.length = m.length) (hdvd : w ∣ m.length)
    (h : ∀ i, (i + 1) * w ≤ m.length → row w l i = row w m i) : l = m := by
  apply List.ext_getElem hl
  intro j hj hj'
  obtain ⟨c, hc⟩ := hdvd
  have hrow : (j / w + 1) * w ≤ m.length := by
    rw [hc, Nat.mul_comm w]
    refine Nat.mul_le_mul_right w (Nat.div_lt_of_lt_mul ?_)
    rwa [← hc]
  have hmod : j % w < w := Nat.mod_lt j hw
  have hpos : j / w * w + j % w = j := by rw [Nat.mul_comm]; exact Nat.div_add_mod j w
  have hget : ∀ a : List α, a.length = m.length → (row w a (j / w))[j % w]? = a[j]? := by
    intro a ha
    rw [row, List.getElem?_take_of_lt hmod, List.getElem?_drop, hpos]
  have := congrArg (fun r => r[j % w]?) (h (j / w) hrow)
  rw [hget l hl, hget m rfl, List.getElem?_eq_getElem hj, List.getElem?_eq_getElem hj'] at this
  exact Option.some.inj this

/-- `memcpy` of `src` into the array, from position `n` on. -/
def overwrite (l : List α) (n : ℕ) (src : List α) : List α :=
  l.take n ++ src ++ l.drop (n + src.length)

theorem overwrite_append (hn : l.length = n) :
    overwrite (l ++ m) n src = l ++ src ++ m.drop src.length := by
  subst hn
  rw [overwrite, List.take_left, ← List.drop_drop, List.drop_left]

theorem length_overwrite (h : n + src.length ≤ l.length) : (overwrite l n src).length = l.length := by
  simp only [overwrite, List.length_append, List.length_take, List.length_drop]
  omega

theorem getElem?_overwrite (h : n + src.length ≤ l.length) :
    (overwrite l n src)[i]? = if n ≤ i ∧ i < n + src.length then src[i - n]? else l[i]? := by
  have hlen : (l.take n).length = n := by
    rw [List.length_take]
    omega
  rw [overwrite, List.append_assoc]
  rcases lt_or_ge i n with hi | hi
  · rw [if_neg (by omega), List.getElem?_append_left (by omega), List.getElem?_take_of_lt hi]
  · rw [List.getElem?_append_right (by omega), hlen]
    rcases lt_or_ge i (n + src.length) with hi' | hi'
    · rw [if_pos ⟨hi, hi'⟩, List.getElem?_append_left (by omega)]
    · rw [if_neg (by omega), List.getElem?_append_right (by omega), List.getElem?_drop]
      congr 1
      omega

theorem row_overwrite (hn : n * w + src.length ≤ l.length) (hi : (i + 1) * w ≤ src.length) :
    row w (overwrite l (n * w) src) (n + i) = row w src i := by
  rw [overwrite, List.append_assoc, row_append_right (by rw [List.length_take]; omega), row_append hi]

theorem mem_overwrite {a : α} (h : a ∈ overwrite l n src) : a ∈ l ∨ a ∈ src := by
  simp only [overwrite, List.mem_append] at h
  rcases h with (h | h) | h
  · exact .inl (List.mem_of_mem_take h)
  · exact .inr h
  · exact .inl (List.mem_of_mem_drop h)

end Rows

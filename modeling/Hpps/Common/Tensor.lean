import Hpps.Common.Stop

/-! `Tensor`: a shape over a block of memory that grows when a larger shape is set. -/
namespace Hpps

/-- The block of a tensor holds `capacity_` elements, `[]` when there is none. -/
structure Tensor (α : Type) where
  shape : List ℕ
  size : ℕ
  blob : List α
  capacity_lt : blob.length < 2 ^ 31

namespace Tensor

variable {α : Type} {t u : Tensor α} {g : ℕ → α} {shape : List ℕ} {n : ℕ}

/-- The product of the dimensions, accumulated in an `int`: each step wraps to 32 bits. -/
def intSize (shape : List ℕ) : ℤ :=
  shape.foldl (fun (size : ℤ) (dim : ℕ) => Int.bmod (size * dim) (2 ^ 32)) 1

/-- Conversion of an `int` to `size_t`. -/
def toSizeT (n : ℤ) : ℕ := (n % 2 ^ 64).toNat

/-- A negative `int` asks for more elements than any block has. The source goes on with whatever block the allocator
gives it for such a size, and the first access runs outside it; the model stops here. -/
def reshape (t : Tensor α) (g : ℕ → α) (shape : List ℕ) : Except Stop (Tensor α) :=
  let size := toSizeT (intSize shape)
  if t.blob.length < size then
    if h : size < 2 ^ 31 then
      .ok ⟨shape, size, (List.range size).map g, by simpa using h⟩
    else .error .memory
  else .ok { t with shape := shape, size := size }

theorem nil_lt : ([] : List α).length < 2 ^ 31 := by simp

def new (g : ℕ → α) (shape : List ℕ) : Except Stop (Tensor α) :=
  reshape ⟨[], 0, [], nil_lt⟩ g shape

/-- `memcpy` into the block. -/
def write (t : Tensor α) (n : ℕ) (src : List α) : Except Stop (Tensor α) :=
  if h : n + src.length ≤ t.blob.length then
    .ok { t with
      blob := Rows.overwrite t.blob n src
      capacity_lt := Rows.length_overwrite h ▸ t.capacity_lt }
  else .error .memory

theorem write_append {l m v : List α} (ht : t.blob = l ++ m) (hn : l.length = n)
    (hs : v.length ≤ m.length) : ∃ u, t.write n v = .ok u ∧ u.shape = t.shape ∧
      u.size = t.size ∧ u.blob = l ++ v ++ m.drop v.length := by
  have hroom : n + v.length ≤ t.blob.length := by
    rw [ht, List.length_append]
    omega
  refine ⟨_, dif_pos hroom, rfl, rfl, ?_⟩
  dsimp only
  rw [ht, Rows.overwrite_append hn]

theorem intSize_eq (h : shape.prod < 2 ^ 31) (hpos : ∀ d ∈ shape, 0 < d) :
    intSize shape = shape.prod := by
  unfold intSize
  induction shape using List.reverseRecOn with
  | nil => rfl
  | append_singleton shape d ih =>
    rw [List.prod_append, List.prod_singleton] at h ⊢
    have hd := hpos d (by simp)
    have hle : shape.prod ≤ shape.prod * d := Nat.le_mul_of_pos_right _ hd
    rw [List.foldl_append, List.foldl_cons, List.foldl_nil, ih (by omega) fun e he => hpos e (by simp [he]),
      ← Int.natCast_mul, Int.bmod_eq_of_le] <;> omega

theorem toSizeT_natCast (h : n < 2 ^ 64) : toSizeT n = n := by
  unfold toSizeT
  omega

/-- Below `2 ^ 31` elements the block always has room for the shape. -/
theorem reshape_spec (t : Tensor α) (g : ℕ → α) (h : shape.prod < 2 ^ 31) (hpos : ∀ d ∈ shape, 0 < d) :
    ∃ u, t.reshape g shape = .ok u ∧ u.shape = shape ∧ u.size = shape.prod ∧
      u.size ≤ u.blob.length ∧
      (u.blob = t.blob ∨ t.blob.length < u.size ∧ u.blob = (List.range u.size).map g) := by
  have hs : toSizeT (intSize shape) = shape.prod := by
    rw [intSize_eq h hpos, toSizeT_natCast (by omega)]
  unfold reshape
  simp only [hs]
  by_cases hc : t.blob.length < shape.prod
  · rw [if_pos hc, dif_pos h]
    exact ⟨_, rfl, rfl, rfl, by simp, .inr ⟨hc, rfl⟩⟩
  · rw [if_neg hc]
    exact ⟨_, rfl, rfl, rfl, not_lt.mp hc, .inl rfl⟩

/-- A new tensor has a block of just its size. -/
theorem new_spec (g : ℕ → α) (h : shape.prod < 2 ^ 31) (hpos : ∀ d ∈ shape, 0 < d) :
    ∃ u, new g shape = .ok u ∧ u.shape = shape ∧ u.size = shape.prod ∧ u.blob.length = shape.prod := by
  obtain ⟨u, hu, hshape, hsize, hroom, hblob⟩ := reshape_spec ⟨[], 0, [], by simp⟩ g h hpos
  have hprod : 0 < shape.prod := List.prod_pos hpos
  refine ⟨u, hu, hshape, hsize, ?_⟩
  rcases hblob with hb | ⟨-, hb⟩
  · simp only [hb, List.length_nil] at hroom
    omega
  · rw [hb, List.length_map, List.length_range, hsize]

/-- The block of a tensor is kept when it has room for the shape. -/
theorem reshape_le (t : Tensor α) (g : ℕ → α) (h : shape.prod ≤ t.blob.length) (hpos : ∀ d ∈ shape, 0 < d) :
    ∃ u, t.reshape g shape = .ok u ∧ u.shape = shape ∧ u.size = shape.prod ∧ u.blob = t.blob := by
  have hlt := t.capacity_lt
  have hs : toSizeT (intSize shape) = shape.prod := by
    rw [intSize_eq (by omega) hpos, toSizeT_natCast (by omega)]
  unfold reshape
  simp only [hs]
  rw [if_neg (not_lt.mpr h)]
  exact ⟨_, rfl, rfl, rfl, rfl⟩

theorem write_all {v : List α} (h : v.length = t.blob.length) :
    ∃ u, t.write 0 v = .ok u ∧ u.shape = t.shape ∧ u.size = t.size ∧ u.blob = v := by
  obtain ⟨u, hu, hshape, hsize, hblob⟩ := write_append (List.nil_append t.blob).symm rfl h.le
  refine ⟨u, hu, hshape, hsize, ?_⟩
  rw [hblob, h, List.drop_length]
  simp

theorem survives_reshape : Survives (t.reshape g shape) fun _ => True := by
  unfold reshape
  dsimp only
  split
  · split
    · exact .ok trivial
    · exact .stop (by simp)
  · exact .ok trivial

theorem survives_write {src : List α} : Survives (t.write n src) fun _ => True := by
  unfold write
  split
  · exact .ok trivial
  · exact .stop (by simp)

/-- The states of a tensor whose shapes all satisfy `P`, with any elements written. -/
inductive Reached (P : List ℕ → Prop) : Tensor α → Prop
  | new {g : ℕ → α} {shape : List ℕ} {t : Tensor α} (hp : P shape) (h : new g shape = .ok t) : Reached P t
  | reshape {g : ℕ → α} {shape : List ℕ} {t u : Tensor α} (ht : Reached P t) (hp : P shape)
      (h : t.reshape g shape = .ok u) : Reached P u
  | write {t : Tensor α} {l : List α} (ht : Reached P t) (hl : l.length = t.blob.length) :
      Reached P { t with blob := l, capacity_lt := hl ▸ t.capacity_lt }

theorem reshape_size (h : t.reshape g shape = .ok u) :
    u.shape = shape ∧ u.size = toSizeT (intSize shape) ∧ u.size ≤ u.blob.length := by
  unfold reshape at h
  dsimp only at h
  split at h
  · split at h
    · cases h
      exact ⟨rfl, rfl, by simp⟩
    · cases h
  · rename_i hle
    cases h
    exact ⟨rfl, rfl, not_lt.mp hle⟩

/-- The block grows to the size, and never shrinks. -/
theorem reshape_length (h : t.reshape g shape = .ok u) : u.blob.length = max t.blob.length u.size := by
  unfold reshape at h
  dsimp only at h
  split at h
  · rename_i hlt
    split at h
    · cases h
      simp [hlt.le]
    · cases h
  · rename_i hle
    cases h
    exact (max_eq_left (not_lt.mp hle)).symm

theorem reshape_error (h : 2 ^ 31 ≤ toSizeT (intSize shape)) : t.reshape g shape = .error .memory := by
  unfold reshape
  dsimp only
  rw [if_pos (t.capacity_lt.trans_le h), dif_neg (not_lt.mpr h)]

theorem reshape_ok_iff : (∃ u, t.reshape g shape = .ok u) ↔ toSizeT (intSize shape) < 2 ^ 31 := by
  constructor
  · rintro ⟨u, hu⟩
    by_contra h
    rw [reshape_error (not_lt.mp h)] at hu
    cases hu
  · intro h
    unfold reshape
    dsimp only
    rw [dif_pos h]
    split <;> exact ⟨_, rfl⟩

theorem new_size (h : new g shape = .ok t) :
    t.shape = shape ∧ t.size = toSizeT (intSize shape) ∧ t.blob.length = t.size := by
  unfold new reshape at h
  dsimp only at h
  split at h
  · split at h
    · cases h
      exact ⟨rfl, rfl, by simp⟩
    · cases h
  · cases h
    refine ⟨rfl, rfl, ?_⟩
    simp only [List.length_nil] at *
    omega

theorem new_of_size (h : toSizeT (intSize shape) < 2 ^ 31) : ∃ t, new g shape = .ok t :=
  reshape_ok_iff.mpr h

theorem Reached.size {P : List ℕ → Prop} (h : Reached P t) :
    t.size = toSizeT (intSize t.shape) ∧ t.size ≤ t.blob.length := by
  induction h with
  | new hp h =>
    obtain ⟨rfl, hsize, hlen⟩ := new_size h
    exact ⟨hsize, hlen.ge⟩
  | reshape ht hp h ih =>
    obtain ⟨rfl, hsize⟩ := reshape_size h
    exact hsize
  | write ht hl ih => exact ⟨ih.1, ih.2.trans_eq hl.symm⟩

end Tensor
end Hpps

import Mathlib

/-! Memory with addresses: what a write and a reallocation touch, and what they leave as it was. -/

structure Range where
  start : ℕ
  size : ℕ
  deriving DecidableEq, Repr

namespace Range

variable {r r' s s' : Range}

def Apart (r s : Range) : Prop := r.start + r.size ≤ s.start ∨ s.start + s.size ≤ r.start

def Within (r s : Range) : Prop := s.start ≤ r.start ∧ r.start + r.size ≤ s.start + s.size

instance : Decidable (Apart r s) := inferInstanceAs (Decidable (_ ∨ _))

theorem Apart.symm (h : Apart r s) : Apart s r := Or.symm h

theorem Within.refl : Within r r := ⟨le_rfl, le_rfl⟩

theorem Apart.mono (h : Apart r s) (hr : Within r' r) (hs : Within s' s) : Apart r' s' := by
  unfold Apart Within at *
  omega

end Range

/-- The memory, and the ranges that were written or handed over. -/
structure Heap (α : Type) where
  bytes : ℕ → α
  touched : List Range

namespace Heap

variable {α : Type} {bytes : ℕ → α} {m m' m'' : Heap α} {l l' : List α} {p : ℕ} {r block : Range}

def read (bytes : ℕ → α) (r : Range) : List α := (List.range r.size).map fun i => bytes (r.start + i)

def write (bytes : ℕ → α) (p : ℕ) (l : List α) : ℕ → α :=
  fun a => if p ≤ a then l[a - p]?.getD (bytes a) else bytes a

def memcpy (m : Heap α) (p : ℕ) (src : List α) : Heap α := ⟨write m.bytes p src, m.touched ++ [⟨p, src.length⟩]⟩

/-- The memory that the allocator returns is at `addr`; a block that was there before goes back to it. -/
def realloc (m : Heap α) (ptr : Option ℕ) (old addr size : ℕ) : Heap α :=
  match ptr with
  | none => ⟨m.bytes, m.touched ++ [⟨addr, size⟩]⟩
  | some ptr => ⟨write m.bytes addr (read m.bytes ⟨ptr, old⟩), m.touched ++ [⟨ptr, old⟩, ⟨addr, size⟩]⟩

/-- From `m` to `m'` nothing was done to a block. -/
structure Spares (m m' : Heap α) (block : Range) : Prop where
  touched : ∀ r ∈ m'.touched, r ∈ m.touched ∨ r.Apart block
  kept : ∀ r, r.Within block → read m'.bytes r = read m.bytes r

/-! ### Reading and writing -/

@[simp] theorem length_read : (read bytes r).length = r.size := by simp [read]

@[simp] theorem write_nil : write bytes p [] = bytes := by
  funext a
  simp [write]

theorem write_append : write (write bytes p l) (p + l.length) l' = write bytes p (l ++ l') := by
  funext a
  unfold write
  by_cases ha : p ≤ a
  · by_cases hend : p + l.length ≤ a
    · have hsub : a - p - l.length = a - (p + l.length) := Nat.sub_sub ..
      rw [if_pos hend, if_pos ha, if_pos ha, List.getElem?_append_right (by omega), hsub,
        List.getElem?_eq_none (l := l) (by omega), Option.getD_none]
    · rw [if_neg hend, if_pos ha, if_pos ha, List.getElem?_append_left (by omega)]
  · rw [if_neg (by omega), if_neg ha, if_neg ha]

theorem read_of_write : read (write bytes p l) ⟨p, l.length⟩ = l := by
  apply List.ext_getElem
  · exact length_read
  · intro i hi hi'
    simp [read, write, hi']

theorem read_write_of_apart (h : r.Apart ⟨p, l.length⟩) : read (write bytes p l) r = read bytes r := by
  refine List.map_congr_left fun i hi => ?_
  rw [List.mem_range] at hi
  unfold Range.Apart at h
  dsimp only at h
  unfold write
  by_cases ha : p ≤ r.start + i
  · rw [if_pos ha, List.getElem?_eq_none (by omega), Option.getD_none]
  · rw [if_neg ha]

/-! ### What is spared -/

theorem Spares.refl : Spares m m block := ⟨fun _ hr => .inl hr, fun _ _ => rfl⟩

theorem Spares.trans (h : Spares m m' block) (h' : Spares m' m'' block) : Spares m m'' block := by
  refine ⟨fun r hr => ?_, fun r hr => (h'.kept r hr).trans (h.kept r hr)⟩
  rcases h'.touched r hr with hr | hr
  · exact h.touched r hr
  · exact .inr hr

theorem spares_memcpy (h : Range.Apart ⟨p, l.length⟩ block) : Spares m (m.memcpy p l) block := by
  refine ⟨fun r hr => ?_, fun r hr => read_write_of_apart (h.symm.mono hr .refl)⟩
  rcases List.mem_append.mp hr with hr | hr
  · exact .inl hr
  · rw [List.mem_singleton.mp hr]
    exact .inr h

theorem spares_realloc {ptr : Option ℕ} {old addr size : ℕ} (hold : ∀ b ∈ ptr, Range.Apart ⟨b, old⟩ block)
    (hnew : Range.Apart ⟨addr, size⟩ block) (hle : old ≤ size) : Spares m (m.realloc ptr old addr size) block := by
  cases ptr with
  | none =>
    refine ⟨fun r hr => ?_, fun r hr => rfl⟩
    rcases List.mem_append.mp hr with hr | hr
    · exact .inl hr
    · rw [List.mem_singleton.mp hr]
      exact .inr hnew
  | some b =>
    refine ⟨fun r hr => ?_, fun r hr => read_write_of_apart (hnew.symm.mono hr ?_)⟩
    · rcases List.mem_append.mp hr with hr | hr
      · exact .inl hr
      · rcases List.mem_pair.mp hr with rfl | rfl
        · exact .inr (hold b rfl)
        · exact .inr hnew
    · rw [length_read]
      exact ⟨le_rfl, Nat.add_le_add_left hle _⟩

end Heap

import Mathlib

/-! Values that come in blocks of one length, and the stream that the blocks make up. -/
namespace Refill

open Stream'

variable {σ α : Type} {w : ℕ}

/-- From its state a source makes the next block, of `w` values. -/
structure Source (σ α : Type) (w : ℕ) where
  next : σ → List α × σ
  length_next : ∀ s, (next s).1.length = w

namespace Source

variable (S : Source σ α w) (s : σ)

/-- The state after `k` blocks. -/
def after (k : ℕ) : σ := (fun s => (S.next s).2)^[k] s

/-- The `i`-th value is in block `i / w`. -/
def stream [NeZero w] : Stream' α := fun i =>
  (S.next (S.after s (i / w))).1.get ⟨i % w, (Nat.mod_lt i (NeZero.pos w)).trans_eq (S.length_next _).symm⟩

variable {S s}

theorem after_succ {k : ℕ} : S.after s (k + 1) = S.after (S.next s).2 k := Function.iterate_succ_apply _ k s

/-- The stream is its first block and the stream from there on. -/
theorem stream_eq [NeZero w] : S.stream s = (S.next s).1 ++ₛ S.stream (S.next s).2 := by
  ext i
  have hlen := S.length_next s
  rcases lt_or_ge i w with hi | hi
  · rw [get_append_left (h := hlen.symm ▸ hi)]
    simp [stream, Stream'.get, Nat.div_eq_of_lt hi, Nat.mod_eq_of_lt hi, after]
  · obtain ⟨j, rfl⟩ := Nat.exists_eq_add_of_le hi
    have hright : ((S.next s).1 ++ₛ S.stream (S.next s).2).get (w + j) = (S.stream (S.next s).2).get j := by
      rw [← get_append_right j (S.next s).1, hlen]
    rw [hright]
    have hdiv : (w + j) / w = j / w + 1 := by rw [Nat.add_div_left _ (NeZero.pos w)]
    simp [stream, Stream'.get, hdiv, after_succ]

end Source

end Refill

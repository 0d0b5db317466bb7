import Mathlib

/-! Properties of an event log that relate each event to the part of the log before it. -/
namespace History

universe u
variable {α : Type u} {P : List α → α → Prop} {l m : List α} {x : α}

/-- Every event stands in relation `P` to the events before it. -/
def Each (P : List α → α → Prop) (l : List α) : Prop :=
  ∀ pre x post, l = pre ++ x :: post → P pre x

theorem each_nil : Each P [] := by
  intro pre x post h
  simp at h

theorem each_append_singleton : Each P (l ++ [x]) ↔ Each P l ∧ P l x := by
  constructor
  · intro h
    refine ⟨fun pre y post hl => h pre y (post ++ [x]) (by simp [hl]), h l x [] rfl⟩
  · rintro ⟨hl, hx⟩ pre y post h
    rcases List.eq_nil_or_concat post with rfl | ⟨post, z, rfl⟩
    · obtain ⟨rfl, hy⟩ := List.append_inj' h rfl
      cases hy
      exact hx
    · have h' : l ++ [x] = (pre ++ y :: post) ++ [z] := by simpa using h
      obtain ⟨hl', -⟩ := List.append_inj' h' rfl
      exact hl pre y post hl'

/-- A whole batch of events is appended when each of them may follow the ones before it. -/
theorem each_append (hl : Each P l) (hm : ∀ pre y post, m = pre ++ y :: post → P (l ++ pre) y) :
    Each P (l ++ m) := by
  induction m using List.reverseRecOn with
  | nil => simpa using hl
  | append_singleton m y ih =>
    rw [← List.append_assoc]
    refine each_append_singleton.mpr ⟨ih fun pre z post h => ?_, ?_⟩
    · exact hm pre z (post ++ [y]) (by simp [h])
    · exact hm m y [] rfl

end History

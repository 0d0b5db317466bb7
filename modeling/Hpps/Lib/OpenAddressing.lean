import Mathlib

/-! Open addressing: a key is looked for along its path of buckets, up to the first free one. -/
namespace OpenAddressing

universe u v
variable {κ : Type u} {ι : Type v} [DecidableEq κ] {slot slot' : ι → Option κ} {k k' : κ}
  {p : List ι} {i j : ι} {path : κ → List ι}

/-- Where a probe ends: at its key, at a free bucket, or nowhere. -/
inductive Probe (ι : Type v)
  | hit (i : ι)
  | free (i : ι)
  | exhausted
  deriving DecidableEq, Repr

def probe (slot : ι → Option κ) (k : κ) : List ι → Probe ι
  | [] => .exhausted
  | i :: p =>
    match slot i with
    | none => .free i
    | some k' => if k' = k then .hit i else probe slot k p

theorem slot_of_hit (h : probe slot k p = .hit i) : slot i = some k ∧ i ∈ p := by
  induction p with
  | nil => simp [probe] at h
  | cons j p ih =>
    unfold probe at h
    split at h
    · cases h
    · rename_i k' hk
      split at h
      · rename_i hkk
        cases h
        exact ⟨hkk ▸ hk, List.mem_cons_self⟩
      · exact ⟨(ih h).1, List.mem_cons_of_mem _ (ih h).2⟩

/-- All the buckets before the one where a key is found are taken. -/
theorem before_hit (h : probe slot k p = .hit i) : ∃ q r, p = q ++ i :: r ∧ ∀ j ∈ q, slot j ≠ none := by
  induction p with
  | nil => simp [probe] at h
  | cons a p ih =>
    unfold probe at h
    split at h
    · cases h
    · rename_i k' ha
      split at h
      · cases h
        exact ⟨[], p, rfl, by simp⟩
      · obtain ⟨q, r, rfl, hq⟩ := ih h
        exact ⟨a :: q, r, rfl, List.forall_mem_cons.mpr ⟨by simp [ha], hq⟩⟩

theorem slot_of_free (h : probe slot k p = .free i) : slot i = none ∧ i ∈ p := by
  induction p with
  | nil => simp [probe] at h
  | cons j p ih =>
    unfold probe at h
    split at h
    · rename_i hj
      cases h
      exact ⟨hj, List.mem_cons_self⟩
    · split at h
      · cases h
      · exact ⟨(ih h).1, List.mem_cons_of_mem _ (ih h).2⟩

/-- A probe ends when it comes to its key or to a free bucket. -/
theorem probe_ne_exhausted (hi : i ∈ p) (h : slot i = none ∨ slot i = some k) :
    probe slot k p ≠ .exhausted := by
  induction p with
  | nil => simp at hi
  | cons a p ih =>
    unfold probe
    split
    · simp
    · rename_i k' ha
      split
      · simp
      · rename_i hk
        rcases List.mem_cons.mp hi with rfl | hi
        · rw [ha] at h
          simp [hk] at h
        · exact ih hi

variable [DecidableEq ι]

/-- Filling a free bucket does not hide a key that was found before. -/
theorem probe_fill_of_hit (hi : slot i = none) (h : probe slot k p = .hit j) :
    probe (Function.update slot i (some k')) k p = .hit j := by
  induction p with
  | nil => simp [probe] at h
  | cons a p ih =>
    unfold probe at h
    split at h
    · cases h
    · rename_i ka ha
      have hai : a ≠ i := by
        rintro rfl
        rw [hi] at ha
        cases ha
      simp only [probe, Function.update_of_ne hai, ha]
      split at h
      · rename_i hka
        rw [if_pos hka]
        exact h
      · rename_i hka
        rw [if_neg hka]
        exact ih h

theorem probe_fill_self (h : probe slot k p = .free i) :
    probe (Function.update slot i (some k)) k p = .hit i := by
  induction p with
  | nil => simp [probe] at h
  | cons a p ih =>
    unfold probe at h
    split at h
    · cases h
      simp [probe]
    · rename_i ka ha
      split at h
      · cases h
      · rename_i hka
        have hai : a ≠ i := by
          rintro rfl
          rw [(slot_of_free h).1] at ha
          cases ha
        simp only [probe, Function.update_of_ne hai, ha, if_neg hka]
        exact ih h

/-- Every stored key is found where it is stored. -/
def Findable (slot : ι → Option κ) (path : κ → List ι) : Prop :=
  ∀ i k, slot i = some k → probe slot k (path k) = .hit i

omit [DecidableEq ι] in
theorem Findable.eq (h : Findable slot path) (hi : slot i = some k) (hj : slot j = some k) :
    i = j := by
  have := (h i k hi).symm.trans (h j k hj)
  cases this
  rfl

omit [DecidableEq ι] in
theorem Findable.hit_iff (h : Findable slot path) :
    probe slot k (path k) = .hit i ↔ slot i = some k :=
  ⟨fun hp => (slot_of_hit hp).1, h i k⟩

theorem Findable.fill (h : Findable slot path) (hf : probe slot k (path k) = .free i) :
    Findable (Function.update slot i (some k)) path := by
  intro j k' hj
  by_cases hji : j = i
  · subst hji
    rw [Function.update_self] at hj
    cases hj
    exact probe_fill_self hf
  · rw [Function.update_of_ne hji] at hj
    exact probe_fill_of_hit (slot_of_free hf).1 (h j k' hj)

omit [DecidableEq ι] in
/-- A key whose bucket is lost is no longer found. -/
theorem Findable.not_hit_of_lost (h : Findable slot path) (hi : slot i = some k)
    (hsub : ∀ j k, slot' j = some k → slot j = some k) (hlost : slot' i = none) :
    ∀ j, probe slot' k p ≠ .hit j := by
  intro j hj
  have hj' := (slot_of_hit hj).1
  have hij := h.eq hi (hsub j k hj')
  subst hij
  rw [hlost] at hj'
  cases hj'

end OpenAddressing

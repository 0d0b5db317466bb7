import Mathlib

/-! `SyncScheduler::VectorClock`: one request counter per worker and the slowest of them. -/
namespace Hpps.Scheduler

/-- `std::numeric_limits<int>::max()`, the local clock of a worker that finished training. -/
def intMax : ℤ := 2147483647

/-- The counters are C++ ints. Overflow past `intMax` is undefined there and not modelled here. -/
structure VectorClock (K : ℕ) where
  localClock : Fin K → ℤ
  globalClock : ℤ

namespace VectorClock

variable {K : ℕ} {c : VectorClock K} {n : Fin K → ℕ} {i j : Fin K}

def new (K : ℕ) : VectorClock K := ⟨fun _ => 0, 0⟩

def minElement (c : VectorClock K) : ℤ := (List.ofFn c.localClock).min?.getD 0

/-- Workers whose clock is `intMax` are taken for finished and skipped. -/
def maxElement (c : VectorClock K) : ℤ :=
  (List.ofFn c.localClock).foldl (fun m v => if v ≠ intMax ∧ v > m then v else m) c.globalClock

/-- Returns true when all clocks reach the same number. -/
def update (c : VectorClock K) (i : Fin K) : VectorClock K × Bool :=
  let c := { c with localClock := Function.update c.localClock i (c.localClock i + 1) }
  if c.globalClock < c.minElement then
    let c := { c with globalClock := c.globalClock + 1 }
    (c, c.globalClock == c.maxElement)
  else (c, false)

def finishTrain (c : VectorClock K) (i : Fin K) : VectorClock K × Bool :=
  let c := { c with localClock := Function.update c.localClock i intMax }
  if c.globalClock < c.minElement then
    let c := { c with globalClock := c.minElement }
    (c, c.globalClock == c.maxElement)
  else (c, false)

theorem le_minElement (i : Fin K) {m : ℤ} : m ≤ c.minElement ↔ ∀ j, m ≤ c.localClock j := by
  have hne : (List.ofFn c.localClock) ≠ [] := by
    intro h
    have := congrArg List.length h
    simp only [List.length_ofFn, List.length_nil] at this
    exact absurd i.isLt (by omega)
  obtain ⟨a, ha⟩ := Option.ne_none_iff_exists'.mp
    (show (List.ofFn c.localClock).min? ≠ none by simpa [List.min?_eq_none_iff] using hne)
  have hle : m ≤ a ↔ ∀ b ∈ List.ofFn c.localClock, m ≤ b := List.le_min?_iff ha
  simp only [minElement, ha, Option.getD_some, hle, List.forall_mem_ofFn_iff]

theorem foldl_max_eq_iff {l : List ℤ} {g : ℤ} :
    l.foldl (fun m v => if v ≠ intMax ∧ v > m then v else m) g = g ↔
      ∀ v ∈ l, v ≠ intMax → v ≤ g := by
  have hge : ∀ (l : List ℤ) (g : ℤ),
      g ≤ l.foldl (fun m v => if v ≠ intMax ∧ v > m then v else m) g := by
    intro l
    induction l with
    | nil => intro g; exact le_rfl
    | cons v l ih =>
      intro g
      refine le_trans ?_ (ih _)
      dsimp only
      split <;> omega
  induction l generalizing g with
  | nil => simp
  | cons v l ih =>
    simp only [List.foldl_cons, List.forall_mem_cons]
    split
    · rename_i hv
      have := hge l v
      constructor
      · intro h; omega
      · intro h; exact absurd (h.1 hv.1) (by omega)
    · rename_i hv
      refine ih.trans ?_
      constructor
      · intro h
        exact ⟨fun hne => not_lt.mp fun hgt => hv ⟨hne, hgt⟩, h⟩
      · exact fun h => h.2

theorem eq_maxElement :
    c.globalClock = c.maxElement ↔ ∀ j, c.localClock j ≠ intMax → c.localClock j ≤ c.globalClock := by
  rw [eq_comm, maxElement, foldl_max_eq_iff, List.forall_mem_ofFn_iff]

/-- The clock counts `n`, and its global value is the least count. -/
structure Tracks (c : VectorClock K) (n : Fin K → ℕ) : Prop where
  localClock : ∀ i, c.localClock i = n i
  globalClock_le : ∀ i, c.globalClock ≤ n i
  globalClock_mem : ∀ _ : Fin K, ∃ i, c.globalClock = n i

theorem tracks_new : Tracks (new K) 0 := ⟨fun _ => rfl, fun _ => le_rfl, fun i => ⟨i, rfl⟩⟩

theorem Tracks.gt_iff (h : Tracks c n) : c.localClock i > c.globalClock ↔ ∃ j, n j < n i := by
  rw [h.localClock]
  constructor
  · intro hlt
    obtain ⟨j, hj⟩ := h.globalClock_mem i
    exact ⟨j, by omega⟩
  · rintro ⟨j, hj⟩
    have := h.globalClock_le j
    omega

/-- One more request of worker `i`. -/
def bump (n : Fin K → ℕ) (i : Fin K) : Fin K → ℕ := Function.update n i (n i + 1)

@[simp] theorem bump_self : bump n i i = n i + 1 := Function.update_self ..

@[simp] theorem bump_of_ne (h : j ≠ i) : bump n i j = n j := Function.update_of_ne h ..

theorem le_bump : n j ≤ bump n i j := by
  by_cases h : j = i
  · subst h; simp
  · simp [h]

theorem Tracks.update_localClock (h : Tracks c n) :
    ∀ j, Function.update c.localClock i (c.localClock i + 1) j = bump n i j := by
  intro j
  by_cases hj : j = i
  · subst hj; simp [h.localClock]
  · simp [hj, h.localClock]

/-- The global clock moves exactly when the least count does. -/
theorem Tracks.lt_minElement (h : Tracks c n) :
    c.globalClock < minElement { c with
        localClock := Function.update c.localClock i (c.localClock i + 1) } ↔
      ∀ j, c.globalClock < bump n i j := by
  rw [← Int.add_one_le_iff, le_minElement i]
  simp only [h.update_localClock, Int.add_one_le_iff]

theorem Tracks.update (h : Tracks c n) : Tracks (c.update i).1 (bump n i) := by
  have hl := h.update_localClock (i := i)
  unfold VectorClock.update
  dsimp only
  split
  · rename_i hlt
    rw [h.lt_minElement] at hlt
    refine ⟨hl, fun j => by have := hlt j; exact this, fun _ => ?_⟩
    obtain ⟨j, hj⟩ := h.globalClock_mem i
    have := hlt j
    by_cases hji : j = i
    · subst hji
      exact ⟨j, by simp [hj]⟩
    · simp [hji, hj] at this
  · rename_i hlt
    rw [h.lt_minElement] at hlt
    push Not at hlt
    obtain ⟨j, hj⟩ := hlt
    refine ⟨hl, fun k => le_trans (h.globalClock_le k) (by exact_mod_cast le_bump), fun _ => ⟨j, ?_⟩⟩
    have := h.globalClock_le j
    have hb : (n j : ℤ) ≤ bump n i j := by exact_mod_cast le_bump
    dsimp only
    omega

/-- A worker that stays at the least count keeps the round open. -/
theorem Tracks.update_false (h : Tracks c n) (hij : j ≠ i) (hmin : ∀ k, n j ≤ n k) :
    (c.update i).2 = false := by
  have hg : c.globalClock = n j := by
    obtain ⟨k, hk⟩ := h.globalClock_mem i
    have := h.globalClock_le j
    have := hmin k
    omega
  unfold VectorClock.update
  dsimp only
  rw [if_neg]
  rw [h.lt_minElement]
  intro hall
  have := hall j
  simp [hij, hg] at this

/-- Once every other clock stands at `intMax`, each step of the slowest worker ends a round. -/
theorem Tracks.update_true_of_intMax (h : Tracks c n) (hi : (n i + 1 : ℤ) < intMax)
    (hn : ∀ j, j ≠ i → (n j : ℤ) = intMax) : (c.update i).2 = true := by
  have hl := h.update_localClock (i := i)
  have hg : c.globalClock = n i := by
    obtain ⟨k, hk⟩ := h.globalClock_mem i
    have := h.globalClock_le i
    by_cases hki : k = i
    · exact hki ▸ hk
    · have := hn k hki
      omega
  have hlt : ∀ j, c.globalClock < bump n i j := by
    intro j
    by_cases hj : j = i
    · subst hj; simp [hg]
    · rw [bump_of_ne hj, hn j hj]
      omega
  unfold VectorClock.update
  dsimp only
  rw [if_pos (h.lt_minElement.mpr hlt), beq_iff_eq]
  refine (eq_maxElement (c := ⟨Function.update c.localClock i (c.localClock i + 1),
    c.globalClock + 1⟩)).mpr fun j hj => ?_
  dsimp only at hj ⊢
  rw [hl] at hj ⊢
  have hji : j = i := by
    by_contra hne
    rw [bump_of_ne hne] at hj
    exact hj (hn j hne)
  subst hji
  simp [hg]

/-- While no count reaches `intMax`, a round completes when every count is the same. -/
theorem Tracks.update_true_iff (h : Tracks c n) (hb : ∀ j, (bump n i j : ℤ) < intMax) :
    (c.update i).2 = true ↔ ∀ j, bump n i j = n i + 1 := by
  have hl := h.update_localClock (i := i)
  obtain ⟨k, hk⟩ := h.globalClock_mem i
  have hki := h.globalClock_le i
  unfold VectorClock.update
  dsimp only
  split
  · rename_i hlt
    rw [h.lt_minElement] at hlt
    have hk' := hlt k
    have hkk : k = i := by
      by_contra hne
      simp [hne, hk] at hk'
    subst hkk
    rw [beq_iff_eq]
    refine (eq_maxElement (c := ⟨Function.update c.localClock k (c.localClock k + 1),
      c.globalClock + 1⟩)).trans ?_
    simp only [hl]
    constructor
    · intro hall j
      have := hall j (by have := hb j; omega)
      have := hlt j
      omega
    · intro hall j _
      rw [hall j]
      push_cast
      omega
  · rename_i hlt
    rw [h.lt_minElement] at hlt
    simp only [Bool.false_eq_true, false_iff]
    intro hall
    refine hlt fun j => ?_
    rw [hall j]
    push_cast
    omega

end VectorClock
end Hpps.Scheduler

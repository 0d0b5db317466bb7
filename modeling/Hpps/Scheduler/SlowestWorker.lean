import Hpps.Lib.TransitionSystem
import Hpps.Scheduler.VectorClock

/-! A vector clock on its own: its global value is the least local one after any calls. -/
namespace Hpps.Scheduler

open TransitionSystem

inductive ClockCall (K : ℕ)
  | update (i : Fin K)
  | finishTrain (i : Fin K)

/-- A clock and the workers that FinishTrain was called for. -/
structure ClockState (K : ℕ) where
  clock : VectorClock K
  finished : Finset (Fin K)

namespace ClockState

open VectorClock

variable {K : ℕ} {c : VectorClock K} {s t : ClockState K} {a : ClockCall K} {i j : Fin K} {m m' : ℤ}

def init (K : ℕ) : ClockState K := ⟨.new K, ∅⟩

/-- What a call makes of the clock, and what it returns. -/
def call (c : VectorClock K) : ClockCall K → VectorClock K × Bool
  | .update i => c.update i
  | .finishTrain i => c.finishTrain i

def finish (finished : Finset (Fin K)) : ClockCall K → Finset (Fin K)
  | .update _ => finished
  | .finishTrain i => insert i finished

/-- A worker is not updated after it finished, and does not reach `INT_MAX` by counting. -/
def allowed (s : ClockState K) : ClockCall K → Bool
  | .update i => i ∉ s.finished ∧ s.clock.localClock i + 1 ≠ intMax
  | .finishTrain _ => true

def step (s : ClockState K) (a : ClockCall K) : Option (ClockState K) :=
  if s.allowed a then some ⟨(call s.clock a).1, finish s.finished a⟩ else none

/-- The slowest worker is at `m`. -/
def Slowest (c : VectorClock K) (m : ℤ) : Prop := IsLeast (Set.range c.localClock) m

/-- The unfinished workers are below `INT_MAX`, and the global clock is that of the slowest one. -/
structure Inv (s : ClockState K) : Prop where
  finished : ∀ j ∈ s.finished, s.clock.localClock j = intMax
  unfinished : ∀ j, j ∉ s.finished → s.clock.localClock j < intMax
  slowest : ∀ _ : Fin K, Slowest s.clock s.clock.globalClock

/-- What a call does when it was allowed. -/
structure Tracked (s : ClockState K) (a : ClockCall K) (t : ClockState K) : Prop where
  inv : Inv t
  raised : (call s.clock a).2 = true ↔ s.clock.globalClock < t.clock.globalClock ∧
    ∀ j, j ∉ t.finished → t.clock.localClock j = t.clock.globalClock

theorem inv_init : Inv (init K) :=
  ⟨by simp [init], fun _ _ => by simp [init, new, intMax], fun i => ⟨⟨i, rfl⟩, by rintro _ ⟨j, rfl⟩; exact le_rfl⟩⟩

theorem slowest_minElement (i : Fin K) : Slowest c c.minElement := by
  refine ⟨?_, ?_⟩
  · by_contra hno
    have hlt : c.minElement + 1 ≤ c.minElement := by
      refine (le_minElement i).mpr fun j => ?_
      have hle : c.minElement ≤ c.localClock j := (le_minElement i).mp le_rfl j
      have hne : c.localClock j ≠ c.minElement := fun heq => hno ⟨j, heq⟩
      omega
    omega
  · rintro _ ⟨j, rfl⟩
    exact (le_minElement i).mp le_rfl j

theorem Inv.eq_intMax_iff (h : Inv s) : s.clock.localClock j = intMax ↔ j ∈ s.finished := by
  refine ⟨fun heq => ?_, h.finished j⟩
  by_contra hj
  exact absurd heq (h.unfinished j hj).ne

/-- No clock is above the global one when those of the unfinished workers are equal to it. -/
theorem Inv.eq_maxElement_iff (h : Inv s) (i : Fin K) : s.clock.globalClock = s.clock.maxElement ↔
    ∀ j, j ∉ s.finished → s.clock.localClock j = s.clock.globalClock := by
  rw [eq_maxElement]
  refine forall_congr' fun j => ?_
  rw [Ne, h.eq_intMax_iff]
  have hle : s.clock.globalClock ≤ s.clock.localClock j := (h.slowest i).2 ⟨j, rfl⟩
  exact ⟨fun hj hmem => le_antisymm (hj hmem) hle, fun hj hmem => (hj hmem).le⟩

theorem tracked_update (h : Inv s) (hi : i ∉ s.finished) (hmax : s.clock.localClock i + 1 ≠ intMax) :
    Tracked s (.update i) ⟨(s.clock.update i).1, s.finished⟩ := by
  obtain ⟨⟨k, hk⟩, hlower⟩ := h.slowest i
  have hle : ∀ j, s.clock.globalClock ≤ s.clock.localClock j := fun j => hlower ⟨j, rfl⟩
  have hlt := h.unfinished i hi
  set l := Function.update s.clock.localClock i (s.clock.localClock i + 1) with hl
  have hself : l i = s.clock.localClock i + 1 := Function.update_self ..
  have hother : ∀ j, j ≠ i → l j = s.clock.localClock j := fun j hj => Function.update_of_ne hj ..
  have hfinished : ∀ j ∈ s.finished, l j = intMax := fun j hj => by
    rw [hother j (fun heq => hi (heq ▸ hj)), h.finished j hj]
  have hunfinished : ∀ j, j ∉ s.finished → l j < intMax := fun j hj => by
    by_cases hji : j = i
    · rw [hji, hself]
      omega
    · rw [hother j hji]
      exact h.unfinished j hj
  by_cases hmin : s.clock.globalClock < minElement ⟨l, s.clock.globalClock⟩
  · -- the worker that was updated was the only one at the global clock
    have hall : ∀ j, s.clock.globalClock + 1 ≤ l j := (le_minElement i).mp hmin
    have hki : k = i := by
      by_contra hne
      have := hall k
      rw [hother k hne, hk] at this
      omega
    subst hki
    have hupdate : s.clock.update k = (⟨l, s.clock.globalClock + 1⟩,
        s.clock.globalClock + 1 == maxElement ⟨l, s.clock.globalClock + 1⟩) := by
      rw [VectorClock.update]
      exact if_pos hmin
    have hinv : Inv (⟨⟨l, s.clock.globalClock + 1⟩, s.finished⟩ : ClockState K) :=
      ⟨hfinished, hunfinished, fun _ => ⟨⟨k, show l k = _ by rw [hself, hk]⟩, by rintro _ ⟨j, rfl⟩; exact hall j⟩⟩
    refine ⟨by rw [hupdate]; exact hinv, ?_⟩
    rw [call, hupdate]
    dsimp only
    rw [beq_iff_eq]
    exact (hinv.eq_maxElement_iff k).trans ⟨fun hj => ⟨by omega, hj⟩, fun hj => hj.2⟩
  · have hupdate : s.clock.update i = (⟨l, s.clock.globalClock⟩, false) := by
      rw [VectorClock.update]
      exact if_neg hmin
    have hge : ∀ j, s.clock.globalClock ≤ l j := fun j => by
      have := hle j
      by_cases hji : j = i
      · rw [hji, hself]
        have := hle i
        omega
      · rwa [hother j hji]
    have hinv : Inv (⟨⟨l, s.clock.globalClock⟩, s.finished⟩ : ClockState K) := by
      refine ⟨hfinished, hunfinished, fun _ => ?_⟩
      have hleast := slowest_minElement (c := ⟨l, s.clock.globalClock⟩) i
      have heq : minElement ⟨l, s.clock.globalClock⟩ = s.clock.globalClock :=
        le_antisymm (not_lt.mp hmin) ((le_minElement i).mpr hge)
      rwa [heq] at hleast
    refine ⟨by rw [hupdate]; exact hinv, ?_⟩
    rw [call, hupdate]
    simp

theorem tracked_finishTrain (h : Inv s) : Tracked s (.finishTrain i) ⟨(s.clock.finishTrain i).1, insert i s.finished⟩ := by
  obtain ⟨-, hlower⟩ := h.slowest i
  have hle : ∀ j, s.clock.globalClock ≤ s.clock.localClock j := fun j => hlower ⟨j, rfl⟩
  have hmax : ∀ j, s.clock.localClock j ≤ intMax := fun j => by
    by_cases hj : j ∈ s.finished
    · exact (h.finished j hj).le
    · exact (h.unfinished j hj).le
  set l := Function.update s.clock.localClock i intMax with hl
  have hself : l i = intMax := Function.update_self ..
  have hother : ∀ j, j ≠ i → l j = s.clock.localClock j := fun j hj => Function.update_of_ne hj ..
  have hfinished : ∀ j ∈ insert i s.finished, l j = intMax := fun j hj => by
    by_cases hji : j = i
    · rw [hji, hself]
    · rw [hother j hji, h.finished j (Finset.mem_of_mem_insert_of_ne hj hji)]
  have hunfinished : ∀ j, j ∉ insert i s.finished → l j < intMax := fun j hj => by
    rw [Finset.mem_insert, not_or] at hj
    rw [hother j hj.1]
    exact h.unfinished j hj.2
  have hinv : ∀ g, Slowest ⟨l, g⟩ g → Inv (⟨⟨l, g⟩, insert i s.finished⟩ : ClockState K) :=
    fun g hg => ⟨hfinished, hunfinished, fun _ => hg⟩
  by_cases hmin : s.clock.globalClock < minElement ⟨l, s.clock.globalClock⟩
  · set g := minElement ⟨l, s.clock.globalClock⟩ with hg
    have hfinish : s.clock.finishTrain i = (⟨l, g⟩, g == maxElement ⟨l, g⟩) := by
      rw [VectorClock.finishTrain]
      exact if_pos hmin
    have hinv := hinv g (slowest_minElement (c := ⟨l, s.clock.globalClock⟩) i)
    refine ⟨by rw [hfinish]; exact hinv, ?_⟩
    rw [call, hfinish]
    dsimp only
    rw [beq_iff_eq]
    exact (hinv.eq_maxElement_iff i).trans ⟨fun hj => ⟨hmin, hj⟩, fun hj => hj.2⟩
  · have hfinish : s.clock.finishTrain i = (⟨l, s.clock.globalClock⟩, false) := by
      rw [VectorClock.finishTrain]
      exact if_neg hmin
    have hge : ∀ j, s.clock.globalClock ≤ l j := fun j => by
      by_cases hji : j = i
      · rw [hji, hself]
        exact (hle i).trans (hmax i)
      · rw [hother j hji]
        exact hle j
    have heq : minElement ⟨l, s.clock.globalClock⟩ = s.clock.globalClock :=
      le_antisymm (not_lt.mp hmin) ((le_minElement i).mpr hge)
    have hleast := slowest_minElement (c := ⟨l, s.clock.globalClock⟩) i
    rw [heq] at hleast
    refine ⟨by rw [hfinish]; exact hinv _ hleast, ?_⟩
    rw [call, hfinish]
    simp

theorem tracked_step (h : Inv s) (hs : step s a = some t) : Tracked s a t := by
  unfold step at hs
  split at hs
  · rename_i hallowed
    cases hs
    cases a with
    | update i =>
      simp only [allowed, decide_eq_true_eq] at hallowed
      exact tracked_update h hallowed.1 hallowed.2
    | finishTrain i => exact tracked_finishTrain h
  · cases hs

theorem inv_of_reachable (h : Reachable step (init K) s) : Inv s :=
  h.invariant inv_init fun _ _ _ hx hs => (tracked_step hx hs).inv

/-- After every call the global clock is that of the slowest worker, and the call returns whether it moved the slowest
worker and all unfinished workers are there now. -/
theorem tracks_slowest (h : Reachable step (init K) s) (hs : step s a = some t) :
    Slowest t.clock t.clock.globalClock ∧ (∀ j ∈ t.finished, t.clock.localClock j = intMax) ∧
      ∀ m m', Slowest s.clock m → Slowest t.clock m' →
        ((call s.clock a).2 = true ↔ m < m' ∧ ∀ j, j ∉ t.finished → t.clock.localClock j = m') := by
  have i : Fin K := match a with
    | .update i => i
    | .finishTrain i => i
  have hinv := inv_of_reachable h
  have htracked := tracked_step hinv hs
  refine ⟨htracked.inv.slowest i, htracked.inv.finished, fun m m' hm hm' => ?_⟩
  obtain rfl := hm.unique (hinv.slowest i)
  obtain rfl := hm'.unique (htracked.inv.slowest i)
  exact htracked.raised

/-- Of two workers the second one catches up. -/
theorem tracks_slowest_two : ∃ s t : ClockState 2, Reachable step (init 2) s ∧ step s (.update 1) = some t ∧
    Slowest t.clock t.clock.globalClock ∧ (∀ j ∈ t.finished, t.clock.localClock j = intMax) ∧
      ∀ m m', Slowest s.clock m → Slowest t.clock m' →
        ((call s.clock (.update 1)).2 = true ↔ m < m' ∧ ∀ j, j ∉ t.finished → t.clock.localClock j = m') := by
  have h : ∃ s, exec step (init 2) [.update 0] = some s := ⟨_, rfl⟩
  obtain ⟨s, hs⟩ := h
  have ht : ∃ t, step s (.update 1) = some t := by
    cases hs
    exact ⟨_, rfl⟩
  obtain ⟨t, ht⟩ := ht
  exact ⟨s, t, ⟨_, hs⟩, ht, tracks_slowest ⟨_, hs⟩ ht⟩

end ClockState
end Hpps.Scheduler

import Hpps.Feeder.Feeder
import Hpps.Lib.Tally

/-! Whether the check before a batch is made bounds the queue that the batch is pushed to. -/
namespace Hpps.Feeder.FeederState

open Tally TransitionSystem

variable {ρ β : Type} {T : ℕ} (assembleBatch : ℕ → ρ → Except Stop (β × ρ)) (plans : List (Plan ρ))
  (s : FeederState ρ β T)

/-- Past the check of plan `i`, and its batch not pushed yet. -/
def past (i : ℕ) : Position ρ β → Bool
  | .pop j | .assemble j _ | .push j _ _ => i = j
  | .visit _ | .putBack _ _ => false

/-- The threads that may still push a batch of plan `i`. -/
def underway (threads : Fin T → Position ρ β) (i : ℕ) : ℕ := ∑ t, if past i (threads t) then 1 else 0

/-- A thread passes the check of a plan only while the queue has room for one more than the batches on
their way. -/
def Roomy : FeederMove T → Prop
  | .thread t =>
    match s.threads t with
    | .visit i => ∀ plan ∈ plans[i]?, s.full plan i = false →
        (s.blockingQueues i).length + underway s.threads i < plan.maxQueueSize
    | _ => True
  | .consume _ => True

instance : ∀ a, Decidable (Roomy plans s a)
  | .thread t =>
    match h : s.threads t with
    | .visit i =>
      match hp : plans[i]? with
      | none => .isTrue (by simp [Roomy, h, hp])
      | some plan => decidable_of_iff (s.full plan i = false →
          (s.blockingQueues i).length + underway s.threads i < plan.maxQueueSize) (by simp [Roomy, h, hp])
    | .pop _ | .assemble _ _ | .push _ _ _ | .putBack _ _ => .isTrue (by simp [Roomy, h])
  | .consume _ => .isTrue trivial

/-- The batches in a queue, with those on their way. -/
def Bounded : Prop :=
  ∀ i, ∀ plan ∈ plans[i]?, (s.blockingQueues i).length + underway s.threads i ≤ plan.maxQueueSize

variable {assembleBatch plans s} {s' : FeederState ρ β T} {t : Fin T} {a : FeederMove T} {p : Position ρ β} {i : ℕ}
  {plan : Plan ρ}

theorem underway_update (threads : Fin T → Position ρ β) (t : Fin T) (p : Position ρ β) (i : ℕ) :
    underway (Function.update threads t p) i + (if past i (threads t) then 1 else 0) =
      underway threads i + if past i p then 1 else 0 :=
  sum_update (fun p => if past i p then 1 else 0) threads t p

/-- A step of a thread that stays on the same side of the check and of the push. -/
theorem Bounded.setThread (h : s.Bounded plans) (hp : ∀ i, past i p = true → past i (s.threads t) = true) :
    (s.setThread t p).Bounded plans := by
  intro i plan hplan
  have hupdate := underway_update s.threads t p i
  have hle := h i plan hplan
  have hmono : (if past i p then 1 else 0) ≤ if past i (s.threads t) then 1 else 0 := by
    by_cases h1 : past i p = true
    · rw [if_pos h1, if_pos (hp i h1)]
    · rw [if_neg h1]
      exact Nat.zero_le _
  simp only [FeederState.setThread]
  omega

theorem Bounded.step (h : s.Bounded plans) (hroomy : s.Roomy plans a) (hs : step assembleBatch plans s a = some s') :
    s'.Bounded plans := by
  cases (step_outcome hs).2 with
  | skip ht => exact h.setThread (by simp [past])
  | @enter t i plan ht hplan hfull =>
    intro j plan' hplan'
    have hupdate := underway_update s.threads t (.pop i) j
    simp only [ht, past, Bool.false_eq_true, if_false, add_zero, decide_eq_true_eq] at hupdate
    simp only [FeederState.setThread]
    rw [hupdate]
    by_cases hj : j = i
    · subst hj
      simp only [Roomy, ht] at hroomy
      have hroom := hroomy plan hplan hfull
      cases hplan.symm.trans hplan'
      rw [if_pos rfl]
      omega
    · rw [if_neg hj]
      exact h j plan' hplan'
  | pop ht hq => exact Bounded.setThread (s := { s with taskQueues := _ }) h (by simp [past, ht])
  | assemble ht hplan hle hok => exact h.setThread (by simp [past, ht])
  | assembleStop => exact h
  | finish ht hge => exact h.setThread (by simp [past])
  | drop ht hplan hlt => exact h.setThread (by simp [past])
  | putBack ht hlt => exact Bounded.setThread (s := { s with taskQueues := _ }) h (by simp [past])
  | @push t i task batch ht =>
    intro j plan hplan
    have hupdate := underway_update s.threads t (.putBack i task) j
    have hle := h j plan hplan
    simp only [ht, past, Bool.false_eq_true, if_false, add_zero, decide_eq_true_eq] at hupdate
    simp only [FeederState.setThread]
    by_cases hj : j = i
    · subst hj
      rw [if_pos rfl] at hupdate
      rw [Function.update_self, List.length_append, List.length_singleton]
      omega
    · rw [if_neg hj] at hupdate
      rw [Function.update_of_ne hj]
      omega
  | @consume i batch batches hq =>
    intro j plan hplan
    have hle := h j plan hplan
    by_cases hj : j = i
    · subst hj
      rw [hq, List.length_cons] at hle
      simp only [Function.update_self]
      omega
    · simp only [Function.update_of_ne hj]
      exact hle

theorem underway_init : underway (init plans : FeederState ρ β T).threads i = 0 := by
  simp [underway, init, past]

theorem bounded_init : (init plans : FeederState ρ β T).Bounded plans := by
  intro i plan _
  rw [underway_init]
  exact Nat.zero_le _

/-- In a run whose threads all find room for the batches on their way, no queue is longer than its size. -/
theorem queues_bounded
    (h : Reachable (restrict (Roomy plans) (FeederState.step assembleBatch plans)) (init plans : FeederState ρ β T) s)
    (hplan : plans[i]? = some plan) : (s.blockingQueues i).length ≤ plan.maxQueueSize := by
  have hbounded : s.Bounded plans := by
    apply h.invariant (P := fun s => s.Bounded plans)
    · exact bounded_init
    · intro x a y hx hstep
      obtain ⟨hroomy, hs⟩ := restrict_eq_some.mp hstep
      exact hx.step hroomy hs
  exact (Nat.le_add_right _ _).trans (hbounded i plan hplan)

/-- A plan of one record with three batches, and a queue for one. -/
def onePlan : List (Plan Unit) := [⟨[⟨3, ()⟩], 1, 1⟩]

def emptyBatch : ℕ → Unit → Except Stop (Unit × Unit) := fun _ _ => .ok ((), ())

/-- Two threads fill the queue in turn, and find it full. -/
theorem queues_bounded_two : ∃ s : FeederState Unit Unit 2,
    Reachable (restrict (Roomy onePlan) (FeederState.step emptyBatch onePlan)) (init onePlan) s ∧
      s.pushed.length = 2 ∧ (s.blockingQueues 0).length ≤ 1 := by
  have hrun : (exec (restrict (Roomy onePlan) (FeederState.step emptyBatch onePlan))
      (init onePlan : FeederState Unit Unit 2)
      (.replicate 6 (.thread 0) ++ .consume 0 :: .replicate 6 (.thread 1))).map
        (fun s => s.pushed.length) = some 2 := by decide
  obtain ⟨s, hs, heq⟩ := Option.map_eq_some_iff.mp hrun
  exact ⟨s, ⟨_, hs⟩, heq, queues_bounded (i := 0) ⟨_, hs⟩ rfl⟩

/-- Both threads pass the check of the empty queue, and the second waits for the task of the first. -/
theorem queue_overflows : ∃ s : FeederState Unit Unit 2,
    Reachable (FeederState.step emptyBatch onePlan) (init onePlan) s ∧
      onePlan[0]?.map Plan.maxQueueSize = some 1 ∧ (s.blockingQueues 0).length = 2 := by
  have hrun : (exec (FeederState.step emptyBatch onePlan) (init onePlan : FeederState Unit Unit 2)
      (.thread 0 :: .thread 1 :: .replicate 4 (.thread 0) ++ .replicate 3 (.thread 1))).map
        (fun s => (s.blockingQueues 0).length) = some 2 := by decide
  obtain ⟨s, hs, heq⟩ := Option.map_eq_some_iff.mp hrun
  exact ⟨s, ⟨_, hs⟩, rfl, heq⟩

/-- A single thread is never past the check when it comes to it. -/
theorem roomy_of_single {s : FeederState ρ β 1} (a : FeederMove 1) : s.Roomy plans a := by
  cases a with
  | consume i => exact trivial
  | thread t =>
    rw [Roomy]
    split
    · rename_i i ht
      intro plan _ hfull
      have hnone : underway s.threads i = 0 := by
        simp [underway, Subsingleton.elim 0 t, ht, past]
      rw [hnone]
      simpa [full] using hfull
    · exact trivial

/-- So one thread alone keeps the bound in every run. -/
theorem bounded_of_single {s : FeederState ρ β 1}
    (h : Reachable (FeederState.step assembleBatch plans) (init plans) s) : s.Bounded plans :=
  h.invariant (P := fun s => s.Bounded plans) bounded_init fun _ a _ hx hs => hx.step (roomy_of_single a) hs

end Hpps.Feeder.FeederState

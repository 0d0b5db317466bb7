import Hpps.Feeder.Feeder

/-! Whether threads that wait for a plan that ran dry keep another plan from its batches. -/
namespace Hpps.Feeder.FeederState

open TransitionSystem

variable {ρ β : Type} {T : ℕ} (assembleBatch : ℕ → ρ → Except Stop (β × ρ)) (plans : List (Plan ρ))
  (s : FeederState ρ β T)

/-- The thread waits in Pop on an empty queue. -/
def blocked (t : Fin T) : Bool :=
  match s.threads t with
  | .pop i => (s.taskQueues i).isEmpty
  | _ => false

/-- A task in the queue of plan `i` can produce a full batch. -/
def producible (i : ℕ) : Bool :=
  match plans[i]? with
  | some plan => (s.taskQueues i).any fun task => task.curr + plan.batchSize ≤ task.sampleCount
  | none => false

/-- Plan `i` can produce a full batch whenever its consumers take one. -/
def pending (i : ℕ) : Bool := plans[i]?.any (fun plan => 0 < plan.maxQueueSize) && s.producible plans i

/-- All threads wait, though a plan has a full batch to give and room for it. -/
def Starved : Prop :=
  (∀ t, s.blocked t = true) ∧
    ∃ i plan, plans[i]? = some plan ∧ s.full plan i = false ∧ s.producible plans i = true

/-- The next step of the thread calls Pop on an empty queue. -/
def runsDry (t : Fin T) : Bool :=
  match s.threads t with
  | .visit i => plans[i]?.any fun plan => !s.full plan i && (s.taskQueues i).isEmpty
  | _ => false

/-- The last thread that does not wait calls Pop on an empty queue only if no plan has a full batch to give. -/
def Spared : FeederMove T → Prop
  | .thread t => s.runsDry plans t = true →
      (∃ u, u ≠ t ∧ s.blocked u = false) ∨ ∀ i < plans.length, s.pending plans i = false
  | .consume _ => True

instance : ∀ a, Decidable (Spared plans s a)
  | .thread t => inferInstanceAs (Decidable (s.runsDry plans t = true →
      (∃ u, u ≠ t ∧ s.blocked u = false) ∨ ∀ i < plans.length, s.pending plans i = false))
  | .consume _ => inferInstanceAs (Decidable True)

/-- Some thread does not wait, unless no plan has a full batch to give. -/
def Awake : Prop := (∃ t, s.blocked t = false) ∨ ∀ i < plans.length, s.pending plans i = false

variable {assembleBatch plans s} {s' : FeederState ρ β T} {t u : Fin T} {a : FeederMove T} {p : Position ρ β} {i : ℕ}

theorem blocked_setThread_self (hp : ∀ i, p ≠ .pop i) : (s.setThread t p).blocked t = false := by
  cases p with
  | pop i => exact absurd rfl (hp i)
  | visit | assemble | push | putBack => simp [blocked, setThread]

theorem blocked_setThread_of_ne (hu : u ≠ t) : (s.setThread t p).blocked u = s.blocked u := by
  simp only [blocked, setThread, Function.update_of_ne hu]

theorem Awake.step (h : s.Awake plans) (hspared : s.Spared plans a) (hs : step assembleBatch plans s a = some s') :
    s'.Awake plans := by
  cases (step_outcome hs).2 with
  | skip | assemble | drop | finish => exact .inl ⟨_, blocked_setThread_self fun _ => nofun⟩
  | pop | push | putBack => exact .inl ⟨_, blocked_setThread_self fun _ => nofun⟩
  | assembleStop | consume => exact h
  | @enter t i plan ht hp hfull =>
    cases hq : s.taskQueues i with
    | cons task tasks =>
      left
      refine ⟨t, ?_⟩
      simp [blocked, setThread, hq]
    | nil =>
      have hdry : s.runsDry plans t = true := by simp [runsDry, ht, hp, hfull, hq]
      rcases hspared hdry with ⟨u, hu, hfree⟩ | hnone
      · exact .inl ⟨u, (blocked_setThread_of_ne hu).trans hfree⟩
      · exact .inr hnone

/-- A run whose steps are all spared starves no plan. -/
theorem never_starved (hT : 0 < T)
    (h : Reachable (restrict (Spared plans) (FeederState.step assembleBatch plans)) (init plans : FeederState ρ β T) s) :
    ¬ s.Starved plans := by
  have hawake : s.Awake plans := by
    apply h.invariant (P := fun s => s.Awake plans)
    · exact .inl ⟨⟨0, hT⟩, rfl⟩
    · intro x a y hx hstep
      obtain ⟨hspared, hs⟩ := restrict_eq_some.mp hstep
      exact hx.step hspared hs
  rintro ⟨hall, i, plan, hp, hfull, hprod⟩
  rcases hawake with ⟨t, ht⟩ | hnone
  · rw [hall t] at ht
    cases ht
  · have hpending := hnone i (List.getElem?_eq_some_iff.mp hp).1
    simp only [pending, hp, hprod, Option.any_some, Bool.and_true, decide_eq_false_iff_not] at hpending
    simp only [full, decide_eq_false_iff_not] at hfull
    omega

/-- Two plans of one record, with one batch and with two. -/
def testPlans : List (Plan Unit) := [⟨[⟨1, ()⟩], 1, 1⟩, ⟨[⟨2, ()⟩], 1, 1⟩]

def testAssemble : ℕ → Unit → Except Stop (Unit × Unit) := fun _ _ => .ok ((), ())

/-- One of two threads waits for the first plan, the other goes on with the second. -/
theorem never_starved_two : ∃ s : FeederState Unit Unit 2,
    Reachable (restrict (Spared testPlans) (FeederState.step testAssemble testPlans)) (init testPlans) s ∧
      s.blocked 1 = true ∧ s.pushed.length = 2 ∧ ¬ s.Starved testPlans := by
  have hrun : (exec (restrict (Spared testPlans) (FeederState.step testAssemble testPlans))
      (init testPlans : FeederState Unit Unit 2)
      (.replicate 5 (.thread 0) ++ .consume 0 :: .thread 1 :: .replicate 6 (.thread 0))).map
        (fun s => (s.blocked 1, s.pushed.length)) = some (true, 2) := by decide
  obtain ⟨s, hs, heq⟩ := Option.map_eq_some_iff.mp hrun
  simp only [Prod.mk.injEq] at heq
  exact ⟨s, ⟨_, hs⟩, heq.1, heq.2, never_starved (by decide) ⟨_, hs⟩⟩

/-- The only thread waits for the first plan, and the batch of the second was consumed. -/
theorem second_plan_starved : ∃ s : FeederState Unit Unit 1,
    Reachable (FeederState.step testAssemble testPlans) (init testPlans) s ∧ s.Starved testPlans := by
  have hrun : (exec (FeederState.step testAssemble testPlans) (init testPlans : FeederState Unit Unit 1)
      (.replicate 11 (.thread 0) ++ [.consume 0, .thread 0, .consume 1])).map
        (fun s => (s.blocked 0, (s.blockingQueues 1).length, s.producible testPlans 1)) = some (true, 0, true) := by
    decide
  obtain ⟨s, hs, heq⟩ := Option.map_eq_some_iff.mp hrun
  simp only [Prod.mk.injEq] at heq
  refine ⟨s, ⟨_, hs⟩, fun t => ?_, 1, _, rfl, ?_, heq.2.2⟩
  · rw [Subsingleton.elim t 0]
    exact heq.1
  · simp [full, heq.2.1]

/-! ### The condition is exact -/

theorem consume_all (hstop : s.stop = none) : Reachable (FeederState.step assembleBatch plans) s
    { s with blockingQueues := Function.update s.blockingQueues i [] } := by
  generalize hq : s.blockingQueues i = batches
  induction batches generalizing s with
  | nil =>
    rw [← hq, Function.update_eq_self]
    exact .refl
  | cons batch batches ih =>
    have hconsume : FeederState.step assembleBatch plans s (.consume i) =
        some { s with blockingQueues := Function.update s.blockingQueues i batches } := by
      simp [FeederState.step, hq, hstop]
    have hrest := ih (s := { s with blockingQueues := Function.update s.blockingQueues i batches }) hstop
      (Function.update_self ..)
    simp only [Function.update_idem] at hrest
    exact (Reachable.refl.tail hconsume).trans hrest

theorem blocked_of_runsDry (hs : FeederState.step assembleBatch plans s (.thread t) = some s')
    (hdry : s.runsDry plans t = true) : s'.stop = none ∧ s'.blocked t = true ∧
      (∀ u ≠ t, s'.blocked u = s.blocked u) ∧ s'.taskQueues = s.taskQueues := by
  have hstop := (step_outcome hs).1
  cases ht : s.threads t with
  | visit j =>
    cases hp : plans[j]? with
    | none => simp [runsDry, ht, hp] at hdry
    | some plan =>
      have hfull : s.full plan j = false ∧ s.taskQueues j = [] := by simpa [runsDry, ht, hp] using hdry
      have hs' : s' = s.setThread t (.pop j) := by
        simpa [FeederState.step, advance, hstop, ht, hp, hfull.1] using hs.symm
      subst hs'
      refine ⟨hstop, ?_, fun u hu => blocked_setThread_of_ne hu, rfl⟩
      simp [blocked, setThread, hfull.2]
  | pop | assemble | push | putBack => simp [runsDry, ht] at hdry

/-- After a step that is not spared the consumers can starve a plan. -/
theorem starved_of_not_spared (hs : FeederState.step assembleBatch plans s a = some s') (hnot : ¬ s.Spared plans a) :
    ∃ s'', Reachable (FeederState.step assembleBatch plans) s' s'' ∧ s''.Starved plans := by
  cases a with
  | consume i => exact absurd trivial hnot
  | thread t =>
    simp only [Spared] at hnot
    push Not at hnot
    obtain ⟨hdry, hothers, i, hi, hpending⟩ := hnot
    have hroom : 0 < plans[i].maxQueueSize ∧ s.producible plans i = true := by simpa [pending, hi] using hpending
    obtain ⟨hstop, hself, hframe, hqueues⟩ := blocked_of_runsDry hs hdry
    have hall : ∀ u, s'.blocked u = true := by
      intro u
      by_cases hu : u = t
      · rw [hu, hself]
      · rw [hframe u hu]
        simpa using hothers u hu
    refine ⟨_, consume_all (i := i) hstop, hall, i, plans[i], List.getElem?_eq_getElem hi, ?_, ?_⟩
    · simpa [full, Nat.pos_iff_ne_zero] using hroom.1
    · simpa [producible, hqueues] using hroom.2

end Hpps.Feeder.FeederState

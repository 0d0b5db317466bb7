import Hpps.Common.Stop
import Hpps.Lib.TransitionSystem

/-! The feeder: threads that visit the plans in turn and hand the tasks of their records to each other. -/
namespace Hpps.Feeder

open TransitionSystem

/-- A record as it was opened, and its `sample_count()`. -/
structure SampleRecord (ρ : Type) where
  sampleCount : ℕ
  recordIo : ρ

/-- A plan, with the size of the queue that it was scheduled with. -/
structure Plan (ρ : Type) where
  sampleRecord : List (SampleRecord ρ)
  batchSize : ℕ
  maxQueueSize : ℕ

/-- `recordIo` stands for the record and the cache of the task; `id` is the place of the record in its plan. -/
structure Task (ρ : Type) where
  id : ℕ
  curr : ℕ
  sampleCount : ℕ
  recordIo : ρ

/-- Where a thread is: before the check of plan `i` in `Run`, or in `ProduceBatch` before the Pop, with the
task that it popped, before it pushes the batch, and before it puts the task back. -/
inductive Position (ρ β : Type)
  | visit (i : ℕ)
  | pop (i : ℕ)
  | assemble (i : ℕ) (task : Task ρ)
  | push (i : ℕ) (task : Task ρ) (batch : β)
  | putBack (i : ℕ) (task : Task ρ)

/-- The log `pushed` (each with the plan and the record) is not read. -/
structure FeederState (ρ β : Type) (T : ℕ) where
  taskQueues : ℕ → List (Task ρ)
  blockingQueues : ℕ → List β
  threads : Fin T → Position ρ β
  stop : Option Stop
  pushed : List (ℕ × ℕ × β)

/-- A thread does its next step, or a consumer pops a batch of plan `i`. -/
inductive FeederMove (T : ℕ)
  | thread (t : Fin T)
  | consume (i : ℕ)

namespace FeederState

variable {ρ β : Type} {T : ℕ} (assembleBatch : ℕ → ρ → Except Stop (β × ρ)) (plans : List (Plan ρ))
  (s : FeederState ρ β T)

/-- The tasks of a plan as `AddTask` makes them. -/
def tasksOf (plan : Plan ρ) : List (Task ρ) :=
  plan.sampleRecord.zipIdx.map fun r => ⟨r.2, 0, r.1.sampleCount, r.1.recordIo⟩

/-- All plans are scheduled, and the threads start. -/
def init : FeederState ρ β T where
  taskQueues i := (plans[i]?.map tasksOf).getD []
  blockingQueues _ := []
  threads _ := .visit 0
  stop := none
  pushed := []

def setThread (t : Fin T) (p : Position ρ β) : FeederState ρ β T := { s with threads := Function.update s.threads t p }

def full (plan : Plan ρ) (i : ℕ) : Bool := plan.maxQueueSize ≤ (s.blockingQueues i).length

/-- The next step of a thread, which is `none` while it waits in Pop. -/
def advance (t : Fin T) : Option (FeederState ρ β T) :=
  match s.threads t with
  | .visit i =>
    match plans[i]? with
    | some plan => some (s.setThread t (if s.full plan i then .visit (i + 1) else .pop i))
    | none => some (s.setThread t (.visit 0))
  | .pop i =>
    match s.taskQueues i with
    | [] => none
    | task :: tasks =>
      some ({ s with taskQueues := Function.update s.taskQueues i tasks }.setThread t (.assemble i task))
  | .assemble i task =>
    match plans[i]? with
    | some plan =>
      if task.curr + plan.batchSize ≤ task.sampleCount then
        match assembleBatch plan.batchSize task.recordIo with
        | .ok (batch, recordIo) =>
          some (s.setThread t (.push i { task with curr := task.curr + plan.batchSize, recordIo } batch))
        | .error e => some { s with stop := some e }
      else some (s.setThread t (.visit (i + 1)))
    | none => none
  | .push i task batch =>
    some ({ s with
      blockingQueues := Function.update s.blockingQueues i (s.blockingQueues i ++ [batch])
      pushed := s.pushed ++ [(i, task.id, batch)] }.setThread t (.putBack i task))
  | .putBack i task =>
    if task.curr < task.sampleCount then
      some ({ s with taskQueues := Function.update s.taskQueues i (task :: s.taskQueues i) }.setThread t
        (.visit (i + 1)))
    else some (s.setThread t (.visit (i + 1)))

def step : FeederMove T → Option (FeederState ρ β T)
  | .thread t => if s.stop.isSome then none else advance assembleBatch plans s t
  | .consume i =>
    match s.blockingQueues i with
    | [] => none
    | _ :: batches => if s.stop.isSome then none
      else some { s with blockingQueues := Function.update s.blockingQueues i batches }

variable {assembleBatch plans s} {s' : FeederState ρ β T} {t u : Fin T} {a : FeederMove T}

/-- What each move can do. -/
inductive Outcome (assembleBatch : ℕ → ρ → Except Stop (β × ρ)) (plans : List (Plan ρ)) (s : FeederState ρ β T) :
    FeederMove T → FeederState ρ β T → Prop
  | skip {t : Fin T} {i j : ℕ} (ht : s.threads t = .visit i) :
      Outcome assembleBatch plans s (.thread t) (s.setThread t (.visit j))
  | enter {t : Fin T} {i : ℕ} {plan : Plan ρ} (ht : s.threads t = .visit i) (hp : plans[i]? = some plan)
      (hfull : s.full plan i = false) : Outcome assembleBatch plans s (.thread t) (s.setThread t (.pop i))
  | pop {t : Fin T} {i : ℕ} {task : Task ρ} {tasks : List (Task ρ)} (ht : s.threads t = .pop i)
      (hq : s.taskQueues i = task :: tasks) : Outcome assembleBatch plans s (.thread t)
        ({ s with taskQueues := Function.update s.taskQueues i tasks }.setThread t (.assemble i task))
  | assemble {t : Fin T} {i : ℕ} {task : Task ρ} {plan : Plan ρ} {batch : β} {recordIo : ρ}
      (ht : s.threads t = .assemble i task) (hp : plans[i]? = some plan)
      (hle : task.curr + plan.batchSize ≤ task.sampleCount)
      (hok : assembleBatch plan.batchSize task.recordIo = .ok (batch, recordIo)) :
      Outcome assembleBatch plans s (.thread t)
        (s.setThread t (.push i { task with curr := task.curr + plan.batchSize, recordIo } batch))
  | assembleStop {t : Fin T} {i : ℕ} {task : Task ρ} {plan : Plan ρ} {e : Stop}
      (ht : s.threads t = .assemble i task) (hp : plans[i]? = some plan)
      (hle : task.curr + plan.batchSize ≤ task.sampleCount)
      (herr : assembleBatch plan.batchSize task.recordIo = .error e) :
      Outcome assembleBatch plans s (.thread t) { s with stop := some e }
  | drop {t : Fin T} {i : ℕ} {task : Task ρ} {plan : Plan ρ} (ht : s.threads t = .assemble i task)
      (hp : plans[i]? = some plan) (hlt : task.sampleCount < task.curr + plan.batchSize) :
      Outcome assembleBatch plans s (.thread t) (s.setThread t (.visit (i + 1)))
  | push {t : Fin T} {i : ℕ} {task : Task ρ} {batch : β} (ht : s.threads t = .push i task batch) :
      Outcome assembleBatch plans s (.thread t)
        ({ s with
          blockingQueues := Function.update s.blockingQueues i (s.blockingQueues i ++ [batch])
          pushed := s.pushed ++ [(i, task.id, batch)] }.setThread t (.putBack i task))
  | putBack {t : Fin T} {i : ℕ} {task : Task ρ} (ht : s.threads t = .putBack i task)
      (hlt : task.curr < task.sampleCount) : Outcome assembleBatch plans s (.thread t)
        ({ s with taskQueues := Function.update s.taskQueues i (task :: s.taskQueues i) }.setThread t
          (.visit (i + 1)))
  | finish {t : Fin T} {i : ℕ} {task : Task ρ} (ht : s.threads t = .putBack i task)
      (hge : task.sampleCount ≤ task.curr) :
      Outcome assembleBatch plans s (.thread t) (s.setThread t (.visit (i + 1)))
  | consume {i : ℕ} {batch : β} {batches : List β} (hq : s.blockingQueues i = batch :: batches) :
      Outcome assembleBatch plans s (.consume i)
        { s with blockingQueues := Function.update s.blockingQueues i batches }

theorem step_outcome (hs : step assembleBatch plans s a = some s') :
    s.stop = none ∧ Outcome assembleBatch plans s a s' := by
  cases a with
  | thread t =>
    rw [step] at hs
    split at hs
    · cases hs
    · rename_i hstop
      refine ⟨by simpa using hstop, ?_⟩
      unfold advance at hs
      split at hs
      · rename_i i ht
        split at hs
        · rename_i plan hp
          cases hs
          split
          · exact .skip ht
          · rename_i hfull
            exact .enter ht hp (by simpa using hfull)
        · cases hs
          exact .skip ht
      · rename_i i ht
        split at hs
        · cases hs
        · rename_i task tasks hq
          cases hs
          exact .pop ht hq
      · rename_i i task ht
        split at hs
        · rename_i plan hp
          split at hs
          · rename_i hle
            split at hs
            · rename_i batch recordIo hok
              cases hs
              exact .assemble ht hp hle hok
            · rename_i e herr
              cases hs
              exact .assembleStop ht hp hle herr
          · rename_i hlt
            cases hs
            exact .drop ht hp (not_le.mp hlt)
        · cases hs
      · rename_i i task batch ht
        cases hs
        exact .push ht
      · rename_i i task ht
        split at hs
        · rename_i hlt
          cases hs
          exact .putBack ht hlt
        · rename_i hge
          cases hs
          exact .finish ht (not_lt.mp hge)
  | consume i =>
    rw [step] at hs
    split at hs
    · cases hs
    · rename_i batch batches hq
      split at hs
      · cases hs
      · rename_i hstop
        cases hs
        exact ⟨by simpa using hstop, .consume hq⟩

end FeederState
end Hpps.Feeder

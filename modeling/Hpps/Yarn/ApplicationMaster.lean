import Hpps.Lib.TransitionSystem

/-! The application master on YARN: what its callbacks do with the tasks of the job. -/
namespace Hpps.Yarn

inductive TaskRole
  | worker
  | server
  deriving DecidableEq, Repr

structure ContainerRequest where
  memory : ℤ
  virtualCores : ℤ
  priority : ℤ
  deriving DecidableEq, Repr

structure Container where
  id : ℕ
  nodeHttpAddress : String
  deriving DecidableEq, Repr

structure ContainerStatus where
  containerId : ℕ
  exitStatus : ℤ
  deriving DecidableEq, Repr

structure TaskRecord where
  taskId : ℕ
  taskRole : TaskRole
  attemptCounter : ℕ := 0
  containerRequest : Option ContainerRequest := none
  container : Option Container := none
  abortRequested : Bool := false
  deriving DecidableEq, Repr

/-- The settings, and the exit codes of the platform: two of them are looked up by name and can be
missing. -/
structure Config where
  numWorker : ℕ
  numServer : ℕ
  maxNumAttempt : ℤ := 3
  workerMemoryMB : ℤ := 10
  serverMemoryMB : ℤ := 10
  workerCores : ℤ := 1
  serverCores : ℤ := 1
  workerPriority : ℤ := 1
  serverPriority : ℤ := 2
  success : ℤ
  killedExceededPmem : Option ℤ
  killedExceededVmem : Option ℤ

namespace Config

variable (cfg : Config)

def numTasks : ℕ := cfg.numWorker + cfg.numServer

/-- The record of the `r`-th task: first the workers, then the servers. -/
def newRecord (r : ℕ) : TaskRecord :=
  if r < cfg.numWorker then { taskId := r, taskRole := .worker }
  else { taskId := r - cfg.numWorker, taskRole := .server }

def requestFor : TaskRole → ContainerRequest
  | .server => ⟨cfg.serverMemoryMB, cfg.serverCores, cfg.serverPriority⟩
  | .worker => ⟨cfg.workerMemoryMB, cfg.workerCores, cfg.workerPriority⟩

/-- The memory of which the status says that it was exceeded. A missing name ends the lookups. -/
def exceeded (exitStatus : ℤ) : Option String :=
  match cfg.killedExceededPmem with
  | none => none
  | some pmem =>
    if exitStatus = pmem then some "physical"
    else if cfg.killedExceededVmem = some exitStatus then some "virtual" else none

end Config

/-- What the application master asks of the platform, and its aborts. -/
inductive Event
  | addRequest (r : ℕ)
  | removeRequest (r : ℕ)
  | launch (r : ℕ)
  | launchDummy (cid : ℕ)
  | stop (cid : ℕ)
  | abort
  deriving DecidableEq, Repr

/-- The tasks are numbered, and `records` holds what their objects hold. The logs `log` and `allocated` (the
containers that were allocated so far) are not read. -/
structure ApplicationMaster where
  records : ℕ → TaskRecord
  pendingTasks : List ℕ
  runningTasks : List (ℕ × ℕ)
  finishedTasks : List ℕ
  killedTasks : List ℕ
  startAbort : Bool
  abortDiagnosis : String
  blackList : List String
  log : List Event
  allocated : List ℕ

namespace ApplicationMaster

variable (cfg : Config) (s : ApplicationMaster)

def emit (e : Event) : ApplicationMaster := { s with log := s.log ++ [e] }

def modify (r : ℕ) (f : TaskRecord → TaskRecord) : ApplicationMaster :=
  { s with records := Function.update s.records r (f (s.records r)) }

def doneAllJobs : Bool := s.pendingTasks.length = 0 ∧ s.runningTasks.length = 0

/-- One round of the loop of `submitTasks`. -/
def submitTask (r : ℕ) : ApplicationMaster :=
  let request := cfg.requestFor (s.records r).taskRole
  let s := (s.modify r fun record => { record with containerRequest := some request }).emit (.addRequest r)
  { s with pendingTasks := s.pendingTasks ++ [r] }

def submitTasks (tasks : List ℕ) : ApplicationMaster := tasks.foldl (submitTask cfg) s

/-- After the submission of all tasks in `run`. -/
def init : ApplicationMaster :=
  submitTasks cfg ⟨cfg.newRecord, [], [], [], [], false, "", [], [], []⟩ (List.range cfg.numTasks)

def launchDummyTask (c : Container) : ApplicationMaster := s.emit (.launchDummy c.id)

def launchTask (c : Container) (r : ℕ) : ApplicationMaster :=
  let s := s.modify r fun record => { record with container := some c, containerRequest := none }
  { s with runningTasks := (c.id, r) :: s.runningTasks.filter (·.1 ≠ c.id) }.emit (.launch r)

def freeUnusedContainers (containers : List Container) : ApplicationMaster :=
  containers.foldl launchDummyTask s

/-- One round of the loop of `onContainersAllocated`. -/
def allocateOne (p : ApplicationMaster × List Container) (c : Container) : ApplicationMaster × List Container :=
  let (s, freelist) := p
  if c.nodeHttpAddress ∈ s.blackList then (s.launchDummyTask c, freelist)
  else
    match s.pendingTasks with
    | [] => (s, freelist ++ [c])
    | r :: pendingTasks => ({ s with pendingTasks }.launchTask c r, freelist)

def onContainersAllocated (containers : List Container) : ApplicationMaster :=
  let s := { s with allocated := s.allocated ++ containers.map Container.id }
  if s.startAbort then s.freeUnusedContainers containers
  else
    let (s, freelist) := containers.foldl allocateOne (s, [])
    s.freeUnusedContainers freelist

/-- One round of the first loop of `abortJob`. A null container throws. -/
def abortTask (r : ℕ) : Option ApplicationMaster :=
  if (s.records r).abortRequested then some s
  else do
    let c ← (s.records r).container
    let s := (s.emit (.stop c.id)).modify r fun record => { record with abortRequested := true }
    return { s with killedTasks := s.killedTasks ++ [r] }

/-- A null request throws. -/
def removeRequest (r : ℕ) : Option ApplicationMaster := do
  let _ ← (s.records r).containerRequest
  return s.emit (.removeRequest r)

def abortJob (msg : String) : Option ApplicationMaster := do
  let s := { s with
    abortDiagnosis := if s.startAbort then s.abortDiagnosis else msg
    startAbort := true }.emit .abort
  let s ← (s.runningTasks.map Prod.snd).foldlM abortTask s
  let s := { s with killedTasks := s.killedTasks ++ s.pendingTasks }
  let s ← s.pendingTasks.foldlM removeRequest s
  return { s with pendingTasks := [], runningTasks := [] }

/-- One round of the loop of `handleFailure`. -/
def failOne (p : ApplicationMaster × List ℕ) (cid : ℕ) : Option (ApplicationMaster × List ℕ) :=
  let (s, tasks) := p
  match s.runningTasks.lookup cid with
  | none => some (s, tasks)
  | some r => do
    let s := { s with runningTasks := s.runningTasks.filter (·.1 ≠ cid) }
    let c ← (s.records r).container
    let s := s.modify r fun record =>
      { record with attemptCounter := record.attemptCounter + 1, container := none }
    let s := { s with blackList := s.blackList.insert c.nodeHttpAddress }.emit (.stop c.id)
    let record := s.records r
    if cfg.maxNumAttempt ≤ record.attemptCounter then
      let s ← s.abortJob ("[HPPS] Task " ++ toString record.taskId ++ " failed more than " ++
        toString record.attemptCounter ++ "times")
      return (s, tasks ++ [r])
    else return (s, tasks ++ [r])

def handleFailure (failed : List ℕ) : Option ApplicationMaster := do
  let (s, tasks) ← failed.foldlM (failOne cfg) (s, [])
  if s.startAbort then return { s with killedTasks := s.killedTasks ++ tasks }
  else return s.submitTasks cfg tasks

/-- The loop of `onContainersCompleted`. No list means that it returned early. -/
def completedLoop : List ContainerStatus → ApplicationMaster → List ℕ → Option (ApplicationMaster × Option (List ℕ))
  | [], s, failed => some (s, some failed)
  | status :: rest, s, failed =>
    match s.runningTasks.lookup status.containerId with
    | none => completedLoop rest s failed
    | some r =>
      if status.exitStatus = cfg.success then
        completedLoop rest { s with
          finishedTasks := s.finishedTasks ++ [r]
          runningTasks := s.runningTasks.filter (·.1 ≠ status.containerId) } failed
      else
        match cfg.exceeded status.exitStatus with
        | some memory => do
          let s ← s.abortJob ("[HPPS] Task " ++ toString (s.records r).taskId ++
            " killed because of exceeding allocated " ++ memory ++ " memory")
          return (s, none)
        | none => completedLoop rest s (failed ++ [status.containerId])

def onContainersCompleted (status : List ContainerStatus) : Option ApplicationMaster := do
  let (s, failed) ← completedLoop cfg status s []
  match failed with
  | some failed => handleFailure cfg s failed
  | none => return s

end ApplicationMaster

/-- The callbacks that do more than write to the log. -/
inductive Callback
  | onContainersAllocated (containers : List Container)
  | onContainersCompleted (status : List ContainerStatus)
  | onStartContainerError (cid : ℕ)
  | onGetContainerStatusError (cid : ℕ)
  | onError (ex : String)
  | onShutdownRequest

namespace ApplicationMaster

variable (cfg : Config) (s : ApplicationMaster)

/-- The platform allocates each container once. -/
def Fresh : Callback → Prop
  | .onContainersAllocated containers =>
    (containers.map Container.id).Nodup ∧ ∀ c ∈ containers, c.id ∉ s.allocated
  | _ => True

instance : ∀ a, Decidable (Fresh s a)
  | .onContainersAllocated containers => inferInstanceAs
      (Decidable ((containers.map Container.id).Nodup ∧ ∀ c ∈ containers, c.id ∉ s.allocated))
  | .onContainersCompleted _ | .onStartContainerError _ | .onGetContainerStatusError _ | .onError _
  | .onShutdownRequest => inferInstanceAs (Decidable True)

/-- What a callback does. One that throws leads nowhere. -/
def callback : Callback → Option ApplicationMaster
  | .onContainersAllocated containers => some (s.onContainersAllocated containers)
  | .onContainersCompleted status => onContainersCompleted cfg s status
  | .onStartContainerError cid => handleFailure cfg s [cid]
  | .onGetContainerStatusError cid => handleFailure cfg s [cid]
  | .onError ex => s.abortJob ("[HPPS] Resource manager Error " ++ ex)
  | .onShutdownRequest => s.abortJob "[HPPS] Get shutdown request, start to shutdown..."

def step : ApplicationMaster → Callback → Option ApplicationMaster :=
  TransitionSystem.restrict Fresh (callback cfg)

/-- How often the task was launched. -/
def launches (r : ℕ) : ℕ := s.log.count (.launch r)

end ApplicationMaster
end Hpps.Yarn

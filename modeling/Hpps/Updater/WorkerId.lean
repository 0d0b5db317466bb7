import Hpps.Frame.Registration
import Hpps.Kv.AddAsync
import Hpps.Table.AvgServer
import Hpps.Updater.Runs

/-! The worker id of an Add, from the node that sends it to the solvers that keep state for each worker. -/
namespace Hpps.WorkerId

open Hpps.Frame Rows

variable {T : Type} [Field T]

/-! ### The solvers -/

/-- What a solver keeps for a worker, if it keeps something for each. -/
def stateOf : Updater T → ℕ → List (Option (List T))
  | .adagrad historicGSqr, w => [historicGSqr[w]?]
  | .dcasgd shadowCopies, w => [shadowCopies[w]?]
  | .dcasgda shadowCopies meanSquare, w => [shadowCopies[w]?, meanSquare[w]?]
  | _, _ => []

/-- A solver with a row of state for each worker, as the constructors make it. -/
def HasWorkers (numWorkers : ℕ) : Updater T → Prop
  | .adagrad historicGSqr => historicGSqr.length = numWorkers
  | .dcasgd shadowCopies => shadowCopies.length = numWorkers
  | .dcasgda shadowCopies meanSquare => shadowCopies.length = numWorkers ∧ meanSquare.length = numWorkers
  | _ => False

variable {sqrt : T → T} {u u' : Updater T} {n offset numWorkers w : ℕ} {data delta data' : List T} {option : AddOption T}
  {states : List (List T)}

omit [Field T] in
theorem ofWorker_invalid (h : ¬ (0 ≤ option.workerId ∧ option.workerId < states.length)) :
    Updater.ofWorker states option.workerId = .error .memory := by
  unfold Updater.ofWorker
  split
  · rename_i state hstate
    split at hstate
    · rename_i hpos
      have := (List.getElem?_eq_some_iff.mp hstate).1
      omega
    · cases hstate
  · rfl

omit [Field T] in
theorem getElem?_set_worker {state : List T} (hpos : 0 ≤ option.workerId) (hw : (w : ℤ) ≠ option.workerId) :
    (states.set option.workerId.toNat state)[w]? = states[w]? :=
  List.getElem?_set_ne (by omega)

omit [Field T] in
theorem nonneg_of_ofWorker {workerId : ℤ} {state : List T} (h : Updater.ofWorker states workerId = .ok state) : 0 ≤ workerId := by
  by_contra hneg
  unfold Updater.ofWorker at h
  rw [if_neg hneg] at h
  cases h

/-- An update writes to the state of one worker, the one that its option names. -/
theorem update_others (h : u.update numWorkers sqrt n data delta option offset = .ok (u', data'))
    (hw : (w : ℤ) ≠ option.workerId) : stateOf u' w = stateOf u w := by
  cases u with
  | default | sgd | adagrad | adam | avg | momentum =>
    obtain ⟨x, -, h⟩ := bind_eq_ok.mp h
    cases h
    rfl
  | dcasgd shadowCopies =>
    obtain ⟨⟨shadow', x⟩, hx, h⟩ := bind_eq_ok.mp h
    cases h
    unfold Updater.dcasgdUpdate at hx
    split at hx
    · cases hx
      rfl
    · obtain ⟨shadow, hshadow, hx⟩ := bind_eq_ok.mp hx
      have hpos := nonneg_of_ofWorker hshadow
      obtain ⟨_, -, hx⟩ := bind_eq_ok.mp hx
      obtain ⟨_, -, hx⟩ := bind_eq_ok.mp hx
      obtain ⟨_, -, hx⟩ := bind_eq_ok.mp hx
      obtain ⟨_, -, hx⟩ := bind_eq_ok.mp hx
      obtain ⟨_, -, hx⟩ := bind_eq_ok.mp hx
      cases hx
      simp only [stateOf, getElem?_set_worker hpos hw]
  | dcasgda shadowCopies meanSquare =>
    obtain ⟨⟨shadow', square', x⟩, hx, h⟩ := bind_eq_ok.mp h
    cases h
    unfold Updater.dcasgdaUpdate at hx
    split at hx
    · cases hx
      rfl
    · obtain ⟨square, hsquare, hx⟩ := bind_eq_ok.mp hx
      have hpos := nonneg_of_ofWorker hsquare
      obtain ⟨_, -, hx⟩ := bind_eq_ok.mp hx
      obtain ⟨_, -, hx⟩ := bind_eq_ok.mp hx
      obtain ⟨_, -, hx⟩ := bind_eq_ok.mp hx
      obtain ⟨_, -, hx⟩ := bind_eq_ok.mp hx
      obtain ⟨_, -, hx⟩ := bind_eq_ok.mp hx
      obtain ⟨_, -, hx⟩ := bind_eq_ok.mp hx
      obtain ⟨_, -, hx⟩ := bind_eq_ok.mp hx
      obtain ⟨_, -, hx⟩ := bind_eq_ok.mp hx
      cases hx
      simp only [stateOf, getElem?_set_worker hpos hw]

/-- An option without a worker makes the solver read outside its state. -/
theorem update_invalid (hu : HasWorkers numWorkers u) (hn : n ≠ 0)
    (h : ¬ (0 ≤ option.workerId ∧ option.workerId < numWorkers)) :
    u.update numWorkers sqrt n data delta option offset = .error .memory := by
  cases u with
  | default | sgd | adam | avg | momentum => exact hu.elim
  | adagrad historicGSqr =>
    obtain rfl : historicGSqr.length = numWorkers := hu
    have hnone : (if 0 ≤ option.workerId then historicGSqr[option.workerId.toNat]? else none) = none := by
      split
      · exact List.getElem?_eq_none (by omega)
      · rfl
    simp only [Updater.update, Updater.adagradUpdate, hnone]
    rfl
  | dcasgd shadowCopies =>
    obtain rfl : shadowCopies.length = numWorkers := hu
    simp only [Updater.update, Updater.dcasgdUpdate, if_neg hn, ofWorker_invalid h]
    rfl
  | dcasgda shadowCopies meanSquare =>
    obtain ⟨-, rfl⟩ := hu
    simp only [Updater.update, Updater.dcasgdaUpdate, if_neg hn, ofWorker_invalid h]
    rfl

/-! ### The option that a caller gives -/

/-- What the setters of an `AddOption` write. None of them is called for the worker id. -/
structure Settings (T : Type) where
  learningRate : T
  momentum : T
  rho : T
  lambda : T

/-- An option that is made on a node with this worker rank. -/
def explicitOption (workerRank : ℤ) (settings : Settings T) : AddOption T :=
  let option : AddOption T := .new workerRank
  { option with
    learningRate := settings.learningRate
    momentum := settings.momentum
    rho := settings.rho
    lambda := settings.lambda }

/-- `CreateAddOption(kwargs)`, where `lr` is the entry of `kwargs`. -/
def createAddOption (workerRank : ℤ) (lr : Option T) : AddOption T :=
  let option : AddOption T := .new workerRank
  lr.elim option fun lr => { option with learningRate := lr }

theorem exists_explicitOption (workerRank : ℤ) (lr : Option T) :
    ∃ settings, createAddOption workerRank lr = explicitOption workerRank settings := by
  cases lr with
  | none => exact ⟨⟨(AddOption.new workerRank : AddOption T).learningRate, (AddOption.new workerRank : AddOption T).momentum,
      (AddOption.new workerRank : AddOption T).rho, (AddOption.new workerRank : AddOption T).lambda⟩, rfl⟩
  | some lr => exact ⟨⟨lr, (AddOption.new workerRank : AddOption T).momentum,
      (AddOption.new workerRank : AddOption T).rho, (AddOption.new workerRank : AddOption T).lambda⟩, rfl⟩

/-! ### The array table -/

/-- The option has all its slots. -/
abbrev ArrayBlob (T : Type) := Table.Content T (AddOption T)

/-- The `AddOption option;` of `ProcessAdd`, overwritten by the third blob if there is one. -/
def arrayOption (workerRank : ℤ) : List (ArrayBlob T) → AddOption T
  | [_, _, .option option] => option
  | _ => .new workerRank

structure ArrayServer (T : Type) where
  size : ℕ
  storage : List T
  updater : Updater T

def ArrayServer.processAdd (numWorkers : ℕ) (sqrt : T → T) (workerRank : ℤ) (s : ArrayServer T)
    (data : List (ArrayBlob T)) : Except Stop (ArrayServer T) :=
  Table.serverProcessAdd s.size (fun vs _ => do
    let (updater, storage) ← s.updater.update numWorkers sqrt s.size s.storage vs (arrayOption workerRank data) 0
    return { s with storage, updater }) data

/-- The two solvers of `Table.ArrayServer` among all of them. -/
def ofSolver : Table.Solver → Updater T
  | .default => .default
  | .sgd => .sgd

def ofTable (s : Table.ArrayServer T) : ArrayServer T := ⟨s.size, s.storage, ofSolver s.solver⟩

def ofAvg (s : Table.AvgServer T) : ArrayServer T := ⟨s.size, s.storage, .avg s.accuNum s.sum⟩

/-- The blobs of an Add, of whose option the two solvers read the learning rate only. -/
def tableBlobs (k : ℤ) (vs : List T) (option : Option (AddOption T)) : List (Table.Blob T) :=
  .key k :: .values vs :: (option.map fun o => .option ⟨o.learningRate⟩).toList

def arrayBlobs (k : ℤ) (vs : List T) (option : Option (AddOption T)) : List (ArrayBlob T) :=
  .key k :: .values vs :: (option.map .option).toList

theorem processAdd_arrayBlobs {s : ArrayServer T} {workerRank k : ℤ} {vs : List T} {o : Option (AddOption T)} :
    s.processAdd numWorkers sqrt workerRank (arrayBlobs k vs o) =
      if k = -1 ∧ vs.length = s.size then
        (s.updater.update numWorkers sqrt s.size s.storage vs (o.getD (.new workerRank)) 0).map fun r =>
          { s with storage := r.2, updater := r.1 }
      else .error .check := by
  have hoption : arrayOption workerRank (arrayBlobs k vs o) = o.getD (.new workerRank) := by
    cases o <;> rfl
  rw [← hoption]
  unfold ArrayServer.processAdd Table.serverProcessAdd arrayBlobs
  dsimp only
  generalize s.updater.update numWorkers sqrt s.size s.storage vs _ 0 = x
  cases x <;> rfl

/-- `Table.ArrayServer` is a server with one of two solvers. -/
theorem processAdd_ofTable {s : Table.ArrayServer T} {workerRank k : ℤ} {vs : List T} {o : Option (AddOption T)}
    (hlen : s.storage.length = s.size) (hlt : s.size < 2 ^ 31) :
    (ofTable s).processAdd numWorkers sqrt workerRank (arrayBlobs k vs o) =
      (s.processAdd (AddOption.new workerRank : AddOption T).learningRate (tableBlobs k vs o)).map ofTable := by
  rw [processAdd_arrayBlobs]
  by_cases hvs : k = -1 ∧ vs.length = s.size
  · have htable : s.processAdd (AddOption.new workerRank : AddOption T).learningRate (tableBlobs k vs o) =
        .ok { s with storage := List.zipWith (Table.ArrayServer.update s.solver
          ⟨(o.getD (.new workerRank)).learningRate⟩) s.storage vs } := by
      cases o <;> exact if_pos hvs
    rw [htable, if_pos (show k = -1 ∧ vs.length = (ofTable s).size from hvs)]
    cases hs : s.solver with
    | default =>
      simp [ofTable, hs, ofSolver, Updater.update, eachInt_ok hlt hlen hvs.2, Except.map, pure, Except.pure]
      rfl
    | sgd =>
      simp [ofTable, hs, ofSolver, Updater.update, Updater.sgdUpdate, eachWith_ok hlen hvs.2, Except.map, pure,
        Except.pure]
      rfl
  · have htable : s.processAdd (AddOption.new workerRank : AddOption T).learningRate (tableBlobs k vs o) =
        .error .check := by
      cases o <;> exact if_neg hvs
    rw [htable]
    exact if_neg hvs

/-- `Table.AvgServer` is a server with the averaging updater. -/
theorem processAdd_ofAvg {s : Table.AvgServer T} {workerRank k : ℤ} {vs : List T} {o : Option (AddOption T)} :
    (ofAvg s).processAdd numWorkers sqrt workerRank (arrayBlobs k vs o) =
      (s.processAdd numWorkers (tableBlobs k vs o)).map ofAvg := by
  rw [processAdd_arrayBlobs]
  unfold Table.AvgServer.processAdd Table.serverProcessAdd tableBlobs ofAvg Updater.update
  dsimp only
  split
  · generalize Updater.avgUpdate numWorkers s.accuNum s.sum s.size s.storage vs 0 = x
    cases x <;> rfl
  · rfl

/-! ### The key-value table -/

def kvOption (workerRank : ℤ) : List (Kv.KVBlob T) → AddOption T
  | [_, _, .option option] => option
  | _ => .new workerRank

/-- `ProcessAdd` has no other option. -/
theorem processAdd_kvOption {ρ : Type} (P : Kv.KVProcess ρ T) (st : Kv.KVServerTable ρ T) (data : List (Kv.KVBlob T)) :
    Kv.KVServerTable.ProcessAdd P st data = (do
      let a ← Kv.KVServerTable.unpackAdd data
      Kv.KVServerTable.processAdd P st { a with option := some (kvOption P.workerRank data) }) := by
  unfold Kv.KVServerTable.ProcessAdd Kv.KVServerTable.unpackAdd
  split <;> rfl

/-! ### A cluster -/

/-- What the node of this rank knows when all nodes have registered, in this order. -/
def Registered (roles : List Role) (order : List ℕ) (rank : ℕ) (z : Zoo) : Prop :=
  ∃ c replies reply, RegisterController.run roles.length (.new roles.length) (order.map (Registration.msgOf roles)) =
      .ok (c, replies) ∧
    reply ∈ replies.flatten ∧ reply.dst = rank ∧ Zoo.registerNode roles.length reply = .ok z

/-- The nodes have registered, in any order. -/
def Cluster (roles : List Role) (zoo : ℕ → Zoo) : Prop :=
  roles ≠ [] ∧ ∃ order, order.Perm (List.range roles.length) ∧ ∀ rank < roles.length, Registered roles order rank (zoo rank)

/-- `server_id_to_rank(i)`. -/
def serverNode (z : Zoo) (i : ℕ) : ℕ := (z.serverIdToRank.getD i 0).toNat

/-- An Add to a table. -/
inductive Request (T : Type)
  | array (size : ℕ) (order : List ℕ) (data : List T)
  | kv (valueLen : ℕ) (g : Kv.Garbage T) (keys : List ℕ) (vals : List T)

/-- The parts of a partitioned request for one server. -/
def partsFor {β : Type} (i : ℕ) (out : Except Stop (ℕ × List (ℕ × List β))) : List (List β) :=
  match out with
  | .ok (_, out) => (out.filter fun it => it.1 = i).map Prod.snd
  | .error _ => []

/-- The options that server `i` hands to its updater for an Add that node `r` sends. -/
def Request.optionsAt (zoo : ℕ → Zoo) (r i : ℕ) (settings : Option (Settings T)) : Request T → List (AddOption T)
  | array size order data =>
    let option := settings.map (explicitOption ((zoo r).rankToWorkerId r))
    let s := serverNode (zoo r) i
    (partsFor i (do
      let w ← Table.ArrayWorker.new size (zoo r).numServers.toNat
      w.Partition order (.key (-1) :: .values data :: (option.map .option).toList))).map
        (arrayOption ((zoo s).rankToWorkerId s))
  | kv valueLen g keys vals =>
    let option := settings.map (explicitOption ((zoo r).rankToWorkerId r))
    let s := serverNode (zoo r) i
    (partsFor i (do
      let call ← Kv.KVWorkerTable.AddAsync valueLen keys vals option
      Kv.KVWorkerTable.Partition (zoo r).numServers.toNat valueLen g call.data)).map
        (kvOption ((zoo s).rankToWorkerId s))

/-- The option names the worker of node `r`, and has a row in the state of every solver. -/
structure SelectsSender (zoo : ℕ → Zoo) (r : ℕ) (option : AddOption T) : Prop where
  sender : option.workerId = (zoo r).rankToWorkerId r
  valid : 0 ≤ option.workerId ∧ option.workerId < (zoo r).numWorkers

variable {roles : List Role} {order : List ℕ} {zoo : ℕ → Zoo} {r s i : ℕ} {settings : Option (Settings T)}
  {req : Request T} {w : Table.ArrayWorker}

omit [Field T] in
theorem mem_partsFor {β : Type} {out : Except Stop (ℕ × List (ℕ × List β))} {part : List β} (h : part ∈ partsFor i out) :
    ∃ num parts, out = .ok (num, parts) ∧ (i, part) ∈ parts := by
  unfold partsFor at h
  split at h
  · rename_i num parts
    obtain ⟨⟨j, p⟩, hmem, rfl⟩ := List.mem_map.mp h
    obtain ⟨hin, hj⟩ := List.mem_filter.mp hmem
    obtain rfl : j = i := by simpa using hj
    exact ⟨num, parts, rfl, hin⟩
  · cases h

omit [Field T] in
/-- Each server gets the option blob of the request. -/
theorem part_of_partition {num : ℕ} {key : ArrayBlob T} {vs : List T} {option : List (ArrayBlob T)}
    {out : List (ℕ × List (ArrayBlob T))} {part : List (ArrayBlob T)}
    (h : w.Partition order (key :: .values vs :: option) = .ok (num, out)) (hmem : (i, part) ∈ out) :
    ∃ blob, part = key :: .values blob :: option := by
  unfold Table.ArrayWorker.Partition at h
  dsimp only at h
  split at h
  · obtain ⟨parts, hparts, h⟩ := bind_eq_ok.mp h
    cases h
    obtain ⟨j, -, hj⟩ : ∃ j ∈ order, (w.slice vs j).map (fun blob => (j, key :: .values blob :: option)) = .ok (i, part) := by
      have hall := Table.ArrayWorker.mapM_eq_ok.mp hparts
      obtain ⟨k, hk, hget⟩ := List.getElem_of_mem hmem
      have hk' : k < order.length := hall.length_eq.trans_gt hk
      refine ⟨order[k], List.getElem_mem hk', ?_⟩
      rw [← hget]
      exact hall.get hk' hk
    cases hs : w.slice vs j with
    | error e =>
      rw [hs] at hj
      cases hj
    | ok blob =>
      rw [hs] at hj
      cases hj
      exact ⟨blob, rfl⟩
  · cases h

/-- The worker id of an option comes from the sender if the caller gave one, else from the server's node. -/
theorem workerId_of_mem {option : AddOption T} (h : option ∈ req.optionsAt zoo r i settings) :
    option.workerId = if settings.isSome then (zoo r).rankToWorkerId r
      else (zoo (serverNode (zoo r) i)).rankToWorkerId (serverNode (zoo r) i) := by
  cases req with
  | array size order data =>
    obtain ⟨part, hpart, rfl⟩ := List.mem_map.mp h
    obtain ⟨num, parts, hout, hmem⟩ := mem_partsFor hpart
    obtain ⟨w, -, hout⟩ := bind_eq_ok.mp hout
    obtain ⟨blob, rfl⟩ := part_of_partition hout hmem
    cases settings <;> rfl
  | kv valueLen g keys vals =>
    obtain ⟨part, hpart, rfl⟩ := List.mem_map.mp h
    obtain ⟨num, parts, hout, hmem⟩ := mem_partsFor hpart
    obtain ⟨call, hcall, hout⟩ := bind_eq_ok.mp hout
    unfold Kv.KVWorkerTable.AddAsync at hcall
    split at hcall
    · cases hcall
      cases settings with
      | some settings => cases hout
      | none =>
        obtain ⟨p, -, hout⟩ := bind_eq_ok.mp hout
        cases hout
        obtain ⟨dst, -, hdst⟩ := List.mem_filterMap.mp hmem
        obtain ⟨b, -, hb⟩ := Option.map_eq_some_iff.mp hdst
        cases hb
        unfold Kv.KVWorkerTable.blobs
        cases b.vals <;> rfl
    · cases hcall

theorem Cluster.eq_finalZoo (h : Cluster roles zoo) : ∃ order, order.Perm (List.range roles.length) ∧
    ∀ rank < roles.length, zoo rank = Registration.finalZoo roles order := by
  obtain ⟨hroles, order, ho, hall⟩ := h
  refine ⟨order, ho, fun rank hrank => ?_⟩
  obtain ⟨c, replies, reply, hrun, hreply, -, hz⟩ := hall rank hrank
  exact Registration.eq_finalZoo ho hroles hrun hreply hz

/-- The updater of a server uses the state of the sending worker if and only if the caller gave an option or the
server is on the sender's node. -/
theorem selects_sender_iff (req : Request T) (settings : Option (Settings T)) (hc : Cluster roles zoo) (hr : r < roles.length)
    (hworker : Registration.isWorkerAt roles r = true) (hi : (i : ℤ) < (zoo r).numServers)
    {option : AddOption T} (h : option ∈ req.optionsAt zoo r i settings) :
    SelectsSender zoo r option ↔ settings.isSome = true ∨ serverNode (zoo r) i = r := by
  have hid := workerId_of_mem h
  obtain ⟨order, ho, hzoo⟩ := hc.eq_finalZoo
  have hw := Registration.inverse_workers ho
  have hs := Registration.inverse_servers ho
  obtain ⟨k, hk, hrk, hkr⟩ := hw.rankOf_idOf r hr hworker
  have hnum : ((Registration.finalZoo roles order).workerIdToRank.length : ℤ) =
      (Registration.finalZoo roles order).numWorkers := by simp [Registration.finalZoo]
  rw [hzoo r hr] at hid hi ⊢
  have hi' : i < (Registration.finalZoo roles order).serverIdToRank.length := by
    simpa [Registration.finalZoo] using hi
  obtain ⟨s, hsn, -, hsr, -⟩ := hs.idOf_rankOf i hi'
  have hserver : serverNode (Registration.finalZoo roles order) i = s := by
    simp [serverNode, List.getD_eq_getElem?_getD, hsr]
  rw [hserver, hzoo s hsn] at hid
  rw [hserver]
  have hselects : SelectsSender zoo r option ↔ option.workerId = (Registration.finalZoo roles order).rankToWorkerId r := by
    refine ⟨fun hsel => hzoo r hr ▸ hsel.sender, fun heq => ⟨(hzoo r hr).symm ▸ heq, ?_⟩⟩
    rw [hzoo r hr, heq, hrk]
    omega
  rw [hselects, hid]
  by_cases hset : settings.isSome = true
  · simp [hset]
  · rw [if_neg hset, or_iff_right hset]
    constructor
    · intro heq
      have hsworker : Registration.isWorkerAt roles s = true := by
        by_contra hno
        have := (hw.idOf_eq_neg_one_iff s hsn).mpr (by simpa using hno)
        omega
      obtain ⟨k', -, hsk, hks⟩ := hw.rankOf_idOf s hsn hsworker
      obtain rfl : k = k' := by omega
      rw [hkr] at hks
      simpa using hks.symm
    · rintro rfl
      rfl

/-- Then the state of the other workers stays as it is. -/
theorem SelectsSender.update_others {option : AddOption T} (h : SelectsSender zoo r option)
    (hupdate : u.update numWorkers sqrt n data delta option offset = .ok (u', data')) {v : ℕ}
    (hv : (v : ℤ) ≠ (zoo r).rankToWorkerId r) : stateOf u' v = stateOf u v :=
  WorkerId.update_others hupdate (h.sender ▸ hv)

/-- An Add without an option ends the process of a node that is only a server. -/
theorem processAdd_server_only {server : ArrayServer T} {vs : List T} (hu : HasWorkers numWorkers server.updater)
    (hsize : server.size ≠ 0) (hvs : vs.length = server.size) :
    server.processAdd numWorkers sqrt (-1) [.key (-1), .values vs] = .error .memory := by
  have hinvalid : ¬ (0 ≤ (AddOption.new (-1) : AddOption T).workerId ∧
      (AddOption.new (-1) : AddOption T).workerId < numWorkers) := by
    rintro ⟨hpos, -⟩
    change (0 : ℤ) ≤ -1 at hpos
    omega
  have hupdate : server.updater.update numWorkers sqrt server.size server.storage vs (.new (-1)) 0 = .error .memory :=
    update_invalid hu hsize hinvalid
  simp only [ArrayServer.processAdd, Table.serverProcessAdd, arrayOption, hvs, and_self, if_true, hupdate]
  rfl

theorem cluster_finalZoo (hroles : roles ≠ []) (ho : order.Perm (List.range roles.length)) :
    Cluster roles fun _ => Registration.finalZoo roles order := by
  refine ⟨hroles, order, ho, fun rank hrank => ?_⟩
  refine ⟨_, _, Registration.replyTo roles order rank, Registration.run_order ho hroles, ?_, rfl,
    Registration.registerNode_order ho rank⟩
  simpa using ⟨rank, hrank, rfl⟩

/-- A node that is only a server, and one that is only a worker. -/
def serverAndWorker (_ : ℕ) : Zoo := Registration.finalZoo [.SERVER, .WORKER] [0, 1]

theorem cluster_serverAndWorker : Cluster [.SERVER, .WORKER] serverAndWorker :=
  cluster_finalZoo (by decide) (by decide)

/-- The worker gives an option. -/
theorem selects_sender_iff_two : ∃ option ∈ (Request.array 3 [0] [1, 2, 3] : Request ℚ).optionsAt serverAndWorker 1 0
      (some ⟨1, 0, 0, 0⟩),
    SelectsSender serverAndWorker 1 option ↔ (some (⟨1, 0, 0, 0⟩ : Settings ℚ)).isSome = true ∨
      serverNode (serverAndWorker 1) 0 = 1 :=
  ⟨_, .head _, selects_sender_iff (.array 3 [0] [1, 2, 3]) (some ⟨1, 0, 0, 0⟩) cluster_serverAndWorker (by decide) (by decide) (by decide) (.head _)⟩

/-- Without an option the server's updater is given the worker id -1 of its own node. -/
theorem selects_nobody : ¬ ∀ (roles : List Role) (zoo : ℕ → Zoo) (r i : ℕ) (settings : Option (Settings ℚ))
    (req : Request ℚ), Cluster roles zoo → r < roles.length → Registration.isWorkerAt roles r = true →
    (i : ℤ) < (zoo r).numServers → ∀ option ∈ req.optionsAt zoo r i settings, SelectsSender zoo r option := by
  intro hall
  have hsel := hall _ _ 1 0 none (.array 3 [0] [1, 2, 3]) cluster_serverAndWorker (by decide) (by decide) (by decide)
    (.new (-1)) (.head _)
  exact absurd hsel.valid.1 (by decide)

end Hpps.WorkerId

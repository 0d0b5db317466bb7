import Hpps.Frame.Deletion
import Hpps.Frame.StoreLoad
import Hpps.Frame.Registration
import Hpps.Table.AsyncRead
import Hpps.Updater.Updater

/-! Checkpoints of an array table: the servers of a run store their shares of it and load them. -/
namespace Hpps.Table

open Hpps.Frame TransitionSystem Blocks

/-! ### Registration -/

/-- What a node knows when all have registered, in any order, and there are `n` servers. -/
def Registered (n : ℕ) (z : Zoo) : Prop :=
  ∃ (roles : List Role) (order : List ℕ) (c : RegisterController) (replies : List (List (Message (List ℤ)))),
    roles ≠ [] ∧ order.Perm (List.range roles.length) ∧
    RegisterController.run roles.length (.new roles.length) (order.map (Registration.msgOf roles)) = .ok (c, replies) ∧
    (∃ reply ∈ replies.flatten, Zoo.registerNode roles.length reply = .ok z) ∧ z.numServers = n

/-- `server_id_to_rank`. No node has a negative rank. -/
def serverRank (z : Zoo) (i : ℕ) : ℤ := z.serverIdToRank.getD i (-1 - i)

variable {n i j : ℕ} {z : Zoo}

theorem Registered.inverse (h : Registered n z) : z.serverIdToRank.length = n ∧
    ∃ size has, Registration.Inverse size has z.rankToServerId z.serverIdToRank := by
  obtain ⟨roles, order, c, replies, hroles, horder, hrun, ⟨reply, hreply, hz⟩, hn⟩ := h
  obtain rfl := Registration.eq_finalZoo horder hroles hrun hreply hz
  have hlen : (Registration.finalZoo roles order).numServers =
      (Registration.finalZoo roles order).serverIdToRank.length := by
    simp [Registration.finalZoo]
  exact ⟨by omega, _, _, Registration.inverse_servers horder⟩

/-- Each server id belongs to the node of one rank, which has this id. -/
theorem Registered.serverRank_eq (h : Registered n z) (hi : i < n) :
    ∃ r : ℕ, serverRank z i = r ∧ z.rankToServerId r = i := by
  obtain ⟨hlen, size, has, hinverse⟩ := h.inverse
  obtain ⟨r, -, -, hrank, hid⟩ := hinverse.idOf_rankOf i (by omega)
  refine ⟨r, ?_, hid⟩
  rw [serverRank, List.getD_eq_getElem?_getD, hrank, Option.getD_some]

theorem Registered.serverRank_of_le (h : Registered n z) (hi : n ≤ i) : serverRank z i = -1 - i := by
  rw [serverRank, List.getD_eq_getElem?_getD, List.getElem?_eq_none (h.inverse.1.trans_le hi), Option.getD_none]

theorem Registered.injective (h : Registered n z) : Function.Injective (serverRank z) := by
  intro i j heq
  rcases lt_or_ge i n with hi | hi
  · obtain ⟨r, hr, hid⟩ := h.serverRank_eq hi
    rcases lt_or_ge j n with hj | hj
    · obtain ⟨r', hr', hid'⟩ := h.serverRank_eq hj
      have hrr : r = r' := by omega
      subst hrr
      omega
    · have := h.serverRank_of_le hj
      omega
  · have := h.serverRank_of_le hi
    rcases lt_or_ge j n with hj | hj
    · obtain ⟨r', hr', hid'⟩ := h.serverRank_eq hj
      omega
    · have := h.serverRank_of_le hj
      omega

/-! ### File names -/

/-- The file of server `i`. -/
def fileOf (uri : String) (i : ℕ) : String := uri ++ "." ++ toString i

theorem toString_ne_dot (n : ℕ) : ∀ c ∈ (toString n).toList, c ≠ '.' := by
  intro c hc hdot
  have hdigit : c.isDigit := Nat.isDigit_of_mem_toDigits (b := 10) (n := n) (by omega) (by omega) (by simpa using hc)
  rw [hdot] at hdigit
  exact absurd hdigit (by decide)

/-- What follows the last dot is the id. -/
theorem fileOf_injective {uri uri' : String} (h : fileOf uri i = fileOf uri' j) : i = j := by
  have hlast : ∀ (uri : String) (i : ℕ), (fileOf uri i).toList.reverse.takeWhile (· ≠ '.') =
      (toString i).toList.reverse := by
    intro uri i
    have hdot : (".".toList) = ['.'] := rfl
    rw [fileOf, String.toList_append, String.toList_append, hdot, List.reverse_append, List.takeWhile_append_of_pos]
    · simp
    · intro c hc
      simpa using toString_ne_dot i c (List.mem_reverse.mp hc)
  have heq := hlast uri i
  rw [h, hlast uri' j, List.reverse_inj, String.toList_inj] at heq
  exact (Nat.repr_injective heq).symm

/-! ### Runs -/

/-- A server of an array table. Its updater is any that writes in place. -/
structure SolverServer (T : Type) where
  serverId : ℕ
  size : ℕ
  storage : List T
  deriving DecidableEq

namespace SolverServer

variable {T : Type} (s : SolverServer T)

def new (size numServers serverId : ℕ) (gen : ℕ → T) : SolverServer T :=
  let size := share size numServers serverId
  ⟨serverId, size, (List.range size).map gen⟩

/-- `written` is what the updater writes over the storage. -/
def processAdd (written : List T) : List (Blob T) → Except Stop (SolverServer T) :=
  serverProcessAdd s.size fun _ _ => (memcpy s.storage 0 written).map fun storage => { s with storage }

def processGet : List (Blob T) → Except Stop (List (Blob T)) := serverProcessGet s.serverId s.storage

def Store : List T := s.storage

/-- What the file has is read over the storage. -/
def Load (stream : List T) : SolverServer T :=
  { s with storage := Rows.overwrite s.storage 0 (stream.take s.storage.length) }

def handle (written : List T) : Message (Blob T) → Except Stop (SolverServer T × Option (List (Blob T))) :=
  serverHandle s.processGet (s.processAdd written) s

/-- Every solver is such an updater. -/
theorem processAdd_of_update [Field T] {numWorkers : ℕ} {sqrt : T → T} {u u' : Updater T} {vs storage : List T}
    {option : Hpps.AddOption T} {rest : List (Blob T)} (hlen : vs.length = s.size)
    (h : u.update numWorkers sqrt s.size s.storage vs option 0 = .ok (u', storage)) :
    s.processAdd storage (.key (-1) :: .values vs :: rest) = .ok { s with storage } := by
  have hcopy : memcpy s.storage 0 storage = .ok storage := by
    have hstorage := Updater.length_update h
    rw [memcpy_eq_ok_iff, Rows.overwrite, hstorage]
    simp
  rw [processAdd, serverProcessAdd, if_pos ⟨rfl, hlen⟩, hcopy]
  rfl

theorem processAdd_ok {s t : SolverServer T} {written : List T} {data : List (Blob T)}
    (h : s.processAdd written data = .ok t) :
    t.serverId = s.serverId ∧ t.size = s.size ∧ t.storage.length = s.storage.length := by
  obtain ⟨vs, rest, -, -, h⟩ := serverProcessAdd_ok h
  cases hcopy : memcpy s.storage 0 written with
  | error e =>
    rw [hcopy] at h
    cases h
  | ok storage =>
    rw [hcopy] at h
    cases h
    exact ⟨rfl, rfl, length_memcpy hcopy⟩

end SolverServer

/-- An array table in a run whose nodes have registered: `gen` is what the servers' random generators fill in,
`order w` the order in which worker `w` iterates a map over the servers. -/
structure ArrayJob (T : Type) (W n : ℕ) where
  size : ℕ
  gen : ℕ → T
  workerRank : Fin W → ℤ
  order : Fin W → List ℕ
  perm : ∀ w, (order w).Perm (List.range n)
  pos : 0 < n
  lt_size : n < size
  size_lt : size < 2 ^ 31
  zoo : Zoo
  registered : Registered n zoo

/-- The servers are given by their ranks. The files are the same for all nodes. The logs `saves` (who stored what
in which file) and `loads` are not read. -/
structure CheckpointCluster (T : Type) (W : ℕ) where
  workers : Fin W → GetState T
  servers : ℕ → SolverServer T
  files : String → Option (List T)
  saves : List (ℕ × String × List T)
  loads : List (ℕ × String)
  stop : Option Stop

/-- Worker `w` makes a call, a Get with the buffer to fill, or does something else by itself, or the server that
it is sent to handles the `k`-th message that worker `w` has on its way, and its updater writes `written`. -/
inductive CheckpointMove (T : Type) (W : ℕ)
  | get (w : Fin W) (buffer : ℕ)
  | add (w : Fin W) (data : List T) (option : Option (AddOption T))
  | store (w : Fin W) (uri : String)
  | load (w : Fin W) (uri : String)
  | work (w : Fin W) (m : WorkerMove (Blob T))
  | serve (w : Fin W) (k : ℕ) (written : List T)

namespace ArrayJob

abbrev types : List MsgType := [.Request_Get, .Request_Add, .Store_Model, .Load_Model]

variable {T : Type} {W n : ℕ} (J : ArrayJob T W n) (c : CheckpointCluster T W)

abbrev share (j : ℕ) : ℕ := Table.share J.size n j

abbrev offset (j : ℕ) : ℕ := Blocks.offset J.share j

/-- Worker `w` with its table. -/
def reader (w : Fin W) : GetSystem T n where
  size := J.size
  rank := J.workerRank w
  serverIdToRank := serverRank J.zoo
  injective := J.registered.injective
  order := J.order w
  perm := J.perm w
  pos := J.pos
  lt_size := J.lt_size
  size_lt := J.size_lt.trans (by norm_num)
  sliced := .inr J.size_lt

abbrev node (w : Fin W) : WorkerNode (Blob T) (Buffers T) := (J.reader w).node

/-- A server takes its id from its rank. -/
def init (memory : Fin W → ℕ → List T) (files : String → Option (List T)) : CheckpointCluster T W where
  workers w := Worker.init ⟨0, memory w⟩
  servers r := .new J.size n (J.zoo.rankToServerId r).toNat
    fun i => J.gen (J.offset (J.zoo.rankToServerId r).toNat + i)
  files := files
  saves := []
  loads := []
  stop := none

def workerStep (w : Fin W) (m : WorkerMove (Blob T)) : Option (CheckpointCluster T W) :=
  (Worker.step (J.node w) types (c.workers w) m).map fun s =>
    { c with workers := Function.update c.workers w s }

def processStoreModel (r : ℕ) : List (Blob T) → Except Stop (CheckpointCluster T W)
  | .uri file :: _ => .ok { c with
      files := Function.update c.files file (some (c.servers r).Store)
      saves := c.saves ++ [((c.servers r).serverId, file, (c.servers r).storage)] }
  | _ => .error .memory

/-- A file that does not exist is not opened, and reading it ends the process. -/
def processLoadModel (r : ℕ) : List (Blob T) → Except Stop (CheckpointCluster T W)
  | .uri file :: _ =>
    match c.files file with
    | some stream => .ok { c with
        servers := Function.update c.servers r ((c.servers r).Load stream)
        loads := c.loads ++ [((c.servers r).serverId, file)] }
    | none => .error .memory
  | _ => .error .memory

/-- The handler of the server of rank `r`, and the reply if there is one. -/
def handle (r : ℕ) (written : List T) (msg : Message (Blob T)) :
    Except Stop (CheckpointCluster T W × Option (List (Blob T))) :=
  if msg.type = .Store_Model then do
    let c ← processStoreModel c r msg.data
    return (c, some [])
  else if msg.type = .Load_Model then do
    let c ← processLoadModel c r msg.data
    return (c, some [])
  else do
    let (server, reply) ← (c.servers r).handle written msg
    return ({ c with servers := Function.update c.servers r server }, reply)

/-- GetAsync points `data_` to the buffer before it sends the request. A server may handle a message long after it
came, as the sync scheduler does with what it caches. -/
def step (a : CheckpointMove T W) : Option (CheckpointCluster T W) :=
  if c.stop.isSome then none
  else
    match a with
    | .get w buffer => (Worker.step (J.node w) types (c.workers w) (.issue ArrayWorker.getAsync)).map fun s =>
        { c with workers := Function.update c.workers w { s with data := { s.data with current := buffer } } }
    | .add w data option =>
      match (workerOf J.size n).addAsync data option with
      | .ok call => J.workerStep c w (.issue call)
      | .error e => some { c with
          workers := Function.update c.workers w { c.workers w with crash := some (.table e) } }
    | .store w uri => J.workerStep c w (.issue (.store (.uri uri)))
    | .load w uri => J.workerStep c w (.issue (.load (.uri uri)))
    | .work w m =>
      match m with
      | .issue _ | .serve _ _ => none
      | m => J.workerStep c w m
    | .serve w k written =>
      match (c.workers w).inFlight[k]? with
      | some msg =>
        match handle c msg.dst.toNat written msg with
        | .ok (c, some data) => J.workerStep c w (.serve k data)
        | .ok (_, none) => none
        | .error e => some { c with stop := some e }
      | none => none

variable {J c} {c' : CheckpointCluster T W} {a : CheckpointMove T W} {w : Fin W} {r : ℕ} {uri : String}
  {msg q : Message (Blob T)} {memory : Fin W → ℕ → List T} {files : String → Option (List T)} {table written : List T}

/-- What the handler of a message does. -/
inductive Handled (c : CheckpointCluster T W) (r : ℕ) (msg : Message (Blob T)) :
    CheckpointCluster T W → List (Blob T) → Prop
  | store {file : String} {rest : List (Blob T)} (htype : msg.type = .Store_Model)
      (hdata : msg.data = .uri file :: rest) :
      Handled c r msg { c with
        files := Function.update c.files file (some (c.servers r).storage)
        saves := c.saves ++ [((c.servers r).serverId, file, (c.servers r).storage)] } []
  | load {file : String} {rest : List (Blob T)} {stream : List T} (htype : msg.type = .Load_Model)
      (hdata : msg.data = .uri file :: rest) (hfile : c.files file = some stream) :
      Handled c r msg { c with
        servers := Function.update c.servers r ((c.servers r).Load stream)
        loads := c.loads ++ [((c.servers r).serverId, file)] } []
  | get (htype : msg.type = .Request_Get) :
      Handled c r msg c [.key (c.servers r).serverId, .values (c.servers r).storage]
  | add {server : SolverServer T} {written : List T} (htype : msg.type = .Request_Add)
      (hadd : (c.servers r).processAdd written msg.data = .ok server) :
      Handled c r msg { c with servers := Function.update c.servers r server } []

theorem handle_ok {data : List (Blob T)} (h : handle c r written msg = .ok (c', some data)) :
    Handled c r msg c' data := by
  unfold handle at h
  split at h
  · rename_i htype
    obtain ⟨c₁, hc, h⟩ := bind_eq_ok.mp h
    cases h
    unfold processStoreModel at hc
    split at hc
    · rename_i hdata
      cases hc
      exact .store htype hdata
    · cases hc
  · split at h
    · rename_i htype
      obtain ⟨c₁, hc, h⟩ := bind_eq_ok.mp h
      cases h
      unfold processLoadModel at hc
      split at hc
      · rename_i hdata
        split at hc
        · rename_i hfile
          cases hc
          exact .load htype hdata hfile
        · cases hc
      · cases hc
    · obtain ⟨⟨server, reply⟩, hh, h⟩ := bind_eq_ok.mp h
      cases h
      obtain ⟨hget, hreply, rfl⟩ | ⟨hadd, hserver, rfl⟩ := serverHandle_ok hh
      · rw [serverProcessGet_ok hreply, Function.update_eq_self]
        exact .get hget
      · exact .add hadd hserver

/-- The call that a move makes. -/
inductive Makes (J : ArrayJob T W n) : CheckpointMove T W → Call (Blob T) → Prop
  | add {w : Fin W} {data : List T} {option : Option (AddOption T)} (hlen : data.length = J.size) :
      Makes J (.add w data option) (.addAsync (.key (-1)) (.values data) (option.map .option))
  | store {w : Fin W} {uri : String} : Makes J (.store w uri) (.store (.uri uri))
  | load {w : Fin W} {uri : String} : Makes J (.load w uri) (.load (.uri uri))

/-- What each move can do. -/
inductive Outcome (J : ArrayJob T W n) (c : CheckpointCluster T W) : CheckpointMove T W → CheckpointCluster T W → Prop
  | get {w : Fin W} {buffer : ℕ} {s : GetState T}
      (hs : Worker.step (J.node w) types (c.workers w) (.issue ArrayWorker.getAsync) = some s) :
      Outcome J c (.get w buffer) { c with
        workers := Function.update c.workers w { s with data := { s.data with current := buffer } } }
  | call {a : CheckpointMove T W} {w : Fin W} {call : Call (Blob T)} {s : GetState T} (hmakes : Makes J a call)
      (hs : Worker.step (J.node w) types (c.workers w) (.issue call) = some s) :
      Outcome J c a { c with workers := Function.update c.workers w s }
  | work {w : Fin W} {m : WorkerMove (Blob T)} {s : GetState T}
      (hs : Worker.step (J.node w) types (c.workers w) m = some s) (hissue : ∀ call, m ≠ .issue call)
      (hserve : ∀ k data, m ≠ .serve k data) :
      Outcome J c (.work w m) { c with workers := Function.update c.workers w s }
  | check {w : Fin W} {data : List T} {option : Option (AddOption T)} {e : Stop} :
      Outcome J c (.add w data option) { c with
        workers := Function.update c.workers w { c.workers w with crash := some (.table e) } }
  | serve {w : Fin W} {k : ℕ} {written : List T} {msg : Message (Blob T)} {c₁ : CheckpointCluster T W}
      {data : List (Blob T)} {s : GetState T} (hk : (c.workers w).inFlight[k]? = some msg)
      (hh : Handled c msg.dst.toNat msg c₁ data)
      (hs : Worker.step (J.node w) types (c.workers w) (.serve k data) = some s) :
      Outcome J c (.serve w k written) { c₁ with workers := Function.update c.workers w s }
  | serveStop {w : Fin W} {k : ℕ} {written : List T} {e : Stop} :
      Outcome J c (.serve w k written) { c with stop := some e }

theorem Handled.workers_eq {c₁ : CheckpointCluster T W} {data : List (Blob T)} (h : Handled c r msg c₁ data) :
    c₁.workers = c.workers := by
  cases h <;> rfl

theorem step_outcome (hs : J.step c a = some c') : Outcome J c a c' := by
  unfold step at hs
  split at hs
  · cases hs
  · cases a with
    | get w buffer =>
      obtain ⟨s, hstep, rfl⟩ := Option.map_eq_some_iff.mp hs
      exact .get hstep
    | add w data option =>
      dsimp only at hs
      split at hs
      · rename_i call hcall
        unfold ArrayWorker.addAsync at hcall
        split at hcall
        · rename_i hlen
          cases hcall
          obtain ⟨s, hstep, rfl⟩ := Option.map_eq_some_iff.mp hs
          exact .call (.add hlen) hstep
        · cases hcall
      · cases hs
        exact .check
    | store w uri =>
      obtain ⟨s, hstep, rfl⟩ := Option.map_eq_some_iff.mp hs
      exact .call .store hstep
    | load w uri =>
      obtain ⟨s, hstep, rfl⟩ := Option.map_eq_some_iff.mp hs
      exact .call .load hstep
    | work w m =>
      cases m with
      | issue | serve => cases hs
      | wait | wake | finish | pop | act | deliver =>
        obtain ⟨s, hstep, rfl⟩ := Option.map_eq_some_iff.mp hs
        exact .work hstep (by simp) (by simp)
    | serve w k written =>
      dsimp only at hs
      split at hs
      · rename_i hk
        split at hs
        · rename_i hh
          obtain ⟨s, hstep, rfl⟩ := Option.map_eq_some_iff.mp hs
          have hhandled := handle_ok hh
          have hworkers := hhandled.workers_eq
          rw [hworkers] at hstep ⊢
          exact .serve hk hhandled hstep
        · cases hs
        · cases hs
          exact .serveStop
      · cases hs

/-! ### Invariant -/

/-- The calls of the clients, and the messages that the servers are sent. -/
structure IsCall (msg : Message (Blob T)) : Prop where
  type : msg.type ∈ types
  get : msg.type = .Request_Get → msg.data = [.key (-1)]
  model : msg.type = .Store_Model ∨ msg.type = .Load_Model → ∃ uri, msg.data = [.uri uri]

structure IsPart (J : ArrayJob T W n) (q : Message (Blob T)) : Prop where
  type : q.type ∈ types
  get : q.type = .Request_Get → ∃ j < n, q.dst = serverRank J.zoo j ∧ q.data = [.key (-1)]
  model : q.type = .Store_Model ∨ q.type = .Load_Model → ∃ j < n, q.dst = serverRank J.zoo j ∧
    ∃ uri, q.data = [.uri (fileOf uri j)]

theorem requests_get (htype : msg.type = .Request_Get) (hdata : msg.data = [.key (-1)]) :
    Worker.requests (J.node w) msg =
      (J.order w).map fun i => Worker.newMsg (J.node w) msg.type msg i [.key (-1)] := by
  have hp : (J.node w).table.Partition msg.data msg.type = .ok (n, (J.order w).map fun i => (i, [.key (-1)])) := by
    rw [hdata]
    rfl
  rw [Worker.requests_eq (.inl htype) (by simp [hdata]) hp, List.map_map]
  rfl

/-- Server `i` is asked for the file `uri.i`. -/
theorem requests_model (htype : msg.type = .Store_Model ∨ msg.type = .Load_Model) (hdata : msg.data = [.uri uri]) :
    Worker.requests (J.node w) msg =
      (List.range n).map fun i => Worker.newMsg (J.node w) msg.type msg i [.uri (fileOf uri i)] := by
  rw [Worker.requests, Worker.handle_checkpoint htype hdata]
  dsimp only
  rw [List.filterMap_map]
  exact congrFun List.filterMap_eq_map _

theorem isPart_of_call (h : IsCall msg) (hq : q ∈ Worker.requests (J.node w) msg) : J.IsPart q := by
  have htype : q.type = msg.type := Worker.type_of_requests hq
  refine ⟨htype ▸ h.type, fun hget => ?_, fun hmodel => ?_⟩
  · rw [htype] at hget
    rw [J.requests_get hget (h.get hget)] at hq
    obtain ⟨j, hj, rfl⟩ := List.mem_map.mp hq
    exact ⟨j, List.mem_range.mp ((J.perm w).mem_iff.mp hj), rfl, rfl⟩
  · rw [htype] at hmodel
    obtain ⟨uri, hdata⟩ := h.model hmodel
    rw [J.requests_model hmodel hdata] at hq
    obtain ⟨j, hj, rfl⟩ := List.mem_map.mp hq
    exact ⟨j, List.mem_range.mp hj, rfl, uri, rfl⟩

theorem isCall_of_makes {call : Call (Blob T)} (h : Makes J a call) (rank : ℤ) (id : ℕ) :
    IsCall (call.message rank id) := by
  cases h with
  | add hlen =>
    exact ⟨by simp [Call.message, Call.type], fun h => (by cases h), fun h => by rcases h with h | h <;> cases h⟩
  | @store w uri => exact ⟨by simp [Call.message, Call.type], fun h => (by cases h), fun _ => ⟨uri, rfl⟩⟩
  | @load w uri => exact ⟨by simp [Call.message, Call.type], fun h => (by cases h), fun _ => ⟨uri, rfl⟩⟩

theorem isCall_get (rank : ℤ) (id : ℕ) : IsCall ((ArrayWorker.getAsync : Call (Blob T)).message rank id) :=
  ⟨List.mem_cons_self, fun _ => rfl, fun h => by rcases h with h | h <;> cases h⟩

/-- The rank of server `j`. -/
def rankOf (J : ArrayJob T W n) (j : ℕ) : ℕ := (serverRank J.zoo j).toNat

theorem rankOf_eq {j : ℕ} (hj : j < n) : serverRank J.zoo j = J.rankOf j ∧ J.zoo.rankToServerId (J.rankOf j) = j := by
  obtain ⟨r, hr, hid⟩ := J.registered.serverRank_eq hj
  have hr' : J.rankOf j = r := by rw [rankOf, hr, Int.toNat_natCast]
  rw [hr']
  exact ⟨hr, hid⟩

/-- Server `j` with its share. -/
structure Owns (J : ArrayJob T W n) (j : ℕ) (server : SolverServer T) : Prop where
  serverId : server.serverId = j
  length : server.storage.length = J.share j

/-- Whatever a server does, each keeps its share. -/
theorem forall_server {P : ℕ → SolverServer T → Prop} {servers : ℕ → SolverServer T} {server : SolverServer T}
    (h : ∀ j < n, P j (servers (J.rankOf j))) (hs : ∀ j < n, J.rankOf j = r → P j (servers r) → P j server) :
    ∀ j < n, P j (Function.update servers r server (J.rankOf j)) := by
  intro j hj
  by_cases hr : J.rankOf j = r
  · rw [hr, Function.update_self]
    exact hs j hj hr (hr ▸ h j hj)
  · rw [Function.update_of_ne hr]
    exact h j hj

/-- A worker, the parts of its calls, and its buffers. -/
structure Sound (J : ArrayJob T W n) (w : Fin W) (s : GetState T) : Prop where
  covered : Worker.Covered (J.node w) s
  split : Worker.Split IsCall J.IsPart s
  replies : ∀ r ∈ s.replies, localForward r.type = .worker
  store : ∀ i r, .store r ∈ s.threads i → r.type = .Reply_Get
  buffer : ∀ b, (s.data.buffer b).length = J.size

variable {s t : GetState T} {m : WorkerMove (Blob T)}

/-- Replies are stored in one piece. -/
theorem length_buffer {d d' : Buffers T} {kv : List (Blob T)} (h : ∀ b, (d.buffer b).length = J.size)
    (hd : (J.node w).table.ProcessReplyGet d kv = .ok d') (b : ℕ) : (d'.buffer b).length = J.size := by
  obtain ⟨data, hdata, hd⟩ := bind_eq_ok.mp hd
  cases hd
  dsimp only
  rw [Function.update_apply]
  split
  · exact (length_processReplyGet hdata).trans (h _)
  · exact h b

theorem Sound.step (h : J.Sound w s) (hs : Worker.step (J.node w) types s m = some t)
    (hissue : ∀ call, m = .issue call → ∀ id, IsCall (call.message (J.workerRank w) id)) : J.Sound w t where
  covered := h.covered.step hs
  split := h.split.step (fun _ hmsg _ hq => isPart_of_call hmsg hq) hs hissue
  replies r hr := by
    rcases Worker.replies_of_step hs hr with hr | ⟨k, data, q, -, hk, rfl⟩
    · exact h.replies r hr
    · have htype := (h.split.inFlight q (List.mem_of_getElem? hk)).type
      simp only [types, List.mem_cons, List.not_mem_nil, or_false] at htype
      rcases htype with htype | htype | htype | htype <;> simp only [Message.createReplyMessage, htype] <;> rfl
  store i r hr := (Worker.store_of_step hs hr).elim (h.store i r) id
  buffer := by
    rcases Worker.stored_of_step hs with ⟨-, hdata⟩ | ⟨i, r, -, hd, -⟩
    · rw [hdata]
      exact h.buffer
    · exact length_buffer h.buffer hd

theorem Sound.aimed (h : J.Sound w s) (current : ℕ) : J.Sound w { s with data := { s.data with current } } :=
  ⟨h.covered.with_data _, { h.split with }, h.replies, h.store, h.buffer⟩

theorem Sound.crashed (h : J.Sound w s) (e : Option Crash) : J.Sound w { s with crash := e } :=
  ⟨h.covered.crashed e, { h.split with }, h.replies, h.store, h.buffer⟩

structure Inv (J : ArrayJob T W n) (files : String → Option (List T)) (c : CheckpointCluster T W) : Prop where
  worker : ∀ w, J.Sound w (c.workers w)
  server : ∀ j < n, J.Owns j (c.servers (J.rankOf j))
  saves : ∀ e ∈ c.saves, ∃ uri, e.2.1 = fileOf uri e.1
  files : ∀ file, c.files file = ((c.saves.filter fun e => e.2.1 = file).getLast?.map fun e => e.2.2).or (files file)

theorem inv_init (hb : ∀ w b, (memory w b).length = J.size) : J.Inv files (J.init memory files) where
  worker w := ⟨Worker.covered_init, Worker.split_init, fun _ h => (nomatch h), fun _ _ h => (nomatch h), hb w⟩
  server j hj := by
    refine ⟨?_, ?_⟩ <;> simp [init, SolverServer.new, (rankOf_eq (J := J) hj).2]
  saves _ h := nomatch h
  files _ := rfl

/-- What holds of every worker still does when worker `w` has moved. -/
theorem forall_worker {P : Fin W → GetState T → Prop} {workers : Fin W → GetState T} (h : ∀ v, P v (workers v))
    (hw : P w s) (v : Fin W) : P v (Function.update workers w s v) := by
  by_cases hv : v = w
  · subst hv
    rwa [Function.update_self]
  · rw [Function.update_of_ne hv]
    exact h v

theorem Inv.worked (h : J.Inv files c) (hs : J.Sound w s) :
    J.Inv files { c with workers := Function.update c.workers w s } :=
  { h with worker := forall_worker (P := J.Sound) h.worker hs }

theorem owns_load {j : ℕ} {server : SolverServer T} {stream : List T} (h : J.Owns j server) :
    J.Owns j (server.Load stream) := by
  refine ⟨h.serverId, ?_⟩
  rw [SolverServer.Load, Rows.length_overwrite]
  · exact h.length
  · simp

/-- The server of a checkpoint message is one of the table. -/
theorem server_of_model {file : String} {rest : List (Blob T)} (h : J.Inv files c) (hpart : J.IsPart msg)
    (htype : msg.type = .Store_Model ∨ msg.type = .Load_Model) (hdata : msg.data = .uri file :: rest) :
    ∃ j < n, msg.dst.toNat = J.rankOf j ∧ (c.servers (J.rankOf j)).serverId = j ∧ rest = [] ∧
      ∃ uri, file = fileOf uri j := by
  obtain ⟨j, hj, hdst, uri, hdata'⟩ := hpart.model htype
  rw [hdata] at hdata'
  cases hdata'
  exact ⟨j, hj, by rw [rankOf, hdst], (h.server j hj).serverId, rfl, uri, rfl⟩

theorem Inv.handled {c₁ : CheckpointCluster T W} {data : List (Blob T)} (h : J.Inv files c) (hpart : J.IsPart msg)
    (hh : Handled c msg.dst.toNat msg c₁ data) : J.Inv files c₁ := by
  cases hh with
  | @store file rest htype hdata =>
    obtain ⟨j, -, hr, hid, -, uri, rfl⟩ := server_of_model h hpart (.inl htype) hdata
    rw [hr, hid]
    refine { h with saves := fun e he => ?_, files := fun file => ?_ }
    · rcases List.mem_append.mp he with he | he
      · exact h.saves e he
      · rw [List.mem_singleton.mp he]
        exact ⟨uri, rfl⟩
    · by_cases hfile : file = fileOf uri j
      · subst hfile
        simp
      · have hfile' : ¬ fileOf uri j = file := fun heq => hfile heq.symm
        simp [Function.update_of_ne hfile, List.filter_append, hfile', h.files file]
  | load htype hdata hfile => exact { h with server := forall_server h.server fun _ _ _ => owns_load }
  | get => exact h
  | add htype hadd =>
    obtain ⟨hid, -, hlen⟩ := SolverServer.processAdd_ok hadd
    refine { h with server := forall_server h.server fun j _ _ hs => ?_ }
    exact ⟨hid.trans hs.serverId, hlen.trans hs.length⟩

theorem Inv.step (h : J.Inv files c) (hs : J.step c a = some c') : J.Inv files c' := by
  cases step_outcome hs with
  | @get w buffer s hw =>
    refine h.worked (((h.worker w).step hw ?_).aimed buffer)
    rintro _ ⟨⟩ id
    exact isCall_get _ id
  | @call a w call s hmakes hw =>
    refine h.worked ((h.worker w).step hw ?_)
    rintro _ ⟨⟩ id
    exact isCall_of_makes hmakes _ id
  | @work w m s hw hissue => exact h.worked ((h.worker w).step hw fun call hc => absurd hc (hissue call))
  | @check w data option e => exact h.worked ((h.worker w).crashed _)
  | @serve w k written msg c₁ data s hk hh hw =>
    have hpart := (h.worker w).split.inFlight msg (List.mem_of_getElem? hk)
    have hworkers := hh.workers_eq
    rw [← hworkers] at hw ⊢
    refine (h.handled hpart hh).worked (((h.handled hpart hh).worker w).step hw fun call hc => nomatch hc)
  | serveStop => exact { h with }

theorem Inv.exec {as : List (CheckpointMove T W)} (h : J.Inv files c) (hs : exec J.step c as = some c') :
    J.Inv files c' :=
  Reachable.invariant (P := J.Inv files) ⟨as, hs⟩ h fun _ _ _ hx hy => hx.step hy

/-- What the table was when it was stored: each server has written its share of it into its file. -/
def Saved (J : ArrayJob T W n) (c : CheckpointCluster T W) (uri : String) (table : List T) : Prop :=
  table.length = J.size ∧ ∀ j < n, ((c.saves.filter fun e => e.1 = j ∧ e.2.1 = fileOf uri j).getLast?.map
    fun e => e.2.2) = some (slice J.share table j)

/-- No other server has written this file. -/
theorem Inv.files_of_saved (h : J.Inv files c) (hsaved : J.Saved c uri table) {j : ℕ} (hj : j < n) :
    c.files (fileOf uri j) = some (slice J.share table j) := by
  have hfilter : (c.saves.filter fun e => e.2.1 = fileOf uri j) =
      c.saves.filter fun e => e.1 = j ∧ e.2.1 = fileOf uri j := by
    refine List.filter_congr fun e he => ?_
    obtain ⟨uri', hfile⟩ := h.saves e he
    rw [decide_eq_decide]
    constructor
    · intro heq
      exact ⟨fileOf_injective (hfile.symm.trans heq), heq⟩
    · exact And.right
  rw [h.files, hfilter, hsaved.2 j hj, Option.some_or]

end ArrayJob

end Hpps.Table

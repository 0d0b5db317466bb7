import Hpps.Frame.Message
import Hpps.Lib.Tally
import Hpps.Lib.TransitionSystem

/-! A worker node: the requests of its clients on a table, the waiters, and the threads of the
worker actor. -/
namespace Hpps.Frame

open TransitionSystem

abbrev kWorkerThreadNum : ℕ := 2

/-- A table as the worker actor uses it: `Partition` returns the number of servers to wait for and
the blobs for each of them, `ProcessReplyGet` stores a reply in the local data. -/
structure WorkerTable (β D : Type) where
  Partition : List β → MsgType → Except Stop (ℕ × List (ℕ × List β))
  ProcessReplyGet : D → List β → Except Stop D
  num_eq : ∀ {kv type num out}, Partition kv type = .ok (num, out) → num = out.length
  nodup : ∀ {kv type num out}, Partition kv type = .ok (num, out) → (out.map Prod.fst).Nodup

/-- The node, its table, and the name `file + "." + to_string(i)` of a checkpoint. -/
structure WorkerNode (β D : Type) where
  rank : ℤ
  numServers : ℕ
  serverIdToRank : ℕ → ℤ
  injective : Function.Injective serverIdToRank
  table : WorkerTable β D
  modelFile : β → ℕ → β

/-- What a client asks of a table. -/
inductive Call (β : Type)
  | getAsync (keys : β) (option : Option β)
  | addAsync (keys values : β) (option : Option β)
  | store (uri : β)
  | load (uri : β)

namespace Call

variable {β : Type}

def type : Call β → MsgType
  | getAsync _ _ => .Request_Get
  | addAsync _ _ _ => .Request_Add
  | store _ => .Store_Model
  | load _ => .Load_Model

def data : Call β → List β
  | getAsync keys option => keys :: option.toList
  | addAsync keys values option => keys :: values :: option.toList
  | store uri => [uri]
  | load uri => [uri]

/-- The message that is put into the mailbox of the worker actor. -/
def message (rank : ℤ) (id : ℕ) (c : Call β) : Message β where
  src := rank
  dst := 0
  type := c.type
  msgId := id
  data := c.data

end Call

/-- What a thread of the worker actor does in one piece while it handles a message. -/
inductive Act (β : Type)
  | reset (id num : ℕ)
  | push (msg : Message β)
  | store (msg : Message β)
  | notify (msg : Message β)

namespace Worker

variable {β D : Type} (node : WorkerNode β D)

/-- The message to one server. -/
def newMsg (type : MsgType) (msg : Message β) (server : ℕ) (data : List β) : Message β where
  src := node.rank
  dst := node.serverIdToRank server
  type := type
  msgId := msg.msgId
  tableId := msg.tableId
  data := data

def processRequest (type : MsgType) (msg : Message β) : Except Stop (List (Act β)) := do
  let (num, out) ← node.table.Partition msg.data type
  return .reset msg.msgId num :: out.map fun it => .push (newMsg node type msg it.1 it.2)

def processGet : Message β → Except Stop (List (Act β)) := processRequest node .Request_Get

def processAdd (msg : Message β) : Except Stop (List (Act β)) :=
  if msg.data.isEmpty then .error .check else processRequest node .Request_Add msg

def processModel (type : MsgType) (msg : Message β) : Except Stop (List (Act β)) :=
  match msg.data with
  | [] => .error .memory
  | file :: _ => .ok ((List.range node.numServers).map fun i =>
      .push (newMsg node type msg i [node.modelFile file i]))

def processLoadModel : Message β → Except Stop (List (Act β)) := processModel node .Load_Model

def processStoreModel : Message β → Except Stop (List (Act β)) := processModel node .Store_Model

def processReplyGet (msg : Message β) : List (Act β) := [.store msg, .notify msg]

def processReplyAdd (msg : Message β) : List (Act β) := [.notify msg]

def processReplyLoadModel (msg : Message β) : List (Act β) := [.notify msg]

def processReplyStoreModel (msg : Message β) : List (Act β) := [.notify msg]

/-- The handler that is registered for the type of the message. -/
def handle (msg : Message β) : Except Stop (List (Act β)) :=
  if msg.type = .Request_Get then processGet node msg
  else if msg.type = .Request_Add then processAdd node msg
  else if msg.type = .Reply_Get then .ok (processReplyGet msg)
  else if msg.type = .Reply_Add then .ok (processReplyAdd msg)
  else if msg.type = .Load_Model then processLoadModel node msg
  else if msg.type = .Store_Model then processStoreModel node msg
  else if msg.type = .Reply_Load_Model then .ok (processReplyLoadModel msg)
  else if msg.type = .Reply_Store_Model then .ok (processReplyStoreModel msg)
  else .error .fatal

end Worker

/-- Where the client is in `Wait(id)`. -/
inductive Phase
  | idle
  | blocked
  | woken
  | returned
  deriving DecidableEq, Repr

/-- A null waiter, or what ends the process in the table. -/
inductive Crash
  | waiter
  | table (e : Stop)
  deriving DecidableEq, Repr

/-- `waitings` has an entry for each of the `calls`, so that its length is `msg_id_`. The logs `sent`,
`replied` and `stored` are not read. -/
structure WorkerState (β D : Type) where
  calls : List (Message β)
  waitings : List (Option ℤ)
  phases : ℕ → Phase
  mailbox : List (Message β)
  threads : Fin kWorkerThreadNum → List (Act β)
  sent : List (Message β)
  inFlight : List (Message β)
  replied : List (Message β × Message β)
  replies : List (Message β)
  stored : List (Message β)
  data : D
  crash : Option Crash

/-- A client issues a request, or passes the CHECK, the condition and the end of Wait; a thread pops a
message or does its next act; a server answers the `k`-th request on its way; the `k`-th reply reaches
the worker actor. -/
inductive WorkerMove (β : Type)
  | issue (c : Call β)
  | wait (id : ℕ)
  | wake (id : ℕ)
  | finish (id : ℕ)
  | pop (t : Fin kWorkerThreadNum)
  | act (t : Fin kWorkerThreadNum)
  | serve (k : ℕ) (data : List β)
  | deliver (k : ℕ)

namespace Worker

variable {β D : Type} (node : WorkerNode β D) (types : List MsgType) (s : WorkerState β D)

def init (d : D) : WorkerState β D :=
  ⟨[], [], fun _ => .idle, [], fun _ => [], [], [], [], [], [], d, none⟩

/-- Sets or counts down a waiter, hands a message to the communicator, or stores a reply. -/
def perform : Act β → Except Crash (WorkerState β D)
  | .reset id num =>
    match s.waitings[id]? with
    | some (some _) => .ok { s with waitings := s.waitings.set id (some (num : ℤ)) }
    | _ => .error .waiter
  | .push msg => .ok { s with sent := s.sent ++ [msg], inFlight := s.inFlight ++ [msg] }
  | .store msg =>
    match node.table.ProcessReplyGet s.data msg.data with
    | .ok d => .ok { s with data := d, stored := s.stored ++ [msg] }
    | .error e => .error (.table e)
  | .notify msg =>
    match s.waitings[msg.msgId]? with
    | some (some num) => .ok { s with waitings := s.waitings.set msg.msgId (some (num - 1)) }
    | _ => .error .waiter

/-- The clients issue requests of the given types. Nothing moves after a crash. -/
def step (a : WorkerMove β) : Option (WorkerState β D) :=
  if s.crash.isSome then none
  else
    match a with
    | .issue c =>
      if c.type ∈ types then
        let msg := c.message node.rank s.waitings.length
        some { s with
          calls := s.calls ++ [msg]
          waitings := s.waitings ++ [some 1]
          mailbox := s.mailbox ++ [msg] }
      else none
    | .wait id =>
      match s.phases id, s.waitings[id]? with
      | .idle, some (some _) => some { s with phases := Function.update s.phases id .blocked }
      | .idle, some none => some { s with crash := some .waiter }
      | _, _ => none
    | .wake id =>
      match s.phases id, s.waitings[id]? with
      | .blocked, some (some num) =>
        if num ≤ 0 then some { s with phases := Function.update s.phases id .woken } else none
      | _, _ => none
    | .finish id =>
      if s.phases id = .woken then
        some { s with
          waitings := s.waitings.set id none
          phases := Function.update s.phases id .returned }
      else none
    | .pop t =>
      match s.threads t, s.mailbox with
      | [], msg :: mailbox =>
        match handle node msg with
        | .ok acts => some { s with
            mailbox := mailbox
            threads := Function.update s.threads t acts }
        | .error e => some { s with crash := some (.table e) }
      | _, _ => none
    | .act t =>
      match s.threads t with
      | [] => none
      | a :: acts =>
        match perform node s a with
        | .ok s => some { s with threads := Function.update s.threads t acts }
        | .error e => some { s with crash := some e }
    | .serve k data =>
      match s.inFlight[k]? with
      | some msg =>
        let reply := { msg.createReplyMessage with data := data }
        some { s with
          inFlight := s.inFlight.eraseIdx k
          replied := s.replied ++ [(msg, reply)]
          replies := s.replies ++ [reply] }
      | none => none
    | .deliver k =>
      match s.replies[k]? with
      | some msg =>
        if localForward msg.type = .worker then
          some { s with
            mailbox := s.mailbox ++ [msg]
            replies := s.replies.eraseIdx k }
        else none
      | none => none

variable {node types s} {t : WorkerState β D} {a : WorkerMove β}

/-- What each move can do. -/
inductive Outcome (node : WorkerNode β D) (types : List MsgType) (s : WorkerState β D) :
    WorkerMove β → WorkerState β D → Prop
  | issue {c : Call β} (hc : c.type ∈ types) : Outcome node types s (.issue c)
      { s with
        calls := s.calls ++ [c.message node.rank s.waitings.length]
        waitings := s.waitings ++ [some 1]
        mailbox := s.mailbox ++ [c.message node.rank s.waitings.length] }
  | wait {id : ℕ} {num : ℤ} (hp : s.phases id = .idle) (hw : s.waitings[id]? = some (some num)) :
      Outcome node types s (.wait id) { s with phases := Function.update s.phases id .blocked }
  | waitNull {id : ℕ} (hp : s.phases id = .idle) (hw : s.waitings[id]? = some none) :
      Outcome node types s (.wait id) { s with crash := some .waiter }
  | wake {id : ℕ} {num : ℤ} (hp : s.phases id = .blocked) (hw : s.waitings[id]? = some (some num))
      (hn : num ≤ 0) :
      Outcome node types s (.wake id) { s with phases := Function.update s.phases id .woken }
  | finish {id : ℕ} (hp : s.phases id = .woken) : Outcome node types s (.finish id)
      { s with
        waitings := s.waitings.set id none
        phases := Function.update s.phases id .returned }
  | pop {i : Fin kWorkerThreadNum} {msg : Message β} {mailbox : List (Message β)} {acts : List (Act β)}
      (hi : s.threads i = []) (hm : s.mailbox = msg :: mailbox) (ha : handle node msg = .ok acts) :
      Outcome node types s (.pop i)
        { s with mailbox := mailbox, threads := Function.update s.threads i acts }
  | popStop {i : Fin kWorkerThreadNum} {e : Stop} :
      Outcome node types s (.pop i) { s with crash := some (.table e) }
  | act {i : Fin kWorkerThreadNum} {x : Act β} {acts : List (Act β)} {r : WorkerState β D}
      (hi : s.threads i = x :: acts) (hr : perform node s x = .ok r) : Outcome node types s (.act i)
      { r with threads := Function.update r.threads i acts }
  | actStop {i : Fin kWorkerThreadNum} {x : Act β} {acts : List (Act β)} {e : Crash}
      (hi : s.threads i = x :: acts) (hr : perform node s x = .error e) :
      Outcome node types s (.act i) { s with crash := some e }
  | serve {k : ℕ} {msg : Message β} {data : List β} (hk : s.inFlight[k]? = some msg) :
      Outcome node types s (.serve k data)
      { s with
        inFlight := s.inFlight.eraseIdx k
        replied := s.replied ++ [(msg, { msg.createReplyMessage with data := data })]
        replies := s.replies ++ [{ msg.createReplyMessage with data := data }] }
  | deliver {k : ℕ} {msg : Message β} (hk : s.replies[k]? = some msg) : Outcome node types s (.deliver k)
      { s with mailbox := s.mailbox ++ [msg], replies := s.replies.eraseIdx k }

theorem step_outcome (hs : step node types s a = some t) :
    s.crash = none ∧ Outcome node types s a t := by
  unfold step at hs
  split at hs
  · cases hs
  · rename_i hc
    refine ⟨by simpa using hc, ?_⟩
    cases a with
    | issue c =>
      dsimp only at hs
      split at hs
      · rename_i htype
        cases hs
        exact .issue htype
      · cases hs
    | wait id =>
      dsimp only at hs
      split at hs
      · rename_i hp hw
        cases hs
        exact .wait hp hw
      · rename_i hp hw
        cases hs
        exact .waitNull hp hw
      · cases hs
    | wake id =>
      dsimp only at hs
      split at hs
      · rename_i hp hw
        split at hs
        · rename_i hn
          cases hs
          exact .wake hp hw hn
        · cases hs
      · cases hs
    | finish id =>
      dsimp only at hs
      split at hs
      · rename_i hp
        cases hs
        exact .finish hp
      · cases hs
    | pop i =>
      dsimp only at hs
      split at hs
      · rename_i hi hm
        split at hs
        · rename_i ha
          cases hs
          exact .pop hi hm ha
        · cases hs
          exact .popStop
      · cases hs
    | act i =>
      dsimp only at hs
      split at hs
      · cases hs
      · rename_i hi
        split at hs
        · rename_i hr
          cases hs
          exact .act hi hr
        · rename_i hr
          cases hs
          exact .actStop hi hr
    | serve k data =>
      dsimp only at hs
      split at hs
      · rename_i hk
        cases hs
        exact .serve hk
      · cases hs
    | deliver k =>
      dsimp only at hs
      split at hs
      · rename_i hk
        split at hs
        · cases hs
          exact .deliver hk
        · cases hs
      · cases hs

end Worker
end Hpps.Frame

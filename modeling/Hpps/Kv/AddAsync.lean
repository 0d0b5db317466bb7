import Hpps.Frame.Waiting
import Hpps.Kv.KVServerTable
import Hpps.Kv.KVWorkerTable

/-! An Add to a key-value table from the call of a client to the blobs that a server unpacks. -/
namespace Hpps.Kv

open Hpps.Frame TransitionSystem Rows

variable {ρ Val : Type}

/-- A node that uses a key-value table. -/
def kvNode (valueLen numServers : ℕ) (g : Garbage Val) (rank : ℤ) (serverIdToRank : ℕ → ℤ)
    (injective : Function.Injective serverIdToRank) (modelFile : KVBlob Val → ℕ → KVBlob Val) :
    WorkerNode (KVBlob Val) (KVStore Val) where
  rank := rank
  numServers := numServers
  serverIdToRank := serverIdToRank
  injective := injective
  table := kvWorkerTable numServers valueLen g
  modelFile := modelFile

namespace KVWorkerTable

/-- A null option adds no blob. -/
def AddAsync (valueLen : ℕ) (keys : List ℕ) (vals : List Val) (option : Option (AddOption Val)) :
    Except Stop (Call (KVBlob Val)) :=
  if keys.length * valueLen = vals.length then .ok (.addAsync (.keys keys) (.vals vals) (option.map .option))
  else .error .check

end KVWorkerTable

namespace KVServerTable

/-- The blobs that `ProcessAdd` accepts. -/
def unpackAdd : List (KVBlob Val) → Except Stop (KVAdd Val)
  | [.keys keys, .vals vals] => .ok ⟨keys, vals, none⟩
  | [.keys keys, .vals vals, .option option] => .ok ⟨keys, vals, some option⟩
  | _ => .error .check

def ProcessAdd [Field Val] (P : KVProcess ρ Val) (st : KVServerTable ρ Val) (data : List (KVBlob Val)) :
    Except Stop (KVServerTable ρ Val) := do
  let a ← unpackAdd data
  processAdd P st a

end KVServerTable

/-- The keys and rows of an Add that belong to a server, with the option of the caller. -/
def addFor (numServers valueLen : ℕ) (keys : List ℕ) (vals : List Val) (option : Option (AddOption Val)) (dst : ℕ) :
    KVAdd Val where
  keys := (Partition.owned numServers keys dst).map Prod.fst
  vals := (Partition.owned numServers keys dst).flatMap fun p => row valueLen vals p.2
  option := option

/-- The worker actor handles the message of the Add, and sends each server that owns a key what is meant
for it. -/
def Honoured (node : WorkerNode (KVBlob Val) (KVStore Val)) (valueLen : ℕ) (keys : List ℕ) (vals : List Val)
    (option : Option (AddOption Val)) : Prop :=
  ∃ call, KVWorkerTable.AddAsync valueLen keys vals option = .ok call ∧
    ∀ id, ∃ acts, Worker.handle node (call.message node.rank id) = .ok acts ∧
      ∀ dst < node.numServers, Partition.owned node.numServers keys dst ≠ [] →
        ∃ q, .push q ∈ acts ∧ q.dst = node.serverIdToRank dst ∧
          KVServerTable.unpackAdd q.data = .ok (addFor node.numServers valueLen keys vals option dst)

variable {valueLen numServers : ℕ} {g : Garbage Val} {rank : ℤ} {serverIdToRank : ℕ → ℤ}
  {injective : Function.Injective serverIdToRank} {modelFile : KVBlob Val → ℕ → KVBlob Val} {keys : List ℕ}
  {vals : List Val} {id : ℕ}

theorem handle_add {node : WorkerNode (KVBlob Val) (KVStore Val)} {ks vs : KVBlob Val} {o : Option (KVBlob Val)} :
    Worker.handle node ((Call.addAsync ks vs o).message node.rank id) =
      Worker.processRequest node .Request_Add ((Call.addAsync ks vs o).message node.rank id) := by
  simp [Worker.handle, Call.message, Call.type, Call.data, Worker.processAdd, MsgType.Request_Add,
    MsgType.Request_Get]

/-- A third blob fails the CHECK of `Partition`. -/
theorem handle_add_option (o : AddOption Val) :
    Worker.handle (kvNode valueLen numServers g rank serverIdToRank injective modelFile)
      ((Call.addAsync (.keys keys) (.vals vals) (some (.option o))).message rank id) = .error .check := by
  apply handle_add.trans
  rfl

/-- Without an option each server gets its keys and rows. -/
theorem honoured_none (hlen : keys.length * valueLen = vals.length)
    (ha : Partition.Addressable valueLen keys true) :
    Honoured (kvNode valueLen numServers g rank serverIdToRank injective modelFile) valueLen keys vals none := by
  refine ⟨.addAsync (.keys keys) (.vals vals) none, if_pos hlen, fun id => ?_⟩
  have hshare : ∀ v, some vals = some v → v.length = keys.length * valueLen := by
    rintro v ⟨⟩
    exact hlen.symm
  have hpart : KVWorkerTable.Partition numServers valueLen g [.keys keys, .vals vals] =
      .ok ((List.range numServers).countP fun dst => Partition.owned numServers keys dst ≠ [],
        (List.range numServers).filterMap fun dst =>
          (Partition.share numServers valueLen keys (some vals) dst).map fun b => (dst, KVWorkerTable.blobs b)) := by
    rw [KVWorkerTable.Partition, KVWorkerTable.partitionKeys, Partition.partition_eq_share hshare ha]
    rfl
  refine ⟨_, handle_add.trans (congrArg (· >>= _) hpart), fun dst hdst hne => ?_⟩
  let b : Blobs Val := ⟨(addFor numServers valueLen keys vals none dst).keys,
    some (addFor numServers valueLen keys vals none dst).vals⟩
  let node := kvNode valueLen numServers g rank serverIdToRank injective modelFile
  let msg := (Call.addAsync (KVBlob.keys keys) (.vals vals) none).message rank id
  refine ⟨Worker.newMsg node .Request_Add msg dst (KVWorkerTable.blobs b), List.mem_cons_of_mem _ ?_, rfl, rfl⟩
  apply List.mem_map.mpr
  refine ⟨(dst, KVWorkerTable.blobs b), List.mem_filterMap.mpr ⟨dst, List.mem_range.mpr hdst, ?_⟩, rfl⟩
  exact congrArg (Option.map _) (if_neg hne)

/-- No Add with an option gets past the worker actor. -/
theorem option_never_honoured (valueLen numServers : ℕ) (g : Garbage Val) (rank : ℤ) (serverIdToRank : ℕ → ℤ)
    (injective : Function.Injective serverIdToRank) (modelFile : KVBlob Val → ℕ → KVBlob Val) (keys : List ℕ)
    (vals : List Val) (o : AddOption Val) :
    ¬ Honoured (kvNode valueLen numServers g rank serverIdToRank injective modelFile) valueLen keys vals
      (some o) := by
  rintro ⟨call, hcall, hall⟩
  obtain ⟨acts, hacts, -⟩ := hall 0
  unfold KVWorkerTable.AddAsync at hcall
  split at hcall
  · cases hcall
    rw [show rank = (kvNode valueLen numServers g rank serverIdToRank injective modelFile).rank from rfl] at hacts
    have := hacts.symm.trans (handle_add_option o)
    cases this
  · cases hcall

/-- Two keys on two servers. -/
theorem option_never_honoured_two : ¬ Honoured (kvNode 1 2 ⟨fun _ => 0, fun _ => (0 : ℚ)⟩ 0 (fun i => i)
    Nat.cast_injective fun b _ => b) 1 [5, 6] [7, 8] (some (.new 0)) :=
  option_never_honoured 1 2 _ 0 _ Nat.cast_injective _ [5, 6] [7, 8] (.new 0)

/-- One key on one server. -/
theorem option_not_honoured_one : ¬ Honoured (kvNode 1 1 ⟨fun _ => 0, fun _ => (0 : ℚ)⟩ 0 (fun i => i)
    Nat.cast_injective fun b _ => b) 1 [5] [7] (some (.new 0)) := by
  rintro ⟨call, hcall, hall⟩
  cases hcall
  obtain ⟨acts, hacts, -⟩ := hall 0
  cases hacts

variable {types : List MsgType} {d : KVStore Val} {s : WorkerState (KVBlob Val) (KVStore Val)}

/-- In a run the Add stays where it is: no part of it is sent, and no Wait for it returns. -/
theorem add_option_stays {ks vs o : KVBlob Val} {msg : Message (KVBlob Val)}
    (h : Reachable (Worker.step (kvNode valueLen numServers g rank serverIdToRank injective modelFile)
      [.Request_Get, .Request_Add]) (Worker.init d) s) (hmsg : msg ∈ s.calls) (htype : msg.type = .Request_Add)
    (hdata : msg.data = [ks, vs, o]) :
    msg ∈ s.mailbox ∧ Worker.unsent s msg.msgId = 0 ∧ Worker.away s msg.msgId = 0 ∧
      s.phases msg.msgId ≠ .returned := by
  obtain ⟨⟨popped, hinv⟩, -⟩ := Worker.reachable_inv (by simp +contextual) h
  have hstop : ∀ acts, Worker.handle (kvNode valueLen numServers g rank serverIdToRank injective modelFile) msg ≠
      .ok acts := by
    intro acts hacts
    simp [Worker.handle, htype, Worker.processAdd, hdata, Worker.processRequest, kvNode, kvWorkerTable,
      KVWorkerTable.Partition, MsgType.Request_Add, MsgType.Request_Get] at hacts
  have hmem : msg ∈ s.mailbox := by
    rw [hinv.calls] at hmsg
    rcases List.mem_append.mp hmsg with hpop | hbox
    · obtain ⟨acts, hacts⟩ := hinv.handled msg hpop
      exact absurd hacts (hstop acts)
    · exact List.mem_of_mem_filter hbox
  have hpos : 0 < msg.type := by
    rw [htype]
    decide
  obtain ⟨hunsent, haway⟩ := hinv.ordered.asked msg hmem hpos
  refine ⟨hmem, hunsent, haway, fun hret => ?_⟩
  have hpending := (hinv.counted.done msg.msgId (.inr hret)).1
  have hasks : 0 < s.mailbox.countP (Message.asks msg.msgId) :=
    List.countP_pos_iff.mpr ⟨msg, hmem, (Worker.asks_eq hpos).1.mpr rfl⟩
  rw [Worker.pending] at hpending
  omega

end Hpps.Kv

import Hpps.Frame.Worker
import Hpps.Kv.KVTable
import Hpps.Updater.Updater

/-! The key-value table as a table of the worker actor. -/
namespace Hpps.Kv

inductive KVBlob (Val : Type)
  | keys (ks : List ℕ)
  | vals (vs : List Val)
  | option (option : AddOption Val)

namespace KVWorkerTable

variable {Val : Type} {numServers valueLen num : ℕ} {g : Garbage Val} {ks : List ℕ}
  {vs : Option (List Val)} {kv : List (KVBlob Val)} {out : List (ℕ × List (KVBlob Val))}

/-- The blobs of one message as `out` holds them. -/
def blobs (b : Blobs Val) : List (KVBlob Val) := .keys b.keys :: b.vals.toList.map .vals

def partitionKeys (numServers valueLen : ℕ) (g : Garbage Val) (ks : List ℕ) (vs : Option (List Val)) :
    Except Stop (ℕ × List (ℕ × List (KVBlob Val))) := do
  let (num, out) ← Partition.partition numServers valueLen g ks vs
  return (num, (List.range numServers).filterMap fun dst => (out dst).map fun b => (dst, blobs b))

def Partition (numServers valueLen : ℕ) (g : Garbage Val) :
    List (KVBlob Val) → Except Stop (ℕ × List (ℕ × List (KVBlob Val)))
  | [.keys ks] => partitionKeys numServers valueLen g ks none
  | [.keys ks, .vals vs] => partitionKeys numServers valueLen g ks (some vs)
  | _ => .error .check

def ProcessReplyGet (store : KVStore Val) : List (KVBlob Val) → Except Stop (KVStore Val)
  | [.keys ks, .vals vs] => Kv.WorkerTable.processReplyGet store ks vs
  | _ => .error .check

theorem partitionKeys_spec (h : partitionKeys numServers valueLen g ks vs = .ok (num, out)) :
    num = out.length ∧ (out.map Prod.fst).Nodup := by
  obtain ⟨⟨n, outs⟩, hp, h⟩ := bind_eq_ok.mp h
  cases h
  obtain ⟨-, -, hnum, -⟩ := Partition.partition_eq_ok hp
  constructor
  · rw [hnum, List.length_filterMap_eq_countP]
    congr 1
    funext dst
    simp
  · have hfst : ((List.range numServers).filterMap fun dst => (outs dst).map fun b => (dst, blobs b)).map
        Prod.fst = (List.range numServers).filter fun dst => (outs dst).isSome := by
      rw [List.map_filterMap, ← List.filterMap_eq_filter]
      congr 1
      funext dst
      cases h : outs dst <;> simp [Option.guard, h]
    rw [hfst]
    exact List.nodup_range.filter _

theorem partition_spec (h : Partition numServers valueLen g kv = .ok (num, out)) :
    num = out.length ∧ (out.map Prod.fst).Nodup := by
  unfold Partition at h
  split at h
  · exact partitionKeys_spec h
  · exact partitionKeys_spec h
  · cases h

end KVWorkerTable

/-- The local data is the store that the replies are written to. -/
def kvWorkerTable {Val : Type} (numServers valueLen : ℕ) (g : Garbage Val) :
    Frame.WorkerTable (KVBlob Val) (KVStore Val) where
  Partition kv _ := KVWorkerTable.Partition numServers valueLen g kv
  ProcessReplyGet := KVWorkerTable.ProcessReplyGet
  num_eq h := (KVWorkerTable.partition_spec h).1
  nodup h := (KVWorkerTable.partition_spec h).2

end Hpps.Kv

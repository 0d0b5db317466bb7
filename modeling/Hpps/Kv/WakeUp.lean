import Hpps.Frame.Waiter
import Hpps.Kv.AddAsync

/-! Whether a client that waits for a key-value table is woken up. -/
namespace Hpps.Kv

open Hpps.Frame TransitionSystem

variable {Val : Type} {numServers valueLen num : ℕ} {g : Garbage Val} {ks : List ℕ} {vs : Option (List Val)}
  {kv : List (KVBlob Val)} {out : List (ℕ × List (KVBlob Val))}

namespace Partition

theorem isSome_put {vals : Option (List Val)} {st : State Val} {p : ℕ × ℕ} {dst : ℕ} :
    ((put numServers valueLen vals st p).out dst).isSome = (st.out dst).isSome := by
  unfold put
  by_cases h : dst = p.1 % numServers
  · subst h
    simp
  · simp [Function.update_of_ne h]

theorem isSome_foldl_put {vals : Option (List Val)} {dst : ℕ} (ps : List (ℕ × ℕ)) (st : State Val) :
    ((ps.foldl (put numServers valueLen vals) st).out dst).isSome = (st.out dst).isSome := by
  induction ps generalizing st with
  | nil => rfl
  | cons p ps ih => rw [List.foldl_cons, ih, isSome_put]

/-- The servers that a request addresses are those that own one of its keys. -/
theorem partition_isSome {outs : ℕ → Option (Blobs Val)}
    (h : partition numServers valueLen g ks vs = .ok (num, outs)) :
    num = (List.range numServers).countP (fun dst => (outs dst).isSome) ∧
      ∀ dst, (outs dst).isSome = true ↔ ∃ k ∈ ks, k % numServers = dst := by
  obtain ⟨-, -, hnum, rfl⟩ := partition_eq_ok h
  refine ⟨hnum, fun dst => ?_⟩
  have hpos : counted numServers ks dst ≠ 0 ↔ ∃ k ∈ ks, k % numServers = dst := by
    rw [counted, ← Nat.pos_iff_ne_zero, List.countP_pos_iff]
    simp
  rw [← hpos, filled, isSome_foldl_put, started]
  dsimp only
  split
  · rename_i h0
    simp [h0]
  · rename_i h0
    simpa using h0

end Partition

namespace KVWorkerTable

theorem partitionKeys_eq_zero (hn : 0 < numServers)
    (h : partitionKeys numServers valueLen g ks vs = .ok (num, out)) : num = 0 ↔ ks = [] := by
  obtain ⟨⟨n, outs⟩, hp, h⟩ := bind_eq_ok.mp h
  cases h
  obtain ⟨rfl, hsome⟩ := Partition.partition_isSome hp
  rw [List.countP_eq_zero]
  constructor
  · intro hnone
    by_contra hne
    obtain ⟨k, hk⟩ := List.exists_mem_of_ne_nil ks hne
    exact hnone (k % numServers) (List.mem_range.mpr (Nat.mod_lt k hn)) ((hsome _).mpr ⟨k, hk, rfl⟩)
  · rintro rfl dst - hdst
    obtain ⟨k, hk, -⟩ := (hsome dst).mp hdst
    cases hk

end KVWorkerTable

/-- The request has an empty list of keys. -/
def Keyless (msg : Message (KVBlob Val)) : Prop := msg.data.head? = some (.keys [])

theorem keyless_iff (hn : 0 < numServers) {msg : Message (KVBlob Val)}
    (h : KVWorkerTable.Partition numServers valueLen g msg.data = .ok (num, out)) : Keyless msg ↔ num = 0 := by
  unfold KVWorkerTable.Partition at h
  split at h
  · rename_i ks hdata
    simp [Keyless, hdata, KVWorkerTable.partitionKeys_eq_zero hn h]
  · rename_i ks vs hdata
    simp [Keyless, hdata, KVWorkerTable.partitionKeys_eq_zero hn h]
  · cases h

/-- A client that sleeps in Wait is woken up in every run in which no Reset is for a request without keys whose
client sleeps already, and in no other run. -/
theorem wake_up_iff (hn : 0 < numServers) (valueLen : ℕ) (g : Garbage Val) (rank : ℤ) (serverIdToRank : ℕ → ℤ)
    (injective : Function.Injective serverIdToRank) (modelFile : KVBlob Val → ℕ → KVBlob Val) (d : KVStore Val)
    {as : List (Waiter.Move (KVBlob Val))} {t : Waiter.State (KVBlob Val) (KVStore Val)}
    (h : exec (Waiter.step (kvNode valueLen numServers g rank serverIdToRank injective modelFile))
      (Waiter.init d) as = some t) :
    (∀ bs u, bs <+: as → exec (Waiter.step (kvNode valueLen numServers g rank serverIdToRank injective modelFile))
      (Waiter.init d) bs = some u → ∀ id, ¬ Waiter.Missed u id) ↔
    ∀ bs a u, bs ++ [a] <+: as →
      exec (Waiter.step (kvNode valueLen numServers g rank serverIdToRank injective modelFile))
        (Waiter.init d) bs = some u → Waiter.Signalled u Keyless a :=
  Waiter.not_missed_iff_signalled (fun _ _ _ hp => keyless_iff hn hp) h

/-- A node of one server with values of length one. -/
def oneServer : WorkerNode (KVBlob ℚ) (KVStore ℚ) :=
  kvNode 1 1 ⟨fun _ => 0, fun _ => 0⟩ 0 (fun i => i) Nat.cast_injective fun b _ => b

open TwoParties in
/-- The client sleeps before the worker actor handles its Get. -/
def sleepFirst (ks : List ℕ) : List (Waiter.Move (KVBlob ℚ)) :=
  [.node (.issue (.getAsync (.keys ks) none)), .node (.wait 0), .sleep 0, .node (.pop 0), .node (.act 0)]

theorem wake_up_iff_one_key : ∃ t, exec (Waiter.step oneServer)
      (Waiter.init (KVStore.alloc 1 1 ⟨fun _ => 0, fun _ => 0⟩)) (sleepFirst [5]) = some t ∧
    ((∀ bs u, bs <+: sleepFirst [5] → exec (Waiter.step oneServer)
        (Waiter.init (KVStore.alloc 1 1 ⟨fun _ => 0, fun _ => 0⟩)) bs = some u → ∀ id, ¬ Waiter.Missed u id) ↔
      ∀ bs a u, bs ++ [a] <+: sleepFirst [5] → exec (Waiter.step oneServer)
        (Waiter.init (KVStore.alloc 1 1 ⟨fun _ => 0, fun _ => 0⟩)) bs = some u → Waiter.Signalled u Keyless a) :=
  ⟨_, rfl, wake_up_iff Nat.one_pos 1 _ 0 _ Nat.cast_injective _ _ rfl⟩

/-- A client asks for no keys, and sleeps before the worker actor resets its waiter to zero. -/
theorem sleeps_for_good : ¬ ∀ s, Reachable (Waiter.step oneServer)
    (Waiter.init (KVStore.alloc 1 1 ⟨fun _ => 0, fun _ => 0⟩)) s → ∀ id, ¬ Waiter.Missed s id :=
  fun hall => hall _ ⟨sleepFirst [], rfl⟩ 0 ⟨rfl, ⟨0, le_rfl, rfl⟩, by decide⟩

end Hpps.Kv

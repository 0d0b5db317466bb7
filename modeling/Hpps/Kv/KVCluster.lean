import Hpps.Kv.KVServerTable
import Hpps.Kv.LocalTable

/-! A KV table on all its servers and workers, and that no store overflows while the keys fit. -/
namespace Hpps.Kv

open KVStore TransitionSystem

def KVRequest.keys {Val : Type} : KVRequest Val → List ℕ
  | .get keys => keys
  | .add a => a.keys

structure KVMessage (Val : Type) where
  worker : ℕ
  server : ℕ
  request : KVRequest Val

structure KVReply (Val : Type) where
  worker : ℕ
  keys : List ℕ
  vals : List Val

/-- Each server has its part of the table and each worker a local one. What is under way has no order. -/
structure KVCluster (ρ Val : Type) where
  servers : ℕ → KVServerTable ρ Val
  workers : ℕ → LocalTable Val
  requests : List (KVMessage Val)
  replies : List (KVReply Val)

/-- A worker sends a Get or an Add, a server handles the `i`-th request, a thread of a worker takes the `i`-th
reply, a client of a worker begins to read the local store, or a thread makes its next access to that store. -/
inductive KVMove (Val : Type)
  | get (worker : ℕ) (keys : List ℕ)
  | add (worker : ℕ) (a : KVAdd Val)
  | serve (i : ℕ)
  | deliver (i : ℕ) (thread : Thread)
  | getFromLocal (worker client : ℕ) (keys : List ℕ) (val : Tensor Val)
  | access (worker : ℕ) (thread : Thread)

namespace KVMove

variable {Val : Type}

/-- The keys of a request. -/
def sent : KVMove Val → List ℕ
  | .get _ keys => keys
  | .add _ a => a.keys
  | _ => []

/-- The keys that a worker's store is looked up for, or that a reply will put there. -/
def fetched (worker : ℕ) : KVMove Val → List ℕ
  | .get w keys => if w = worker then keys else []
  | .getFromLocal w _ keys _ => if w = worker then keys else []
  | _ => []

/-- The keys that a run touches, with the built-in key. -/
def touched (as : List (KVMove Val)) : Finset ℕ :=
  insert 0 (as.flatMap fun
    | .get _ keys | .add _ ⟨keys, _, _⟩ | .getFromLocal _ _ keys _ => keys
    | .serve _ | .deliver .. | .access .. => []).toFinset

/-- The keys of a run that belong to a server, with the built-in key. -/
def serverKeys (numServers server : ℕ) (as : List (KVMove Val)) : Finset ℕ :=
  insert 0 ((as.flatMap sent).filter fun k => k % numServers = server).toFinset

def workerKeys (worker : ℕ) (as : List (KVMove Val)) : Finset ℕ := insert 0 (as.flatMap (fetched worker)).toFinset

end KVMove

namespace KVCluster

variable {ρ Val : Type} [Field Val] (P : KVProcess ρ Val) (numServers : ℕ) (s : KVCluster ρ Val)

/-- The messages of a request, one to each server that owns a key of it. -/
def send (worker : ℕ) (keys : List ℕ) (vals : Option (List Val)) (request : Blobs Val → KVRequest Val) :
    Except Stop (KVCluster ρ Val) := do
  let (_, out) ← Partition.partition numServers (s.workers worker).store.valueLen P.garbage keys vals
  return { s with
    requests := s.requests ++ (List.range numServers).filterMap fun dst =>
      (out dst).map fun b => ⟨worker, dst, request b⟩ }

/-- The reply to an Add is empty. -/
def serve (i : ℕ) (m : KVMessage Val) : Except Stop (KVCluster ρ Val) :=
  match m.request with
  | .get keys => do
    let (t, keys, vals) ← ServerTable.processGet P.random P.garbage (s.servers m.server).toServerTable keys
    return { s with
      servers := Function.update s.servers m.server { s.servers m.server with toServerTable := t }
      requests := s.requests.eraseIdx i
      replies := s.replies ++ [⟨m.worker, keys, vals⟩] }
  | .add a => do
    let t ← KVServerTable.processAdd P (s.servers m.server) a
    return { s with
      servers := Function.update s.servers m.server t
      requests := s.requests.eraseIdx i }

def deliver (i : ℕ) (thread : Thread) (r : KVReply Val) : Except Stop (KVCluster ρ Val) := do
  let t ← (s.workers r.worker).processReplyGet thread r.keys r.vals
  return { s with
    workers := Function.update s.workers r.worker t
    replies := s.replies.eraseIdx i }

/-- What a move leads to, if there is such a message and the thread can make the move. -/
def outcome : KVMove Val → Option (Except Stop (KVCluster ρ Val))
  | .get worker keys => some (send P numServers s worker keys none fun b => .get b.keys)
  | .add worker a =>
    if a.keys.length * (s.workers worker).store.valueLen = a.vals.length then
      some (send P numServers s worker a.keys (some a.vals) fun b => .add ⟨b.keys, b.vals.getD [], a.option⟩)
    else some (.error .check)
  | .serve i => s.requests[i]?.map fun m => serve P s i m
  | .deliver i thread => s.replies[i]?.bind fun r =>
    if thread.isWorker = true ∧ ((s.workers r.worker).threads thread).isNone = true then some (deliver s i thread r)
    else none
  | .getFromLocal worker c keys val =>
    if ((s.workers worker).threads (.client c)).isNone then
      some (do
        let t ← (s.workers worker).getFromLocal c P.garbage keys val
        return { s with workers := Function.update s.workers worker t })
    else none
  | .access worker thread => ((s.workers worker).advance thread).map fun x => do
    let t ← x
    return { s with workers := Function.update s.workers worker t }

def step (m : KVMove Val) : Option (KVCluster ρ Val) := (outcome P numServers s m).bind Except.toOption

/-- No thread of the worker actor finds a free bucket while the other one is making a new entry. -/
def Spared (s : KVCluster ρ Val) : KVMove Val → Prop
  | .access worker thread => ¬ (s.workers worker).Races thread
  | _ => True

instance {s : KVCluster ρ Val} {m : KVMove Val} : Decidable (Spared s m) := by
  cases m <;> unfold Spared <;> infer_instance

/-- The table is created with `KVTableOption`, which divides the capacity by the number of servers. -/
structure Started (initCapacity valueLen : ℕ) : Prop where
  servers : ∀ d, ∃ solver seed,
    KVServerTable.new P (initCapacity / numServers) valueLen solver seed = some (s.servers d)
  workers : ∀ w, ∃ store, KVStore.new (initCapacity / numServers) valueLen P.garbage = some store ∧
    s.workers w = .new store
  requests : s.requests = []
  replies : s.replies = []

variable {P numServers s} {s₀ s' : KVCluster ρ Val} {cap i : ℕ} {T : Finset ℕ} {keys : List ℕ} {vals : List Val}
  {a : KVMove Val} {as : List (KVMove Val)} {S W : ℕ → Finset ℕ}

/-! ### Each store by itself -/

section Stores

variable {st : ServerTable ρ Val} {kst : KVServerTable ρ Val}
  {key : ℕ} {option : AddOption Val} {delta : List Val}

theorem survives_getOne (h : Within cap T st.store) (hfit : Fits cap T) (hk : key ∈ T) :
    Survives (ServerTable.getOne P.random st vals i key) fun r => Within cap T r.1.store := by
  obtain ⟨t, r, hget, ht⟩ := h.get hfit hk false
  unfold ServerTable.getOne
  dsimp only
  rw [hget]
  refine (Survives.ok (P := fun r' => r' = (t, r)) rfl).bind ?_
  rintro _ rfl
  cases r with
  | none => exact survives_memcpy.bind fun _ _ => .ok ht
  | some e =>
    refine survives_memcpy.bind fun _ _ => .ok ?_
    dsimp only
    split
    · exact ht.write
    · exact ht

theorem survives_getLoop (hfit : Fits cap T) (hk : ∀ k ∈ keys, k ∈ T) (h : Within cap T st.store) :
    Survives (ServerTable.getLoop P.random i keys st vals) fun r => Within cap T r.1.store := by
  induction keys generalizing i st vals with
  | nil => exact .ok h
  | cons key keys ih =>
    rw [List.forall_mem_cons] at hk
    exact (survives_getOne h hfit hk.1).bind fun r hr => Survives.incr.bind fun _ _ => ih hk.2 hr

theorem survives_processGet (hfit : Fits cap T) (hk : ∀ k ∈ keys, k ∈ T) (h : Within cap T st.store) :
    Survives (ServerTable.processGet P.random P.garbage st keys) fun r => Within cap T r.1.store ∧ r.2.1 = keys := by
  unfold ServerTable.processGet
  dsimp only
  split
  · exact .stop (by simp)
  · exact (survives_getLoop hfit hk h).bind fun r hr => .ok ⟨hr, rfl⟩

theorem survives_addOne (h : Within cap T kst.store) (hfit : Fits cap T) (hk : key ∈ T) :
    Survives (KVServerTable.addOne P kst option key delta) fun t => Within cap T t.store := by
  obtain ⟨t, r, hget, ht⟩ := h.get hfit hk false
  unfold KVServerTable.addOne
  rw [hget]
  refine (Survives.ok (P := fun r' => r' = (t, r)) rfl).bind ?_
  rintro _ rfl
  cases r with
  | none => exact .stop (by simp)
  | some e =>
    dsimp only
    split
    · exact .ok ht
    · exact Updater.survives_update.bind fun _ _ => .ok ht.write

theorem survives_processAdd {a : KVAdd Val} (hfit : Fits cap T) (hk : ∀ k ∈ a.keys, k ∈ T)
    (h : Within cap T kst.store) :
    Survives (KVServerTable.processAdd P kst a) fun t => Within cap T t.store := by
  unfold KVServerTable.processAdd
  dsimp only
  split
  · exact Survives.forInt (fun t i key hkey ht => survives_addOne ht hfit (hk key hkey)) h
  · exact .stop (by simp)

end Stores

/-! ### The cluster -/

/-- Each store holds keys of its own set only, and so it stays when the messages are handled. -/
structure Fitting (cap numServers : ℕ) (S W : ℕ → Finset ℕ) (s : KVCluster ρ Val) : Prop where
  servers : ∀ d < numServers, Within cap (S d) (s.servers d).store
  workers : ∀ w, LocalTable.Fitting cap (W w) (s.workers w)
  requests : ∀ m ∈ s.requests, m.server < numServers ∧ (∀ k ∈ m.request.keys, k ∈ S m.server) ∧
    ∀ keys, m.request = .get keys → ∀ k ∈ keys, k ∈ W m.worker
  replies : ∀ r ∈ s.replies, ∀ k ∈ r.keys, k ∈ W r.worker

omit [Field Val] in
theorem Fitting.send {worker : ℕ} {vals : Option (List Val)} {request : Blobs Val → KVRequest Val}
    (h : Fitting cap numServers S W s) (hS : ∀ k ∈ keys, k ∈ S (k % numServers))
    (hrequest : ∀ b, (request b).keys = b.keys)
    (hW : ∀ b l, request b = .get l → ∀ k ∈ keys, k ∈ W worker) :
    Survives (send P numServers s worker keys vals request) (Fitting cap numServers S W) := by
  refine (Survives.self Partition.partition_ne_fatal).bind ?_
  rintro ⟨num, out⟩ hp
  refine .ok ⟨h.servers, h.workers, fun m hm => ?_, h.replies⟩
  rcases List.mem_append.mp hm with hm | hm
  · exact h.requests m hm
  · obtain ⟨dst, hdst, hm⟩ := List.mem_filterMap.mp hm
    obtain ⟨b, hb, rfl⟩ := Option.map_eq_some_iff.mp hm
    have hkeys : ∀ k ∈ b.keys, k ∈ keys ∧ k % numServers = dst := by
      intro k hk
      rw [Partition.keys_of_partition hp hb] at hk
      exact Partition.mem_owned_keys.mp hk
    refine ⟨List.mem_range.mp hdst, fun k hk => ?_, fun l hl k hk => ?_⟩
    · obtain ⟨hkey, rfl⟩ := hkeys k (hrequest b ▸ hk)
      exact hS k hkey
    · have hbl : b.keys = l := by
        rw [← hrequest b]
        exact congrArg KVRequest.keys hl
      exact hW b l hl k (hkeys k (hbl ▸ hk)).1

theorem Fitting.serve {m : KVMessage Val} (h : Fitting cap numServers S W s)
    (hfit : ∀ d < numServers, Fits cap (S d)) (hm : m ∈ s.requests) :
    Survives (serve P s i m) (Fitting cap numServers S W) := by
  obtain ⟨hd, hS, hW⟩ := h.requests m hm
  have hserver : ∀ t : KVServerTable ρ Val, Within cap (S m.server) t.store → ∀ d < numServers,
      Within cap (S d) (Function.update s.servers m.server t d).store := by
    intro t ht d hlt
    by_cases heq : d = m.server
    · subst heq
      rwa [Function.update_self]
    · rw [Function.update_of_ne heq]
      exact h.servers d hlt
  have herase : ∀ m' ∈ s.requests.eraseIdx i, _ := fun m' hm' => h.requests m' (List.mem_of_mem_eraseIdx hm')
  unfold KVCluster.serve
  cases hr : m.request with
  | get keys =>
    rw [hr] at hS
    refine (survives_processGet (hfit _ hd) hS (h.servers _ hd)).bind ?_
    rintro ⟨t, keys', vals⟩ ⟨ht, rfl⟩
    refine .ok ⟨hserver _ ht, h.workers, herase, fun r hr' => ?_⟩
    rcases List.mem_append.mp hr' with hr' | hr'
    · exact h.replies r hr'
    · cases List.mem_singleton.mp hr'
      exact hW keys' hr
  | add a =>
    rw [hr] at hS
    exact (survives_processAdd (hfit _ hd) hS (h.servers _ hd)).bind fun t ht =>
      .ok ⟨hserver _ ht, h.workers, herase, h.replies⟩

omit [Field Val] in
theorem Fitting.setWorker {worker : ℕ} {t : LocalTable Val} {replies : List (KVReply Val)}
    (h : Fitting cap numServers S W s) (ht : LocalTable.Fitting cap (W worker) t)
    (hreplies : ∀ r ∈ replies, ∀ k ∈ r.keys, k ∈ W r.worker) :
    Fitting cap numServers S W { s with workers := Function.update s.workers worker t, replies := replies } := by
  refine ⟨h.servers, fun w => ?_, h.requests, hreplies⟩
  dsimp only
  by_cases heq : w = worker
  · subst heq
    rwa [Function.update_self]
  · rw [Function.update_of_ne heq]
    exact h.workers w

omit [Field Val] in
theorem Fitting.deliver {thread : Thread} {r : KVReply Val} (h : Fitting cap numServers S W s) (hr : r ∈ s.replies)
    (hthread : thread.isWorker = true) (hidle : (s.workers r.worker).threads thread = none) :
    Survives (deliver s i thread r) (Fitting cap numServers S W) := by
  have hstart : Survives ((s.workers r.worker).processReplyGet thread r.keys r.vals)
      (LocalTable.Fitting cap (W r.worker)) := by
    unfold LocalTable.processReplyGet
    split
    · refine .ok ((h.workers r.worker).start hidle (fun c hc => ?_) (h.replies r hr))
      rw [hc] at hthread
      cases hthread
    · exact .stop (by simp)
  exact hstart.bind fun t ht => .ok (h.setWorker ht fun r' hr' => h.replies r' (List.mem_of_mem_eraseIdx hr'))

omit [Field Val] in
theorem Fitting.getFromLocal {worker c : ℕ} {val : Tensor Val} (h : Fitting cap numServers S W s)
    (hk : ∀ k ∈ keys, k ∈ W worker) (hidle : (s.workers worker).threads (.client c) = none) :
    Survives ((s.workers worker).getFromLocal c P.garbage keys val) (LocalTable.Fitting cap (W worker)) :=
  Tensor.survives_reshape.bind fun val' _ =>
    .ok ((h.workers worker).start hidle (fun _ _ => ⟨val', rfl⟩) hk)

/-- No move whose keys are of the sets ends in a full table. -/
theorem Fitting.outcome {x : Except Stop (KVCluster ρ Val)} (h : Fitting cap numServers S W s)
    (hS : ∀ d < numServers, Fits cap (S d)) (hW : ∀ w, Fits cap (W w))
    (hsent : ∀ k ∈ a.sent, k ∈ S (k % numServers)) (hfetched : ∀ w, ∀ k ∈ a.fetched w, k ∈ W w)
    (hx : outcome P numServers s a = some x) :
    x ≠ .error .fatal ∧ (Spared s a → ∀ t, x = .ok t → Fitting cap numServers S W t) := by
  have hsurvives : ∀ {x : Except Stop (KVCluster ρ Val)}, Survives x (Fitting cap numServers S W) →
      x ≠ .error .fatal ∧ (Spared s a → ∀ t, x = .ok t → Fitting cap numServers S W t) :=
    fun hx => ⟨hx.1, fun _ => hx.2⟩
  cases a with
  | get worker keys =>
    cases hx
    have hw : ∀ k ∈ keys, k ∈ W worker := by simpa [KVMove.fetched] using hfetched worker
    exact hsurvives (h.send hsent (fun _ => rfl) fun _ _ _ => hw)
  | add worker a =>
    rw [KVCluster.outcome] at hx
    split at hx
    · cases hx
      exact hsurvives (h.send hsent (fun _ => rfl) fun _ _ hget => by cases hget)
    · cases hx
      exact hsurvives (.stop (by simp))
  | serve i =>
    obtain ⟨m, hm, rfl⟩ := Option.map_eq_some_iff.mp hx
    exact hsurvives (h.serve hS (List.mem_of_getElem? hm))
  | deliver i thread =>
    obtain ⟨r, hr, hx⟩ := Option.bind_eq_some_iff.mp hx
    split at hx
    · rename_i hthread
      cases hx
      exact hsurvives (h.deliver (List.mem_of_getElem? hr) hthread.1 (Option.isNone_iff_eq_none.mp hthread.2))
    · cases hx
  | getFromLocal worker c keys val =>
    rw [KVCluster.outcome] at hx
    split at hx
    · rename_i hidle
      obtain rfl := Option.some.inj hx
      have hw : ∀ k ∈ keys, k ∈ W worker := by simpa [KVMove.fetched] using hfetched worker
      have hlocal : Survives ((s.workers worker).getFromLocal c P.garbage keys val)
          (LocalTable.Fitting cap (W worker)) := h.getFromLocal hw (Option.isNone_iff_eq_none.mp hidle)
      exact hsurvives (hlocal.bind fun t ht => .ok (h.setWorker ht h.replies))
    · cases hx
  | access worker thread =>
    obtain ⟨y, hy, rfl⟩ := Option.map_eq_some_iff.mp hx
    have ht := h.workers worker
    refine ⟨fun hfatal => ?_, fun hspared t ht' => ?_⟩
    · rcases bind_eq_error.mp hfatal with rfl | ⟨t, -, hr⟩
      · exact ht.advance_ne_fatal (hW worker) hy
      · cases hr
    · obtain ⟨u, rfl, hu⟩ := bind_eq_ok.mp ht'
      cases hu
      exact h.setWorker (ht.advance hspared hy rfl) h.replies

theorem fitting_started {initCapacity valueLen : ℕ} (h : Started P numServers s initCapacity valueLen)
    (hS : ∀ d, 0 ∈ S d) (hW : ∀ w, 0 ∈ W w) :
    Fitting (capacity (initCapacity / numServers)) numServers S W s := by
  refine ⟨fun d _ => ?_, fun w => ?_, by simp [h.requests], by simp [h.replies]⟩
  · obtain ⟨solver, seed, hd⟩ := h.servers d
    obtain ⟨store, hstore, heq⟩ := Option.map_eq_some_iff.mp hd
    rw [← heq]
    exact within_new hstore (hS d)
  · obtain ⟨store, hstore, hw⟩ := h.workers w
    rw [hw]
    exact LocalTable.fitting_new (within_new hstore (hW w))

theorem Fitting.exec (h : Fitting cap numServers S W s) (hS : ∀ d < numServers, Fits cap (S d))
    (hW : ∀ w, Fits cap (W w)) (hsent : ∀ a ∈ as, ∀ k ∈ a.sent, k ∈ S (k % numServers))
    (hfetched : ∀ a ∈ as, ∀ w, ∀ k ∈ a.fetched w, k ∈ W w)
    (hr : exec (restrict Spared (step P numServers)) s as = some s') :
    Fitting cap numServers S W s' := by
  induction as generalizing s with
  | nil =>
    cases hr
    exact h
  | cons a as ih =>
    obtain ⟨u, hu, hr⟩ := exec_cons.mp hr
    rw [List.forall_mem_cons] at hsent hfetched
    obtain ⟨hspared, hu⟩ := restrict_eq_some.mp hu
    obtain ⟨x, hx, hu⟩ := Option.bind_eq_some_iff.mp hu
    exact ih ((h.outcome hS hW hsent.1 hfetched.1 hx).2 hspared u (toOption_eq_some.mp hu)) hsent.2 hfetched.2 hr

/-- In a run in which the threads of no worker race for a free bucket and whose keys fit into the store of each
server and worker that gets them, no store overflows. -/
theorem never_full {initCapacity valueLen : ℕ} (h₀ : Started P numServers s₀ initCapacity valueLen)
    (hr : exec (restrict Spared (step P numServers)) s₀ as = some s)
    (hS : ∀ d < numServers, Fits (capacity (initCapacity / numServers)) (KVMove.serverKeys numServers d (as ++ [a])))
    (hW : ∀ w, Fits (capacity (initCapacity / numServers)) (KVMove.workerKeys w (as ++ [a]))) :
    outcome P numServers s a ≠ some (.error .fatal) := by
  have hsent : ∀ m ∈ as ++ [a], ∀ k ∈ m.sent, k ∈ KVMove.serverKeys numServers (k % numServers) (as ++ [a]) := by
    intro m hm k hk
    refine Finset.mem_insert_of_mem (List.mem_toFinset.mpr (List.mem_filter.mpr ⟨?_, by simp⟩))
    exact List.mem_flatMap.mpr ⟨m, hm, hk⟩
  have hfetched : ∀ m ∈ as ++ [a], ∀ w, ∀ k ∈ m.fetched w, k ∈ KVMove.workerKeys w (as ++ [a]) := by
    intro m hm w k hk
    exact Finset.mem_insert_of_mem (List.mem_toFinset.mpr (List.mem_flatMap.mpr ⟨m, hm, hk⟩))
  have h := fitting_started h₀ (S := fun d => KVMove.serverKeys numServers d (as ++ [a]))
    (W := fun w => KVMove.workerKeys w (as ++ [a])) (fun d => Finset.mem_insert_self ..)
    fun w => Finset.mem_insert_self ..
  have hs := h.exec hS hW (fun m hm => hsent m (List.mem_append_left _ hm))
    (fun m hm => hfetched m (List.mem_append_left _ hm)) hr
  intro hx
  exact (hs.outcome hS hW (hsent a (by simp)) (hfetched a (by simp)) hx).1 rfl

/-- A cluster that was just created. -/
theorem exists_started (n initCapacity : ℕ) : ∃ s, Started testProcess n s initCapacity 1 := by
  obtain ⟨store, hstore⟩ := KVStore.exists_new (initCapacity / n) 1 testProcess.garbage
  obtain ⟨st, hst⟩ : ∃ st, KVServerTable.new testProcess (initCapacity / n) 1 "" () = some st :=
    ⟨_, by rw [KVServerTable.new, hstore, Option.map_some]⟩
  exact ⟨⟨fun _ => st, fun _ => .new store, [], []⟩, fun _ => ⟨"", (), hst⟩, fun _ => ⟨store, hstore, rfl⟩, rfl, rfl⟩

/-- Two servers and eight keys: a worker gets two keys. -/
theorem never_full_two : ∃ s, Started testProcess 2 s 8 1 ∧ ∃ t,
    exec (restrict Spared (step testProcess 2)) s [.get 0 [1, 2]] = some t ∧
      outcome testProcess 2 t (.serve 0) ≠ some (.error .fatal) := by
  obtain ⟨s, hs⟩ := exists_started 2 8
  have hr : ∃ t, exec (restrict Spared (step testProcess 2)) s [.get 0 [1, 2]] = some t := ⟨_, rfl⟩
  obtain ⟨t, ht⟩ := hr
  refine ⟨s, hs, t, ht, never_full hs ht ?_ ?_⟩
  · decide
  · intro w
    by_cases hw : w = 0
    · subst hw
      decide
    · have hnone : KVMove.workerKeys w ([.get 0 [1, 2]] ++ [.serve 0] : List (KVMove ℚ)) = {0} := by
        simp [KVMove.workerKeys, KVMove.fetched, Ne.symm hw]
      rw [hnone]
      decide

/-- Keys 0, 1, 2 and 5 fit into four buckets. When the two threads of a worker put 5 and 1 into one free bucket, and
1 gets another one too, there is no place left for 2. -/
example : Fits (capacity 4) {0, 1, 2, 5} ∧ (do
    let st ← KVServerTable.new testProcess 4 1 "" ()
    let store ← KVStore.new 4 1 testProcess.garbage
    let s ← exec (step testProcess 1) ⟨fun _ => st, fun _ => .new store, [], []⟩
      ([.get 0 [1], .get 0 [5, 1], .serve 0, .serve 0, .deliver 0 .first, .deliver 0 .second] ++
        (List.replicate 2 (.access 0 .first) ++ List.replicate 29 (.access 0 .second) ++
          List.replicate 12 (.access 0 .first)) ++
        ([.get 0 [5], .serve 0, .deliver 0 .first] ++ List.replicate 18 (.access 0 .first)) ++
        ([.get 0 [2], .serve 0, .deliver 0 .first] ++ List.replicate 65 (.access 0 .first)))
    (outcome testProcess 1 s (.access 0 .first)).map (·.map fun _ => ())) = some (.error .fatal) := by
  decide +kernel

/-- With two servers a table for two keys is a single bucket everywhere, and key 0 is in it. -/
theorem overflows : ¬ ∀ (initCapacity n : ℕ) (s₀ s : KVCluster Unit ℚ) (as : List (KVMove ℚ)) (a : KVMove ℚ),
    0 < initCapacity → 0 < n → Started testProcess n s₀ initCapacity 1 →
    exec (step testProcess n) s₀ as = some s → (KVMove.touched (as ++ [a])).card ≤ initCapacity →
    outcome testProcess n s a ≠ some (.error .fatal) := by
  intro hall
  obtain ⟨s₀, h₀⟩ := exists_started 2 2
  obtain ⟨solver, seed, hd⟩ := h₀.servers 1
  obtain ⟨store, hstore, hserver⟩ := Option.map_eq_some_iff.mp hd
  obtain ⟨s, hs⟩ : ∃ s, send testProcess 2 s₀ 0 [1] none (fun b => .get b.keys) = .ok s := ⟨_, rfl⟩
  have hr : exec (step testProcess 2) s₀ [.get 0 [1]] = some s := by
    simp [exec, step, outcome, hs, Except.toOption]
  refine hall 2 2 s₀ s [.get 0 [1]] (.serve 0) (by norm_num) (by norm_num) h₀ hr (by decide) ?_
  have hrequests : s.requests = [⟨0, 1, .get [1]⟩] := by
    cases hs
    simp only [h₀.requests]
    rfl
  have hservers : s.servers = s₀.servers := by
    cases hs
    rfl
  have hfull : store.get 1 false = none := by
    cases hstore
    decide
  have hlen : store.valueLen = 1 := (Sound.new hstore).2
  have hst : (s₀.servers 1).toServerTable.store = store := by rw [← hserver]
  have hget : ServerTable.processGet testProcess.random testProcess.garbage (s₀.servers 1).toServerTable [1] =
      .error .fatal := by
    simp only [ServerTable.processGet, ServerTable.getLoop, ServerTable.getOne, hst, hlen, hfull]
    rfl
  rw [outcome, hrequests, List.getElem?_cons_zero, Option.map_some, serve]
  simp only [hservers, hget]
  rfl

end KVCluster
end Hpps.Kv

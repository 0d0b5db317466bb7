import Hpps.Frame.Waiting

/-! Workers and servers that share an array table in async mode. -/
namespace Hpps.Table

open Hpps.Frame TransitionSystem Blocks

/-- The table and the nodes: `gen` is what the servers' random generators fill in, `order w` the order in
which worker `w` iterates a map over the servers. A worker passes the same buffer to all its Gets. -/
structure ArraySystem (T : Type) (W n : ℕ) where
  size : ℕ
  solver : Solver
  rate : T
  gen : ℕ → T
  workerRank : Fin W → ℤ
  serverIdToRank : ℕ → ℤ
  injective : Function.Injective serverIdToRank
  order : Fin W → List ℕ
  perm : ∀ w, (order w).Perm (List.range n)
  pos : 0 < n
  lt_size : n < size
  size_lt : size < 2 ^ 31

structure Cluster (T : Type) (W n : ℕ) where
  workers : Fin W → WorkerState (Blob T) (List T)
  servers : Fin n → ArrayServer T
  stop : Option Stop

/-- Worker `w` issues a Get or an Add or does something else by itself, or server `j` handles the `k`-th
message that worker `w` has on its way. -/
inductive ClusterMove (T : Type) (W n : ℕ)
  | get (w : Fin W)
  | add (w : Fin W) (data : List T) (option : Option (AddOption T))
  | work (w : Fin W) (m : WorkerMove (Blob T))
  | serve (w : Fin W) (k : ℕ) (j : Fin n)

namespace ArraySystem

variable {T : Type} [CommRing T] {W n : ℕ} (S : ArraySystem T W n) (c : Cluster T W n)

abbrev types : List MsgType := [.Request_Get, .Request_Add]

/-- The number of elements of server `j`, and where they begin in the table. -/
abbrev share (j : ℕ) : ℕ := Table.share S.size n j

abbrev offset (j : ℕ) : ℕ := Blocks.offset S.share j

def node (w : Fin W) : WorkerNode (Blob T) (List T) :=
  arrayNode T S.size n (S.workerRank w) S.serverIdToRank S.injective (S.order w) (S.perm w)

/-- `buffer w` is the memory that worker `w` reads the table into. -/
def init (buffer : Fin W → List T) : Cluster T W n where
  workers w := Worker.init (buffer w)
  servers j := ArrayServer.new S.size n j S.solver fun i => S.gen (S.offset j + i)
  stop := none

/-- Worker `w` makes a move of its own. -/
def workerStep (w : Fin W) (m : WorkerMove (Blob T)) : Option (Cluster T W n) :=
  (Worker.step (S.node w) types (c.workers w) m).map fun s =>
    { c with workers := Function.update c.workers w s }

/-- A message without blobs is not answered. -/
def step (a : ClusterMove T W n) : Option (Cluster T W n) :=
  if c.stop.isSome then none
  else
    match a with
    | .get w => S.workerStep c w (.issue ArrayWorker.getAsync)
    | .add w data option =>
      match (workerOf S.size n).addAsync data option with
      | .ok call => S.workerStep c w (.issue call)
      | .error e => some { c with
          workers := Function.update c.workers w { c.workers w with crash := some (.table e) } }
    | .work w m =>
      match m with
      | .issue _ | .serve _ _ => none
      | m => S.workerStep c w m
    | .serve w k j =>
      match (c.workers w).inFlight[k]? with
      | some msg =>
        if msg.dst = S.serverIdToRank j then
          match (c.servers j).handle S.rate msg with
          | .ok (server, some data) =>
            S.workerStep { c with servers := Function.update c.servers j server } w (.serve k data)
          | .ok (_, none) => none
          | .error e => some { c with stop := some e }
        else none
      | none => none

/-! ### Adds -/

end ArraySystem

/-- An Add as the client makes it. -/
structure Add (T : Type) where
  delta : List T
  option : Option (AddOption T)

namespace Add

variable {T : Type}

def blobs (a : Add T) : List (Blob T) := .key (-1) :: .values a.delta :: (a.option.map .option).toList

/-- The Add that a message stands for. -/
def ofBlobs : List (Blob T) → Option (Add T)
  | [_, .values delta] => some ⟨delta, none⟩
  | [_, .values delta, .option o] => some ⟨delta, some o⟩
  | _ => none

@[simp] theorem ofBlobs_blobs (a : Add T) : ofBlobs a.blobs = some a := by
  obtain ⟨delta, option⟩ := a
  cases option <;> rfl

end Add

namespace ArraySystem

variable {T : Type} {W n : ℕ} (S : ArraySystem T W n) {c c' : Cluster T W n}
  {a : ClusterMove T W n} {w : Fin W} {j : Fin n} {msg q : Message (Blob T)}

/-- The calls of the clients of an array table. -/
def Legit (msg : Message (Blob T)) : Prop :=
  msg.type = .Request_Get ∧ msg.data = [.key (-1)] ∨
    ∃ a : Add T, a.delta.length = S.size ∧ msg.type = .Request_Add ∧ msg.data = a.blobs

/-- The messages that server `j` is sent: a Get, or an Add with its slice. -/
def Part (j : Fin n) (msg : Message (Blob T)) : Prop :=
  msg.dst = S.serverIdToRank j ∧ (msg.type = .Request_Get ∧ msg.data = [.key (-1)] ∨
    ∃ a : Add T, a.delta.length = S.share j ∧ msg.type = .Request_Add ∧ msg.data = a.blobs)

/-- The slice of an Add for server `j`. -/
def part (a : Add T) (j : ℕ) : Add T := ⟨slice S.share a.delta j, a.option⟩

theorem requests_get (htype : msg.type = .Request_Get) (hdata : msg.data = [.key (-1)]) :
    Worker.requests (S.node w) msg =
      (S.order w).map fun i => Worker.newMsg (S.node w) msg.type msg i [.key (-1)] := by
  have hp : (S.node w).table.Partition msg.data msg.type =
      .ok (n, (S.order w).map fun i => (i, [.key (-1)])) := by
    rw [hdata]
    rfl
  rw [Worker.requests_eq (.inl htype) (by simp [hdata]) hp, List.map_map]
  rfl

theorem requests_add {a : Add T} (hlen : a.delta.length = S.size) (htype : msg.type = .Request_Add)
    (hdata : msg.data = a.blobs) : Worker.requests (S.node w) msg =
      (S.order w).map fun i => Worker.newMsg (S.node w) msg.type msg i (S.part a i).blobs := by
  have hp : (S.node w).table.Partition msg.data msg.type =
      .ok (n, (S.order w).map fun i => (i, (S.part a i).blobs)) := by
    rw [hdata]
    exact partition_add S.pos (S.size_lt.trans (by norm_num)) (fun i hi => List.mem_range.mp ((S.perm w).mem_iff.mp hi)) hlen
      (by cases a.option <;> simp)
  rw [Worker.requests_eq (.inr htype) (by simp [hdata, Add.blobs]) hp, List.map_map]
  rfl

/-- What the calls are split into is sent to the servers. -/
theorem part_of_request (h : S.Legit msg) (hq : q ∈ Worker.requests (S.node w) msg) :
    ∃ j, S.Part j q := by
  rcases h with ⟨htype, hdata⟩ | ⟨a, hlen, htype, hdata⟩
  · rw [S.requests_get htype hdata] at hq
    obtain ⟨i, hi, rfl⟩ := List.mem_map.mp hq
    exact ⟨⟨i, List.mem_range.mp ((S.perm w).mem_iff.mp hi)⟩, rfl, .inl ⟨htype, rfl⟩⟩
  · rw [S.requests_add hlen htype hdata] at hq
    obtain ⟨i, hi, rfl⟩ := List.mem_map.mp hq
    have hin := List.mem_range.mp ((S.perm w).mem_iff.mp hi)
    exact ⟨⟨i, hin⟩, rfl, .inr ⟨S.part a i,
      length_slice (hlen.trans (offset_share_last S.pos).symm) hin, htype, rfl⟩⟩

/-- A worker's move other than a Serve answers nothing. -/
theorem replied_of_step {s t : WorkerState (Blob T) (List T)} {m : WorkerMove (Blob T)}
    (hs : Worker.step (S.node w) types s m = some t) (hm : ∀ k data, m ≠ .serve k data) :
    t.replied = s.replied := by
  obtain ⟨-, ho⟩ := Worker.step_outcome hs
  cases ho with
  | issue | wait | waitNull | wake | finish | pop | popStop | actStop | deliver => rfl
  | serve => exact absurd rfl (hm _ _)
  | act hi hr => exact (Worker.perform_frame hr).2.1

theorem length_data_of_step {types : List MsgType} {s t : WorkerState (Blob T) (List T)}
    {m : WorkerMove (Blob T)} (hs : Worker.step (S.node w) types s m = some t) (h : s.data.length = S.size) :
    t.data.length = S.size := by
  obtain ⟨-, ho⟩ := Worker.step_outcome hs
  cases ho with
  | issue | wait | waitNull | wake | finish | pop | popStop | actStop | deliver | serve => exact h
  | @act i x acts r hi hr =>
    cases x with
    | reset id num =>
      rw [Worker.perform] at hr
      split at hr <;> cases hr
      exact h
    | push msg =>
      cases hr
      exact h
    | notify msg =>
      rw [Worker.perform] at hr
      split at hr <;> cases hr
      exact h
    | store msg =>
      rw [Worker.perform] at hr
      split at hr
      · rename_i d hd
        cases hr
        exact (length_processReplyGet hd).trans h
      · cases hr

theorem calls_of_step {s t : WorkerState (Blob T) (List T)} {m : WorkerMove (Blob T)}
    (hs : Worker.step (S.node w) types s m = some t) : t.calls = s.calls ∨
      ∃ call, m = .issue call ∧ t.calls = s.calls ++ [call.message (S.workerRank w) s.waitings.length] := by
  obtain ⟨-, ho⟩ := Worker.step_outcome hs
  cases ho with
  | issue => exact .inr ⟨_, rfl, rfl⟩
  | wait | waitNull | wake | finish | pop | popStop | actStop | deliver | serve => exact .inl rfl
  | act hi hr => exact .inl (Worker.perform_frame hr).1

theorem legit_types : ∀ type ∈ types, type = MsgType.Request_Get ∨ type = .Request_Add ∨
    (S.node w).numServers = 1 := by
  simp +contextual

/-- What holds of every worker still does when worker `w` has moved. -/
theorem forall_update {P : Fin W → WorkerState (Blob T) (List T) → Prop}
    {s : WorkerState (Blob T) (List T)} (h : ∀ v, P v (c.workers v)) (hw : P w s) (v : Fin W) :
    P v (Function.update c.workers w s v) := by
  by_cases hv : v = w
  · subst hv
    rwa [Function.update_self]
  · rw [Function.update_of_ne hv]
    exact h v

section Ring

variable [CommRing T]

/-- What each move can do. -/
inductive Outcome (c : Cluster T W n) : ClusterMove T W n → Cluster T W n → Prop
  | work {a : ClusterMove T W n} {w : Fin W} {m : WorkerMove (Blob T)} {s : WorkerState (Blob T) (List T)}
      (hs : Worker.step (S.node w) types (c.workers w) m = some s) (hm : ∀ k data, m ≠ .serve k data)
      (hcall : ∀ call, m = .issue call → ∀ id, S.Legit (call.message (S.workerRank w) id) ∧
        (call.type = .Request_Add → ∃ data option, a = .add w data option)) :
      Outcome c a { c with workers := Function.update c.workers w s }
  | check {w : Fin W} {data : List T} {option : Option (AddOption T)} {e : Stop} :
      Outcome c (.add w data option) { c with
        workers := Function.update c.workers w { c.workers w with crash := some (.table e) } }
  | serve {w : Fin W} {k : ℕ} {j : Fin n} {msg : Message (Blob T)} {server : ArrayServer T}
      {data : List (Blob T)} {s : WorkerState (Blob T) (List T)}
      (hk : (c.workers w).inFlight[k]? = some msg) (hdst : msg.dst = S.serverIdToRank j)
      (hh : (c.servers j).handle S.rate msg = .ok (server, some data))
      (hs : Worker.step (S.node w) types (c.workers w) (.serve k data) = some s) :
      Outcome c (.serve w k j) { c with
        workers := Function.update c.workers w s
        servers := Function.update c.servers j server }
  | serveStop {w : Fin W} {k : ℕ} {j : Fin n} {msg : Message (Blob T)} {e : Stop}
      (hk : (c.workers w).inFlight[k]? = some msg) (hdst : msg.dst = S.serverIdToRank j)
      (hh : (c.servers j).handle S.rate msg = .error e) :
      Outcome c (.serve w k j) { c with stop := some e }

theorem step_outcome (hs : S.step c a = some c') : S.Outcome c a c' := by
  unfold step at hs
  split at hs
  · cases hs
  · cases a with
    | get w =>
      obtain ⟨s, hstep, rfl⟩ := Option.map_eq_some_iff.mp hs
      refine .work hstep (fun _ _ h => nomatch h) fun call hcall id => ?_
      cases hcall
      exact ⟨.inl ⟨rfl, rfl⟩, fun h => absurd (show MsgType.Request_Get = .Request_Add from h) (by decide)⟩
    | add w data option =>
      dsimp only at hs
      split at hs
      · rename_i call hcall
        unfold ArrayWorker.addAsync at hcall
        split at hcall
        · rename_i hlen
          cases hcall
          obtain ⟨s, hstep, rfl⟩ := Option.map_eq_some_iff.mp hs
          refine .work hstep (fun _ _ h => nomatch h) fun call hcall id => ?_
          cases hcall
          exact ⟨.inr ⟨⟨data, option⟩, hlen, rfl, rfl⟩, fun _ => ⟨data, option, rfl⟩⟩
        · cases hcall
      · cases hs
        exact .check
    | work w m =>
      cases m with
      | issue | serve => cases hs
      | wait | wake | finish | pop | act | deliver =>
        obtain ⟨s, hstep, rfl⟩ := Option.map_eq_some_iff.mp hs
        exact .work hstep (fun _ _ h => nomatch h) fun _ h => nomatch h
    | serve w k j =>
      dsimp only at hs
      split at hs
      · rename_i hk
        split at hs
        · rename_i hdst
          split at hs
          · rename_i hh
            obtain ⟨s, hstep, rfl⟩ := Option.map_eq_some_iff.mp hs
            exact .serve hk hdst hh hstep
          · cases hs
          · rename_i hh
            cases hs
            exact .serveStop hk hdst hh
        · cases hs
      · cases hs

/-! ### Invariant -/

/-- The learning rate of an Add. -/
def rateOf (option : Option (AddOption T)) : T := (option.map AddOption.learningRate).getD S.rate

/-- What an Add contributes to element `k` of the table. -/
def effect (k : ℕ) (a : Add T) : T :=
  match S.solver with
  | .default => a.delta.getD k 0
  | .sgd => -(S.rateOf a.option * a.delta.getD k 0)

/-- The Adds that worker `w` issued. -/
def adds (c : Cluster T W n) (w : Fin W) : List (Add T) :=
  (c.workers w).calls.filterMap fun msg => Add.ofBlobs msg.data

/-- What a message contributes to element `i` of server `j`. -/
def contribution (j : ℕ) (i : ℕ) (msg : Message (Blob T)) : T :=
  if msg.dst = S.serverIdToRank j then ((Add.ofBlobs msg.data).map (S.effect i)).getD 0 else 0

/-- The servers keep their shares, and each element is its initial value plus what the messages that were
answered contribute. -/
structure Inv (c : Cluster T W n) : Prop where
  worker : ∀ w, ∃ popped, Worker.Inv (S.node w) types (c.workers w) popped
  legit : ∀ w, ∀ msg ∈ (c.workers w).calls, S.Legit msg
  server : ∀ j, (c.servers j).serverId = j ∧ (c.servers j).size = S.share j ∧
    (c.servers j).solver = S.solver ∧ (c.servers j).storage.length = S.share j
  sum : ∀ j : Fin n, ∀ i < S.share j, (c.servers j).storage[i]? = some (S.gen (S.offset j + i) +
    ∑ w, ((c.workers w).replied.map fun q => S.contribution j i q.1).sum)
  buffer : ∀ w, (c.workers w).data.length = S.size
  stop : c.stop = none

theorem inv_init {buffer : Fin W → List T} (h : ∀ w, (buffer w).length = S.size) :
    S.Inv (S.init buffer) where
  worker _ := ⟨[], Worker.inv_init⟩
  legit _ _ hmsg := nomatch hmsg
  server j := ⟨rfl, rfl, rfl, by simp [init, ArrayServer.new]⟩
  sum j i hi := by simp [init, ArrayServer.new, Worker.init, hi]
  buffer := h
  stop := rfl

/-- Server `j` after a message: each element has what the message contributes. -/
def received (j : ℕ) (server : ArrayServer T) (msg : Message (Blob T)) : ArrayServer T :=
  { server with storage := server.storage.mapIdx fun i x => x + S.contribution j i msg }

/-- A Get changes no server. -/
theorem received_get {k : ℕ} {server : ArrayServer T} (hdata : msg.data = [.key (-1)]) :
    S.received k server msg = server := by
  have hstorage : (server.storage.mapIdx fun i x => x + S.contribution k i msg) = server.storage := by
    rw [List.mapIdx_eq_iff]
    intro i
    have hzero : S.contribution k i msg = 0 := by
      rw [contribution, hdata]
      exact ite_self 0
    simp [hzero]
  rw [received, hstorage]

theorem update_eq {o : AddOption T} {a : Add T} {i : ℕ} {x y : T} (ho : o.learningRate = S.rateOf a.option)
    (hy : a.delta[i]? = some y) : ArrayServer.update S.solver o x y = x + S.effect i a := by
  unfold ArrayServer.update effect
  rw [List.getD_eq_getElem?_getD, hy]
  cases S.solver with
  | default => rfl
  | sgd =>
    dsimp only
    rw [ho, Option.getD_some]
    ring

theorem processAdd_eq {server : ArrayServer T} {a : Add T} (hsolver : server.solver = S.solver)
    (hlen : server.storage.length = server.size) (ha : a.delta.length = server.size) :
    server.processAdd S.rate a.blobs =
      .ok { server with storage := server.storage.mapIdx fun i x => x + S.effect i a } := by
  obtain ⟨delta, option⟩ := a
  have hzip : ∀ o : AddOption T, o.learningRate = S.rateOf option →
      List.zipWith (ArrayServer.update server.solver o) server.storage delta =
        server.storage.mapIdx fun i x => x + S.effect i ⟨delta, option⟩ := by
    intro o ho
    symm
    rw [List.mapIdx_eq_iff]
    intro i
    rw [List.getElem?_zipWith]
    rcases lt_or_ge i server.size with hi | hi
    · rw [List.getElem?_eq_getElem (hlen ▸ hi), List.getElem?_eq_getElem (ha ▸ hi)]
      dsimp only
      rw [hsolver, S.update_eq (a := ⟨delta, option⟩) ho (List.getElem?_eq_getElem (ha ▸ hi))]
      rfl
    · rw [List.getElem?_eq_none (hlen ▸ hi)]
      rfl
  cases option with
  | none =>
    rw [← hzip ⟨S.rate⟩ rfl]
    exact if_pos ⟨rfl, ha⟩
  | some o =>
    rw [← hzip o rfl]
    exact if_pos ⟨rfl, ha⟩

/-- A server adds what a message contributes, and answers a Get with its share. -/
theorem handle_part {server : ArrayServer T} (hsize : server.size = S.share j)
    (hsolver : server.solver = S.solver) (hlen : server.storage.length = S.share j) (h : S.Part j msg) :
    ∃ data, server.handle S.rate msg = .ok (S.received j server msg, some data) ∧
      (msg.type = .Request_Get → data = [.key server.serverId, .values server.storage]) := by
  obtain ⟨hdst, ⟨htype, hdata⟩ | ⟨a, ha, htype, hdata⟩⟩ := h
  · refine ⟨[.key server.serverId, .values server.storage], ?_, fun _ => rfl⟩
    rw [ArrayServer.handle, serverHandle, if_pos htype, hdata, if_neg (by simp), S.received_get hdata]
    rfl
  · have hne : ¬ msg.type = .Request_Get := by
      rw [htype]
      decide
    refine ⟨[], ?_, fun h => absurd h hne⟩
    have hcontribution : ∀ i, S.contribution j i msg = S.effect i a := by
      intro i
      rw [contribution, if_pos hdst, hdata, Add.ofBlobs_blobs]
      rfl
    rw [ArrayServer.handle, serverHandle, if_neg hne, if_pos htype, hdata, if_neg (by simp [Add.blobs]),
      S.processAdd_eq hsolver (hlen.trans hsize.symm) (ha.trans hsize.symm), received]
    simp only [hcontribution]
    rfl

/-- What is on its way to a server is part of a call. -/
theorem part_of_inFlight (h : S.Inv c) (hq : q ∈ (c.workers w).inFlight) : ∃ j, S.Part j q := by
  classical
  obtain ⟨popped, hinv⟩ := h.worker w
  have hcount := hinv.conserved fun m => decide (m = q)
  have hpos : 0 < (c.workers w).inFlight.countP fun m => decide (m = q) :=
    List.countP_pos_iff.mpr ⟨q, hq, by simp⟩
  obtain ⟨m, hm, heq⟩ : ∃ m ∈ popped.flatMap (Worker.requests (S.node w)), decide (m = q) = true :=
    List.countP_pos_iff.mp (by omega)
  simp only [decide_eq_true_eq] at heq
  subst heq
  obtain ⟨msg, hmsg, hm⟩ := List.mem_flatMap.mp hm
  exact S.part_of_request (h.legit w msg (by rw [hinv.calls]; exact List.mem_append_left _ hmsg)) hm

/-- What the messages answered by worker `w`'s servers contribute. -/
def answered (j i : ℕ) (s : WorkerState (Blob T) (List T)) : T :=
  (s.replied.map fun q => S.contribution j i q.1).sum

theorem sum_of_replied_eq {s : WorkerState (Blob T) (List T)} {i k : ℕ}
    (h : s.replied = (c.workers w).replied) :
    ∑ v, S.answered k i (Function.update c.workers w s v) = ∑ v, S.answered k i (c.workers v) := by
  refine Finset.sum_congr rfl fun v _ => ?_
  by_cases hv : v = w
  · subst hv
    rw [Function.update_self, answered, h]
    rfl
  · rw [Function.update_of_ne hv]

theorem sum_of_replied_append {s : WorkerState (Blob T) (List T)} {i k : ℕ} {r : Message (Blob T)}
    (h : s.replied = (c.workers w).replied ++ [(msg, r)]) :
    ∑ v, S.answered k i (Function.update c.workers w s v) =
      ∑ v, S.answered k i (c.workers v) + S.contribution k i msg := by
  have hsum := Tally.sum_update (S.answered k i) c.workers w s
  have hs : S.answered k i s = S.answered k i (c.workers w) + S.contribution k i msg := by
    simp [answered, h]
  rw [hs, ← add_assoc, add_right_comm] at hsum
  exact add_right_cancel hsum

theorem inv_step (h : S.Inv c) (hs : S.step c a = some c') : S.Inv c' := by
  cases S.step_outcome hs with
  | @work a w m s hw hm hcall =>
    refine ⟨forall_update (P := fun w s => ∃ popped, Worker.Inv (S.node w) types s popped) h.worker ?_,
      forall_update (P := fun w s => ∀ msg ∈ s.calls, S.Legit msg) h.legit fun msg hmsg => ?_, h.server,
      fun j i hi => ?_, forall_update (P := fun w s => s.data.length = S.size) h.buffer
        (S.length_data_of_step hw (h.buffer w)), h.stop⟩
    · obtain ⟨popped, hinv⟩ := h.worker w
      exact (Worker.inv_step S.legit_types hinv hw).1
    · rcases S.calls_of_step hw with heq | ⟨call, hcall', heq⟩
      · exact h.legit w msg (heq ▸ hmsg)
      · rw [heq] at hmsg
        rcases List.mem_append.mp hmsg with hmsg | hmsg
        · exact h.legit w msg hmsg
        · rw [List.mem_singleton] at hmsg
          exact hmsg ▸ (hcall call hcall' _).1
    · have := S.sum_of_replied_eq (c := c) (k := j) (i := i) (S.replied_of_step hw hm)
      exact (h.sum j i hi).trans (congrArg (fun x => some (_ + x)) this.symm)
  | @check w data option e =>
    refine ⟨forall_update (P := fun w s => ∃ popped, Worker.Inv (S.node w) types s popped) h.worker ?_,
      forall_update (P := fun w s => ∀ msg ∈ s.calls, S.Legit msg) h.legit (h.legit w), h.server,
      fun j i hi => ?_, forall_update (P := fun w s => s.data.length = S.size) h.buffer (h.buffer w), h.stop⟩
    · obtain ⟨popped, hinv⟩ := h.worker w
      exact ⟨popped, hinv.crashed _⟩
    · have := S.sum_of_replied_eq (c := c) (w := w) (k := j) (i := i)
        (s := { c.workers w with crash := some (.table e) }) rfl
      exact (h.sum j i hi).trans (congrArg (fun x => some (_ + x)) this.symm)
  | @serve w k j msg server data s hk hdst hh hw =>
    obtain ⟨j', hpart⟩ := S.part_of_inFlight h (List.mem_of_getElem? hk)
    have hj : j' = j := Fin.ext (S.injective (hpart.1.symm.trans hdst))
    subst hj
    obtain ⟨hid, hsize, hsolver, hlen⟩ := h.server j'
    obtain ⟨data', hh', -⟩ := S.handle_part hsize hsolver hlen hpart
    rw [hh] at hh'
    cases hh'
    have hreplied : s.replied = (c.workers w).replied ++ [(msg, { msg.createReplyMessage with data := data })] := by
      obtain ⟨-, ho⟩ := Worker.step_outcome hw
      cases ho with
      | serve hk' =>
        rw [hk] at hk'
        cases hk'
        rfl
    have hcalls : s.calls = (c.workers w).calls := by
      rcases S.calls_of_step hw with heq | ⟨call, hcall, -⟩
      · exact heq
      · cases hcall
    refine ⟨forall_update (P := fun w s => ∃ popped, Worker.Inv (S.node w) types s popped) h.worker ?_,
      forall_update (P := fun w s => ∀ msg ∈ s.calls, S.Legit msg) h.legit (hcalls ▸ h.legit w), fun v => ?_,
      fun v i hi => ?_, forall_update (P := fun w s => s.data.length = S.size) h.buffer
        (S.length_data_of_step hw (h.buffer w)), h.stop⟩
    · obtain ⟨popped, hinv⟩ := h.worker w
      exact (Worker.inv_step S.legit_types hinv hw).1
    · by_cases hv : v = j'
      · subst hv
        dsimp only
        rw [Function.update_self]
        exact ⟨hid, hsize, hsolver, by rw [received, List.length_mapIdx, hlen]⟩
      · dsimp only
        rw [Function.update_of_ne hv]
        exact h.server v
    · have hsum := S.sum_of_replied_append (k := v) (i := i) hreplied
      dsimp only
      change _ = some (_ + ∑ x, S.answered v i (Function.update c.workers w s x))
      rw [hsum, ← add_assoc]
      by_cases hv : v = j'
      · subst hv
        rw [Function.update_self, received, List.getElem?_mapIdx, h.sum v i hi]
        rfl
      · have hzero : S.contribution v i msg = 0 :=
          if_neg fun heq => hv (Fin.ext (S.injective (heq.symm.trans hdst)))
        rw [Function.update_of_ne hv, h.sum v i hi, hzero, add_zero]
        rfl
  | @serveStop w k j msg e hk hdst hh =>
    obtain ⟨j', hpart⟩ := S.part_of_inFlight h (List.mem_of_getElem? hk)
    have hj : j' = j := Fin.ext (S.injective (hpart.1.symm.trans hdst))
    subst hj
    obtain ⟨hid, hsize, hsolver, hlen⟩ := h.server j'
    obtain ⟨data', hh', -⟩ := S.handle_part hsize hsolver hlen hpart
    rw [hh] at hh'
    cases hh'

theorem reachable_inv {buffer : Fin W → List T} (hb : ∀ w, (buffer w).length = S.size)
    (h : Reachable S.step (S.init buffer) c) : S.Inv c :=
  h.invariant (P := S.Inv) (S.inv_init hb) fun _ _ _ hx hy => S.inv_step hx hy

/-! ### The table of a quiet state -/

/-- Nothing is on its way. -/
def Quiet (c : Cluster T W n) : Prop := ∀ w, Worker.Quiet (c.workers w)

/-- Element `k` with all the Adds that were issued. -/
def table (c : Cluster T W n) : List T :=
  (List.range S.size).map fun k => S.gen k + ∑ w, ((adds c w).map (S.effect k)).sum

theorem effect_part {a : Add T} {j i : ℕ} (hi : i < S.share j) :
    S.effect i (S.part a j) = S.effect (S.offset j + i) a := by
  simp only [effect, part, List.getD_eq_getElem?_getD, getElem?_slice hi]

/-- The parts of a call contribute to an element of a server what the call contributes to the table. -/
theorem sum_requests {i : ℕ} (h : S.Legit msg) (hi : i < S.share j) :
    ((Worker.requests (S.node w) msg).map (S.contribution j i)).sum =
      ((Add.ofBlobs msg.data).map (S.effect (S.offset j + i))).getD 0 := by
  rcases h with ⟨htype, hdata⟩ | ⟨a, hlen, htype, hdata⟩
  · have hzero : ∀ q ∈ Worker.requests (S.node w) msg, S.contribution j i q = 0 := by
      intro q hq
      rw [S.requests_get htype hdata] at hq
      obtain ⟨i', -, rfl⟩ := List.mem_map.mp hq
      unfold contribution
      split <;> rfl
    rw [List.map_congr_left hzero, hdata]
    simp [Add.ofBlobs]
  · have hpart : ∀ i', S.contribution j i (Worker.newMsg (S.node w) msg.type msg i' (S.part a i').blobs) =
        if i' = j then S.effect (S.offset j + i) a else 0 := by
      intro i'
      have hdst : (Worker.newMsg (S.node w) msg.type msg i' (S.part a i').blobs).dst =
          S.serverIdToRank i' := rfl
      have hblobs : (Worker.newMsg (S.node w) msg.type msg i' (S.part a i').blobs).data =
          (S.part a i').blobs := rfl
      rw [contribution, hdst, hblobs, Add.ofBlobs_blobs, Option.map_some, Option.getD_some]
      by_cases heq : i' = j
      · subst heq
        rw [if_pos rfl, if_pos rfl, S.effect_part hi]
      · rw [if_neg fun h => heq (S.injective h), if_neg heq]
    have hcount : (S.order w).count (j : ℕ) = 1 := by
      rw [(S.perm w).count_eq, List.count_eq_one_of_mem List.nodup_range (List.mem_range.mpr j.isLt)]
    rw [S.requests_add hlen htype hdata, List.map_map, hdata, Add.ofBlobs_blobs, Option.map_some,
      Option.getD_some]
    have hmap : (S.order w).map (S.contribution j i ∘ fun i' =>
        Worker.newMsg (S.node w) msg.type msg i' (S.part a i').blobs) =
        (S.order w).map fun i' => if i' = (j : ℕ) then S.effect (S.offset j + i) a else 0 :=
      List.map_congr_left fun i' _ => hpart i'
    rw [hmap, List.sum_map_ite_eq, hcount]
    simp

theorem sum_calls {i : ℕ} {calls : List (Message (Blob T))} (h : ∀ msg ∈ calls, S.Legit msg)
    (hi : i < S.share j) : ((calls.flatMap (Worker.requests (S.node w))).map (S.contribution j i)).sum =
      ((calls.filterMap fun msg => Add.ofBlobs msg.data).map (S.effect (S.offset j + i))).sum := by
  induction calls with
  | nil => rfl
  | cons msg calls ih =>
    rw [List.flatMap_cons, List.map_append, List.sum_append, S.sum_requests (h msg List.mem_cons_self) hi,
      ih fun q hq => h q (List.mem_cons_of_mem _ hq), List.filterMap_cons]
    cases Add.ofBlobs msg.data with
    | none => simp
    | some a => simp

/-- In a quiet state each server has its slice of the table with all Adds. -/
theorem storage_eq (h : S.Inv c) (hq : Quiet c) (j : Fin n) :
    (c.servers j).storage = slice S.share (S.table c) j := by
  obtain ⟨-, -, -, hlen⟩ := h.server j
  have htable : (S.table c).length = S.size := by simp [table]
  refine List.ext_getElem? fun i => ?_
  rcases lt_or_ge i (S.share j) with hi | hi
  · have hle : Blocks.offset S.share (j + 1) ≤ S.size := offset_le S.pos j.isLt
    rw [Blocks.offset_succ] at hle
    have hlt : S.offset j + i < S.size := (Nat.add_lt_add_left hi _).trans_le hle
    rw [h.sum j i hi, getElem?_slice hi, table, List.getElem?_map, List.getElem?_range hlt, Option.map_some]
    congr 2
    refine Finset.sum_congr rfl fun w _ => ?_
    obtain ⟨popped, hinv⟩ := h.worker w
    have hperm := (Worker.replied_perm hinv (hq w)).map (S.contribution j i)
    rw [List.map_map] at hperm
    exact hperm.sum_eq.trans (S.sum_calls (h.legit w) hi)
  · have hslice : (slice S.share (S.table c) j).length = S.share j :=
      length_slice (htable.trans (offset_share_last S.pos).symm) j.isLt
    rw [List.getElem?_eq_none (hlen.trans_le hi), List.getElem?_eq_none (hslice.trans_le hi)]

end Ring

end ArraySystem
end Hpps.Table

import Hpps.Frame.Message
import Hpps.Lib.Rows

/-! Registration: the controller hands out worker and server ids in the order of arrival, and every
node inverts the table it is sent. -/
namespace Hpps.Frame

inductive Role
  | NONE
  | WORKER
  | SERVER
  | ALL
  deriving DecidableEq, Repr

def Role.toInt : Role → ℤ
  | NONE => 0
  | WORKER => 1
  | SERVER => 2
  | ALL => 3

structure Node where
  rank : ℤ := -1
  role : ℤ := -1
  workerId : ℤ := -1
  serverId : ℤ := -1
  deriving DecidableEq, Repr

namespace Node

def isWorker (role : ℤ) : Bool := Int.land role Role.WORKER.toInt ≠ 0

def isServer (role : ℤ) : Bool := Int.land role Role.SERVER.toInt ≠ 0

/-- The four ints of a node, as they stand in a blob. -/
def toInts (node : Node) : List ℤ := [node.rank, node.role, node.workerId, node.serverId]

theorem length_toInts {node : Node} : node.toInts.length = 4 := rfl

def ofInts : List ℤ → Except Stop Node
  | rank :: role :: workerId :: serverId :: _ => .ok ⟨rank, role, workerId, serverId⟩
  | _ => .error .memory

end Node

structure RegisterController where
  numRegistered : ℕ
  numServer : ℕ
  numWorker : ℕ
  allNodes : List Node
  deriving DecidableEq, Repr

namespace RegisterController

def new (size : ℕ) : RegisterController := ⟨0, 0, 0, List.replicate size {}⟩

/-- The new state and the replies that are sent, rank 0 last. -/
def control (size : ℕ) (c : RegisterController) (msg : Message (List ℤ)) :
    Except Stop (RegisterController × List (Message (List ℤ))) := do
  let blob ← match msg.data with
    | [blob] => .ok blob
    | _ => .error .check
  if msg.src < c.allNodes.length ∧ 0 ≤ msg.src then
    let node ← Node.ofInts blob
    let (node, numWorker) := if Node.isWorker node.role
      then ({ node with workerId := c.numWorker }, c.numWorker + 1) else (node, c.numWorker)
    let (node, numServer) := if Node.isServer node.role
      then ({ node with serverId := c.numServer }, c.numServer + 1) else (node, c.numServer)
    let c := ⟨c.numRegistered + 1, numServer, numWorker, c.allNodes.set msg.src.toNat node⟩
    let info := c.allNodes.flatMap Node.toInts
    let count : List ℤ := [c.numWorker, c.numServer]
    return (c, if c.numRegistered = size then (List.range size).reverse.map fun i : ℕ =>
      { src := kController, dst := (i : ℤ), type := .Control_Reply_Register, data := [info, count] } else [])
  else .error .check

/-- The replies to each of the messages, in the order in which they arrive. -/
def run (size : ℕ) (c : RegisterController) :
    List (Message (List ℤ)) → Except Stop (RegisterController × List (List (Message (List ℤ))))
  | [] => .ok (c, [])
  | msg :: msgs => do
    let (c, replies) ← c.control size msg
    let (c, rest) ← run size c msgs
    return (c, replies :: rest)

end RegisterController

/-- What a node knows of the system. -/
structure Zoo where
  nodes : List Node
  numWorkers : ℤ
  numServers : ℤ
  workerIdToRank : List ℤ
  serverIdToRank : List ℤ
  deriving DecidableEq, Repr

namespace Zoo

/-- The request that the node of this rank sends. -/
def registerMsg (rank : ℕ) (role : Role) : Message (List ℤ) where
  src := rank
  dst := kController
  type := .Control_Register
  data := [({ rank := rank, role := role.toInt } : Node).toInts]

/-- `ids[id] = rank` unless the node has no such id. -/
def place (ids : List ℤ) (id rank : ℤ) : Except Stop (List ℤ) :=
  if id = -1 then .ok ids
  else if 0 ≤ id ∧ id < ids.length then .ok (ids.set id.toNat rank)
  else .error .memory

/-- The loop over the nodes. -/
def invert (ids : List ℤ × List ℤ) (nodes : List Node) : Except Stop (List ℤ × List ℤ) :=
  nodes.foldlM (fun ids node => do
    let workerIdToRank ← place ids.1 node.workerId node.rank
    let serverIdToRank ← place ids.2 node.serverId node.rank
    return (workerIdToRank, serverIdToRank)) ids

/-- What the node makes of the reply. -/
def registerNode (size : ℕ) (msg : Message (List ℤ)) : Except Stop Zoo := do
  if msg.type = .Control_Reply_Register then
    let (info, count) ← match msg.data with
      | [info, count] => .ok (info, count)
      | _ => .error .check
    let (numWorkers, numServers) ← match count with
      | numWorkers :: numServers :: _ => .ok (numWorkers, numServers)
      | _ => .error .memory
    if info.length = size * 4 then
      let nodes ← (List.range size).mapM fun i => Node.ofInts (Rows.row 4 info i)
      let (workerIdToRank, serverIdToRank) ← invert
        (List.replicate numWorkers.toNat 0, List.replicate numServers.toNat 0) nodes
      return { nodes, numWorkers, numServers, workerIdToRank, serverIdToRank }
    else .error .check
  else .error .check

def rankToWorkerId (z : Zoo) (rank : ℕ) : ℤ := (z.nodes.getD rank {}).workerId

def rankToServerId (z : Zoo) (rank : ℕ) : ℤ := (z.nodes.getD rank {}).serverId

end Zoo

namespace Registration

open RegisterController

variable {roles : List Role} {done l : List ℕ} {r i k : ℕ} {p : ℕ → Bool} {numWorkers numServers : ℤ}

/-- An id is the place in the list of those who got one. -/
def idIn (l : List ℕ) (r : ℕ) : ℤ := if r ∈ l then (l.idxOf r : ℤ) else -1

def roleAt (roles : List Role) (r : ℕ) : ℤ := (roles.getD r .NONE).toInt

def workers (roles : List Role) (done : List ℕ) : List ℕ :=
  done.filter fun r => Node.isWorker (roleAt roles r)

def servers (roles : List Role) (done : List ℕ) : List ℕ :=
  done.filter fun r => Node.isServer (roleAt roles r)

def entry (roles : List Role) (done : List ℕ) (r : ℕ) : Node :=
  if r ∈ done then ⟨r, roleAt roles r, idIn (workers roles done) r, idIn (servers roles done) r⟩ else {}

/-- The controller's table after the messages of the ranks in `done`. -/
def table (roles : List Role) (done : List ℕ) : List Node :=
  (List.range roles.length).map (entry roles done)

def after (roles : List Role) (done : List ℕ) : RegisterController :=
  ⟨done.length, (servers roles done).length, (workers roles done).length, table roles done⟩

def msgOf (roles : List Role) (r : ℕ) : Message (List ℤ) := Zoo.registerMsg r (roles.getD r .NONE)

/-- The message that every node is sent in the end. -/
def replyTo (roles : List Role) (done : List ℕ) (r : ℕ) : Message (List ℤ) where
  src := kController
  dst := r
  type := .Control_Reply_Register
  data := [(table roles done).flatMap Node.toInts,
    [((workers roles done).length : ℤ), ((servers roles done).length : ℤ)]]

theorem idIn_append_of_ne (h : i ≠ r) :
    idIn ((done ++ [r]).filter p) i = idIn (done.filter p) i := by
  have hnot : i ∉ [r].filter p := fun hi => h (List.mem_singleton.mp (List.mem_of_mem_filter hi))
  unfold idIn
  rw [List.filter_append]
  by_cases hi : i ∈ done.filter p
  · rw [if_pos (List.mem_append_left _ hi), if_pos hi, List.idxOf_append_of_mem hi]
  · rw [if_neg hi, if_neg]
    rw [List.mem_append]
    tauto

theorem idIn_append_self (h : r ∉ done) : idIn ((done ++ [r]).filter p) r =
    if p r then ((done.filter p).length : ℤ) else -1 := by
  have hnot : r ∉ done.filter p := fun hr => h (List.mem_of_mem_filter hr)
  unfold idIn
  rw [List.filter_append]
  cases hp : p r with
  | true =>
    have hs : [r].filter p = [r] := by simp [hp]
    rw [hs, if_pos (by simp), List.idxOf_append_of_notMem hnot]
    simp
  | false =>
    have hs : [r].filter p = [] := by simp [hp]
    rw [hs, List.append_nil, if_neg hnot]
    simp

theorem length_filter_append : ((done ++ [r]).filter p).length =
    if p r then (done.filter p).length + 1 else (done.filter p).length := by
  cases hp : p r <;> simp [List.filter_append, hp]

theorem entry_append_of_ne (h : i ≠ r) : entry roles (done ++ [r]) i = entry roles done i := by
  unfold entry workers servers
  rw [idIn_append_of_ne h, idIn_append_of_ne h]
  by_cases hi : i ∈ done
  · rw [if_pos hi, if_pos (List.mem_append_left _ hi)]
  · rw [if_neg hi, if_neg]
    simp [hi, h]

theorem set_table (roles : List Role) (done : List ℕ) (r : ℕ) :
    (table roles done).set r (entry roles (done ++ [r]) r) = table roles (done ++ [r]) := by
  apply List.ext_getElem
  · simp [table]
  · intro j hj hj'
    rw [List.getElem_set]
    by_cases hjr : r = j
    · subst hjr
      simp [table]
    · simp [table, hjr, entry_append_of_ne (Ne.symm hjr)]

/-- Handling one message. -/
theorem control_after (hr : r < roles.length) (hnew : r ∉ done) :
    (after roles done).control roles.length (msgOf roles r) = .ok (after roles (done ++ [r]),
      if done.length + 1 = roles.length
        then (List.range roles.length).reverse.map (replyTo roles (done ++ [r])) else []) := by
  have hentry : entry roles (done ++ [r]) r = ⟨r, roleAt roles r,
      if Node.isWorker (roleAt roles r) then ((workers roles done).length : ℤ) else -1,
      if Node.isServer (roleAt roles r) then ((servers roles done).length : ℤ) else -1⟩ := by
    rw [entry, if_pos (by simp), workers, idIn_append_self hnew, servers, idIn_append_self hnew]
    rfl
  have hwlen : (workers roles (done ++ [r])).length = if Node.isWorker (roleAt roles r)
      then (workers roles done).length + 1 else (workers roles done).length := length_filter_append
  have hslen : (servers roles (done ++ [r])).length = if Node.isServer (roleAt roles r)
      then (servers roles done).length + 1 else (servers roles done).length := length_filter_append
  have htable := set_table roles done r
  have hlen : (table roles done).length = roles.length := by simp [table]
  have hrole : (roles.getD r .NONE).toInt = roleAt roles r := rfl
  have hsrc : (r : ℤ) < ((table roles done).length : ℤ) ∧ (0 : ℤ) ≤ r := by rw [hlen]; omega
  have hreplies : replyTo roles (done ++ [r]) = fun i : ℕ => ⟨kController, (i : ℤ), .Control_Reply_Register,
      0, 0, [(table roles (done ++ [r])).flatMap Node.toInts,
        [((workers roles (done ++ [r])).length : ℤ), ((servers roles (done ++ [r])).length : ℤ)]]⟩ := rfl
  have hafter : after roles (done ++ [r]) = ⟨done.length + 1, (servers roles (done ++ [r])).length,
      (workers roles (done ++ [r])).length, table roles (done ++ [r])⟩ := by
    rw [after, List.length_append, List.length_singleton]
  rw [hafter, hreplies, ← htable, hentry, hwlen, hslen]
  simp only [RegisterController.control, after, msgOf, Zoo.registerMsg, Node.toInts, ok_bind, Node.ofInts, hrole,
    if_pos hsrc, Int.toNat_natCast]
  cases hw : Node.isWorker (roleAt roles r) <;> cases hs : Node.isServer (roleAt roles r) <;>
    simp [hs] <;> rfl

/-- Every message but the last leaves the controller silent. -/
theorem run_after {rest : List ℕ} (roles : List Role) (done : List ℕ) (h : (done ++ rest).Nodup)
    (hlt : ∀ r ∈ rest, r < roles.length) :
    run roles.length (after roles done) (rest.map (msgOf roles)) = .ok (after roles (done ++ rest),
      (List.range rest.length).map fun i => if done.length + i + 1 = roles.length
        then (List.range roles.length).reverse.map (replyTo roles (done ++ rest.take (i + 1))) else []) := by
  induction rest generalizing done with
  | nil => simp [run]
  | cons r rest ih =>
    have hnew : r ∉ done := fun hr => (List.nodup_append.mp h).2.2 r hr r List.mem_cons_self rfl
    have hsplit : done ++ r :: rest = done ++ [r] ++ rest := by simp
    have ih := @ih (done ++ [r]) (hsplit ▸ h) fun i hi => hlt i (List.mem_cons_of_mem _ hi)
    rw [List.map_cons, run, control_after (hlt r List.mem_cons_self) hnew, ok_bind]
    dsimp only
    rw [ih, ok_bind, hsplit, List.length_cons, List.range_succ_eq_map, List.map_cons, List.map_map]
    simp only [Nat.add_zero, Nat.zero_add, List.take_succ_cons, List.take_zero, List.length_append,
      List.length_singleton]
    congr 4
    funext i
    simp only [Function.comp_apply, Nat.succ_eq_add_one, List.append_assoc, List.singleton_append,
      Nat.add_assoc, Nat.add_comm 1]

/-- The list of ranks while the ranks below `k` are filled in. -/
def ranksBelow (l : List ℕ) (k : ℕ) : List ℤ := l.map fun r => if r < k then (r : ℤ) else 0

theorem place_ranksBelow (h : l.Nodup) :
    Zoo.place (ranksBelow l k) (idIn l k) k = .ok (ranksBelow l (k + 1)) := by
  unfold Zoo.place idIn
  by_cases hk : k ∈ l
  · have hlt : l.idxOf k < l.length := List.idxOf_lt_length_of_mem hk
    have hlt' : (0 : ℤ) ≤ l.idxOf k ∧ (l.idxOf k : ℤ) < (ranksBelow l k).length := by
      simp only [ranksBelow, List.length_map]
      omega
    rw [if_pos hk, if_neg (by omega), if_pos hlt', Int.toNat_natCast]
    congr 1
    apply List.ext_getElem
    · simp [ranksBelow]
    · intro j hj hj'
      simp only [ranksBelow, List.length_map] at hj'
      rw [List.getElem_set]
      by_cases hjk : l.idxOf k = j
      · subst hjk
        simp [ranksBelow]
      · have hne : l[j] ≠ k := fun he => hjk (he ▸ h.idxOf_getElem j hj')
        have hiff : l[j] ≤ k ↔ l[j] < k := by omega
        simp [ranksBelow, hjk, hiff]
  · rw [if_neg hk, if_pos rfl]
    congr 1
    apply List.map_congr_left
    intro r hr
    have hne : r ≠ k := fun he => hk (he ▸ hr)
    have hiff : r ≤ k ↔ r < k := by omega
    simp [hiff]

theorem ranksBelow_zero : ranksBelow l 0 = List.replicate l.length 0 := by
  simp [ranksBelow, List.map_const']

theorem ranksBelow_of_lt (h : ∀ r ∈ l, r < k) : ranksBelow l k = l.map fun r : ℕ => (r : ℤ) :=
  List.map_congr_left fun r hr => if_pos (h r hr)

theorem invert_entries (roles : List Role) (h : done.Nodup) (hall : ∀ r < k, r ∈ done) :
    Zoo.invert (List.replicate (workers roles done).length 0, List.replicate (servers roles done).length 0)
      ((List.range k).map (entry roles done)) =
        .ok (ranksBelow (workers roles done) k, ranksBelow (servers roles done) k) := by
  induction k with
  | zero => rw [ranksBelow_zero, ranksBelow_zero]; rfl
  | succ k ih =>
    have ih := ih fun r hr => hall r (by omega)
    unfold Zoo.invert at ih ⊢
    rw [List.range_succ, List.map_append, List.foldlM_append, ih, ok_bind]
    have hentry : entry roles done k =
        ⟨k, roleAt roles k, idIn (workers roles done) k, idIn (servers roles done) k⟩ :=
      if_pos (hall k (by omega))
    have hw : (workers roles done).Nodup := h.filter _
    have hs : (servers roles done).Nodup := h.filter _
    simp only [List.map_cons, List.map_nil, List.foldlM_cons, List.foldlM_nil, hentry,
      place_ranksBelow hw, place_ranksBelow hs, ok_bind]
    rfl

theorem mapM_eq_ok {α β : Type} {f : α → Except Stop β} {g : α → β} {as : List α}
    (h : ∀ a ∈ as, f a = .ok (g a)) : as.mapM f = .ok (as.map g) := by
  induction as with
  | nil => rfl
  | cons a as ih =>
    simp only [List.forall_mem_cons] at h
    rw [List.mapM_cons, h.1, ok_bind, ih h.2]
    rfl

theorem nodes_of_ints : ((List.range roles.length).mapM fun i =>
    Node.ofInts (Rows.row 4 ((table roles done).flatMap Node.toInts) i)) = .ok (table roles done) := by
  refine mapM_eq_ok fun i hi => ?_
  have hi : i < (table roles done).length := by simpa [table] using hi
  rw [Rows.row_flatMap (fun _ _ => Node.length_toInts) hi]
  simp [table, Node.toInts, Node.ofInts]

/-- What every node knows in the end. -/
def finalZoo (roles : List Role) (done : List ℕ) : Zoo where
  nodes := table roles done
  numWorkers := (workers roles done).length
  numServers := (servers roles done).length
  workerIdToRank := (workers roles done).map fun r : ℕ => (r : ℤ)
  serverIdToRank := (servers roles done).map fun r : ℕ => (r : ℤ)

theorem registerNode_replyTo (h : done.Nodup) (hall : ∀ r < roles.length, r ∈ done)
    (hlt : ∀ r ∈ done, r < roles.length) (i : ℕ) :
    Zoo.registerNode roles.length (replyTo roles done i) = .ok (finalZoo roles done) := by
  have hlen : ((table roles done).flatMap Node.toInts).length = roles.length * 4 := by
    rw [Rows.length_flatMap fun _ _ => Node.length_toInts]
    simp [table]
  have hw : ranksBelow (workers roles done) roles.length = (workers roles done).map fun r : ℕ => (r : ℤ) :=
    ranksBelow_of_lt fun r hr => hlt r (List.mem_of_mem_filter hr)
  have hs : ranksBelow (servers roles done) roles.length = (servers roles done).map fun r : ℕ => (r : ℤ) :=
    ranksBelow_of_lt fun r hr => hlt r (List.mem_of_mem_filter hr)
  have hinv := invert_entries roles h hall
  rw [hw, hs] at hinv
  change Zoo.invert _ (table roles done) = _ at hinv
  simp only [Zoo.registerNode, replyTo, if_true, ok_bind, hlen, nodes_of_ints, Int.toNat_natCast, hinv]
  rfl

/-- The ids of the ranks that have them are `0, 1, …`, and `rankOf` is the inverse of `idOf`. -/
structure Inverse (n : ℕ) (has : ℕ → Bool) (idOf : ℕ → ℤ) (rankOf : List ℤ) : Prop where
  rankOf_idOf : ∀ r < n, has r = true → ∃ i < rankOf.length, idOf r = i ∧ rankOf[i]? = some (r : ℤ)
  idOf_rankOf : ∀ i < rankOf.length, ∃ r < n, has r = true ∧ rankOf[i]? = some (r : ℤ) ∧ idOf r = i
  idOf_eq_neg_one_iff : ∀ r < n, idOf r = -1 ↔ has r = false

theorem inverse_idIn {n : ℕ} {idOf : ℕ → ℤ} (h : l.Nodup) (hlt : ∀ r ∈ l, r < n)
    (hmem : ∀ r < n, r ∈ l ↔ p r = true) (hid : ∀ r < n, idOf r = idIn l r) :
    Inverse n p idOf (l.map fun r : ℕ => (r : ℤ)) where
  rankOf_idOf r hr hp := by
    have hrl := (hmem r hr).mpr hp
    have hi := List.idxOf_lt_length_of_mem hrl
    refine ⟨l.idxOf r, by rwa [List.length_map], by rw [hid r hr, idIn, if_pos hrl], ?_⟩
    simp [hi]
  idOf_rankOf i hi := by
    rw [List.length_map] at hi
    have hmem' : l[i] ∈ l := List.getElem_mem hi
    have hr := hlt _ hmem'
    refine ⟨l[i], hr, (hmem _ hr).mp hmem', by simp [hi], ?_⟩
    rw [hid _ hr, idIn, if_pos hmem', h.idxOf_getElem i hi]
  idOf_eq_neg_one_iff r hr := by
    rw [hid r hr, idIn, ← Bool.not_eq_true, ← hmem r hr]
    by_cases hrl : r ∈ l
    · rw [if_pos hrl]
      constructor
      · intro h
        omega
      · intro h
        exact absurd hrl h
    · simp [hrl]

theorem after_nil : RegisterController.new roles.length = after roles [] := by
  have htable : table roles [] = List.replicate roles.length {} := by
    have he : entry roles [] = fun _ => {} := funext fun r => if_neg List.not_mem_nil
    rw [table, he, List.map_const', List.length_range]
  rw [RegisterController.new, after, htable]
  rfl

def isWorkerAt (roles : List Role) (r : ℕ) : Bool := Node.isWorker (roleAt roles r)

def isServerAt (roles : List Role) (r : ℕ) : Bool := Node.isServer (roleAt roles r)

section Complete

variable {order : List ℕ} (ho : order.Perm (List.range roles.length))
include ho

theorem nodup_order : order.Nodup := ho.nodup_iff.mpr List.nodup_range

theorem mem_order : r ∈ order ↔ r < roles.length := ho.mem_iff.trans List.mem_range

/-- Only the last message is answered, with a reply to each node. -/
theorem run_order (hn : roles ≠ []) :
    run roles.length (RegisterController.new roles.length) (order.map (msgOf roles)) = .ok (after roles order,
      List.replicate (roles.length - 1) [] ++ [(List.range roles.length).reverse.map (replyTo roles order)]) := by
  have hlen : order.length = roles.length := ho.length_eq.trans List.length_range
  have hrun := run_after roles [] (nodup_order ho) fun r hr => (mem_order ho).mp hr
  rw [List.nil_append, ← after_nil, hlen] at hrun
  refine hrun.trans ?_
  obtain ⟨m, hm⟩ : ∃ m, roles.length = m + 1 :=
    ⟨roles.length - 1, by have := List.length_pos_iff.mpr hn; omega⟩
  have htake : order.take (m + 1) = order := List.take_of_length_le (by omega)
  rw [hm, List.range_succ, List.map_append, List.map_cons, List.map_nil, List.nil_append, htake]
  simp only [List.length_nil, Nat.zero_add, if_true, Nat.add_sub_cancel]
  rw [List.map_congr_left (g := fun _ => []), List.map_const', List.length_range]
  intro i hi
  rw [List.mem_range] at hi
  exact if_neg (by omega)

theorem registerNode_order (i : ℕ) : Zoo.registerNode roles.length (replyTo roles order i) = .ok (finalZoo roles order) :=
  registerNode_replyTo (nodup_order ho) (fun _ hr => (mem_order ho).mpr hr) (fun _ hr => (mem_order ho).mp hr) i

/-- All nodes make the same of the replies. -/
theorem eq_finalZoo (hn : roles ≠ []) {c : RegisterController} {replies : List (List (Message (List ℤ)))}
    {reply : Message (List ℤ)} {z : Zoo}
    (hrun : run roles.length (RegisterController.new roles.length) (order.map (msgOf roles)) = .ok (c, replies))
    (hreply : reply ∈ replies.flatten) (hz : Zoo.registerNode roles.length reply = .ok z) : z = finalZoo roles order := by
  rw [run_order ho hn] at hrun
  cases hrun
  have hmem : reply ∈ (List.range roles.length).reverse.map (replyTo roles order) := by simpa using hreply
  obtain ⟨i, -, rfl⟩ := List.mem_map.mp hmem
  rw [registerNode_order ho] at hz
  cases hz
  rfl

theorem getElem?_nodes (hr : r < roles.length) : (finalZoo roles order).nodes[r]? = some
    ⟨r, roleAt roles r, idIn (workers roles order) r, idIn (servers roles order) r⟩ := by
  have he : entry roles order r =
      ⟨r, roleAt roles r, idIn (workers roles order) r, idIn (servers roles order) r⟩ :=
    if_pos ((mem_order ho).mpr hr)
  simp [finalZoo, table, hr, he]

theorem inverse_workers : Inverse roles.length (isWorkerAt roles) (finalZoo roles order).rankToWorkerId
    (finalZoo roles order).workerIdToRank := by
  refine inverse_idIn ((nodup_order ho).filter _) (fun r hr => (mem_order ho).mp (List.mem_of_mem_filter hr)) ?_ ?_
  · intro r hr
    rw [workers, List.mem_filter, and_iff_right ((mem_order ho).mpr hr)]
    rfl
  · intro r hr
    rw [Zoo.rankToWorkerId, List.getD_eq_getElem?_getD, getElem?_nodes ho hr, Option.getD_some]

theorem inverse_servers : Inverse roles.length (isServerAt roles) (finalZoo roles order).rankToServerId
    (finalZoo roles order).serverIdToRank := by
  refine inverse_idIn ((nodup_order ho).filter _) (fun r hr => (mem_order ho).mp (List.mem_of_mem_filter hr)) ?_ ?_
  · intro r hr
    rw [servers, List.mem_filter, and_iff_right ((mem_order ho).mpr hr)]
    rfl
  · intro r hr
    rw [Zoo.rankToServerId, List.getD_eq_getElem?_getD, getElem?_nodes ho hr, Option.getD_some]

end Complete

/-- Whatever the roles and the order of arrival, all nodes end with the same consistent ids. -/
theorem registration_consistent {order : List ℕ} (hn : roles ≠ [])
    (ho : order.Perm (List.range roles.length)) :
    ∃ c replies z, run roles.length (RegisterController.new roles.length) (order.map (msgOf roles)) =
        .ok (c, List.replicate (roles.length - 1) [] ++ [replies]) ∧
      replies.map Message.dst = (List.range roles.length).reverse.map (fun r : ℕ => (r : ℤ)) ∧
      (∀ reply ∈ replies, Zoo.registerNode roles.length reply = .ok z) ∧
      z.nodes.length = roles.length ∧
      (∀ r < roles.length, ∃ node, z.nodes[r]? = some node ∧ node.rank = r ∧
        node.role = roleAt roles r) ∧
      z.numWorkers = (List.range roles.length).countP (isWorkerAt roles) ∧
      z.numServers = (List.range roles.length).countP (isServerAt roles) ∧
      z.numWorkers = z.workerIdToRank.length ∧ z.numServers = z.serverIdToRank.length ∧
      Inverse roles.length (isWorkerAt roles) z.rankToWorkerId z.workerIdToRank ∧
      Inverse roles.length (isServerAt roles) z.rankToServerId z.serverIdToRank := by
  refine ⟨after roles order, (List.range roles.length).reverse.map (replyTo roles order), finalZoo roles order,
    run_order ho hn, by simp [replyTo, Function.comp_def], ?_, by simp [finalZoo, table], ?_, ?_, ?_,
    by simp [finalZoo], by simp [finalZoo], inverse_workers ho, inverse_servers ho⟩
  · intro reply hreply
    obtain ⟨i, -, rfl⟩ := List.mem_map.mp hreply
    exact registerNode_order ho i
  · intro r hr
    exact ⟨_, getElem?_nodes ho hr, rfl, rfl⟩
  · rw [← ho.countP_eq, List.countP_eq_length_filter]
    rfl
  · rw [← ho.countP_eq, List.countP_eq_length_filter]
    rfl

theorem registration_consistent_three : ∃ c replies z,
    run 3 (RegisterController.new 3) ([2, 0, 1].map (msgOf [.ALL, .NONE, .WORKER])) =
      .ok (c, [[], [], replies]) ∧ (∀ reply ∈ replies, Zoo.registerNode 3 reply = .ok z) ∧
    Inverse 3 (isWorkerAt [.ALL, .NONE, .WORKER]) z.rankToWorkerId z.workerIdToRank := by
  have horder : [2, 0, 1].Perm (List.range [Role.ALL, .NONE, .WORKER].length) := by decide
  obtain ⟨c, replies, z, hrun, -, hz, -, -, -, -, -, -, hw, -⟩ :=
    registration_consistent (List.cons_ne_nil _ _) horder
  exact ⟨c, replies, z, hrun, hz, hw⟩

end Registration
end Hpps.Frame

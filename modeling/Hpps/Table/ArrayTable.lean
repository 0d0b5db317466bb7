import Hpps.Frame.Worker
import Hpps.Lib.Blocks

/-! The array table: a worker cuts an Add into slices, and each server updates its slice. -/
namespace Hpps.Table

open Hpps.Frame

/-- The updaters read no other number of an option than the learning rate. -/
structure AddOption (T : Type) where
  learningRate : T
  deriving DecidableEq

/-- What the blobs of a request encode. -/
inductive Content (T O : Type)
  | key (k : ℤ)
  | values (vs : List T)
  | option (o : O)
  | uri (s : String)
  deriving DecidableEq

abbrev Blob (T : Type) := Content T (AddOption T)

instance {T : Type} [DecidableEq T] : DecidableEq (Blob T) := inferInstanceAs (DecidableEq (Content T (AddOption T)))

/-- The name of a server's checkpoint file. -/
def modelFile {T : Type} : Blob T → ℕ → Blob T
  | .uri s, i => .uri (s ++ "." ++ toString i)
  | blob, _ => blob

/-- The updater of a server. -/
inductive Solver
  | default
  | sgd
  deriving DecidableEq, Repr

/-- `static_cast<integer_t>`. -/
def toInteger (n : ℕ) : ℤ := (Int32.ofNat n).toInt

/-- An int that is stored as a `size_t`. -/
def toSize (z : ℤ) : ℕ := (z % 2 ^ 64).toNat

structure ArrayWorker where
  size : ℕ
  numServer : ℕ
  serverOffsets : List ℕ
  deriving DecidableEq, Repr

namespace ArrayWorker

variable {T O : Type} (w : ArrayWorker)

/-- Without servers the process ends with the division by zero. -/
def new (size numServers : ℕ) : Except Stop ArrayWorker :=
  if numServers < size then
    if numServers = 0 then .error .fatal
    else
      let length := (toInteger size).tdiv numServers
      .ok ⟨size, numServers,
        0 :: ((List.range' 1 (numServers - 1)).map fun i : ℕ => toSize (i * length)) ++ [size]⟩
  else .error .check

/-- The request of `GetAsync`. The pointer `data_` that the call sets as well is part of the state of a
cluster. -/
def getAsync : Call (Blob T) := .getAsync (.key (-1)) none

def addAsync (data : List T) (option : Option (AddOption T)) : Except Stop (Call (Blob T)) :=
  if data.length = w.size then .ok (.addAsync (.key (-1)) (.values data) (option.map .option))
  else .error .check

/-- Where the slice of server `i` begins, and its length. -/
def bounds (i : ℕ) : Except Stop (ℕ × ℕ) :=
  match w.serverOffsets[i]?, w.serverOffsets[i + 1]? with
  | some first, some last => .ok (first, toSize ((last : ℤ) - first))
  | _, _ => .error .memory

def slice (vs : List T) (i : ℕ) : Except Stop (List T) := do
  let (first, len) ← w.bounds i
  fetch vs first len

/-- `order` is the order in which the map `out` is iterated. -/
def Partition (order : List ℕ) : List (Content T O) → Except Stop (ℕ × List (ℕ × List (Content T O)))
  | [key] => .ok (w.numServer, order.map fun i => (i, [key]))
  | key :: .values vs :: option =>
    if option.length ≤ 1 ∧ vs.length = w.size then do
      let out ← order.mapM fun i =>
        (w.slice vs i).map fun blob => (i, key :: .values blob :: option)
      return (w.numServer, out)
    else .error .check
  | _ => .error .check

def ProcessReplyGet (data : List T) : List (Blob T) → Except Stop (List T)
  | [.key id, .values vs] =>
    if 0 ≤ id then do
      let (first, len) ← w.bounds id.toNat
      if vs.length = len then memcpy data first vs else .error .check
    else .error .memory
  | _ => .error .check

theorem mapM_eq_ok {α γ : Type} {f : α → Except Stop γ} {l : List α} {out : List γ} :
    l.mapM f = .ok out ↔ List.Forall₂ (fun a c => f a = .ok c) l out := by
  induction l generalizing out with
  | nil =>
    rw [List.mapM_nil]
    exact ⟨fun h => by cases h; exact .nil, fun h => by cases h; rfl⟩
  | cons a l ih =>
    rw [List.mapM_cons, bind_eq_ok]
    constructor
    · rintro ⟨c, hc, h⟩
      obtain ⟨rest, hrest, h⟩ := bind_eq_ok.mp h
      cases h
      exact .cons hc (ih.mp hrest)
    · rintro (_ | ⟨hc, hrest⟩)
      exact ⟨_, hc, bind_eq_ok.mpr ⟨_, ih.mpr hrest, rfl⟩⟩

theorem map_fst_of_slices {order : List ℕ} {vs : List T} {key : Content T O} {option : List (Content T O)}
    {out : List (ℕ × List (Content T O))}
    (h : List.Forall₂ (fun i it => (w.slice vs i).map (fun blob => (i, key :: .values blob :: option)) = .ok it)
      order out) : out.map Prod.fst = order := by
  induction h with
  | nil => rfl
  | @cons i it _ _ hi _ ih =>
    cases hs : w.slice vs i with
    | error e =>
      rw [hs] at hi
      cases hi
    | ok blob =>
      rw [hs] at hi
      cases hi
      rw [List.map_cons, ih]

theorem partition_spec {order : List ℕ} {kv : List (Content T O)} {num : ℕ} {out : List (ℕ × List (Content T O))}
    (h : w.Partition order kv = .ok (num, out)) : num = w.numServer ∧ out.map Prod.fst = order := by
  unfold Partition at h
  split at h
  · cases h
    exact ⟨rfl, by simp [Function.comp_def]⟩
  · split at h
    · obtain ⟨out', hout, h⟩ := bind_eq_ok.mp h
      cases h
      exact ⟨rfl, w.map_fst_of_slices (mapM_eq_ok.mp hout)⟩
    · cases h
  · cases h

/-- The array table of a worker, for an order in which the servers' blobs are iterated. -/
def table (order : List ℕ) (h : order.Perm (List.range w.numServer)) : WorkerTable (Blob T) (List T) where
  Partition kv _ := w.Partition order kv
  ProcessReplyGet := w.ProcessReplyGet
  num_eq hout := by
    obtain ⟨hnum, hfst⟩ := w.partition_spec hout
    rw [hnum, ← List.length_map (f := Prod.fst), hfst, h.length_eq, List.length_range]
  nodup hout := by
    rw [(w.partition_spec hout).2]
    exact h.nodup_iff.mpr List.nodup_range

end ArrayWorker

/-- The number of elements of server `i`. -/
def share (size numServers i : ℕ) : ℕ :=
  size / numServers + if i = numServers - 1 then size % numServers else 0

section Server

variable {T O σ : Type}

/-- `ProcessAdd` of a server with `size` elements. `update` is what its updater does with the values, given the
blobs behind them. -/
def serverProcessAdd (size : ℕ) (update : List T → List (Content T O) → Except Stop σ) :
    List (Content T O) → Except Stop σ
  | .key k :: .values vs :: rest => if k = -1 ∧ vs.length = size then update vs rest else .error .check
  | _ :: _ :: _ => .error .check
  | _ => .error .memory

def serverProcessGet (serverId : ℕ) (storage : List T) : List (Content T O) → Except Stop (List (Content T O))
  | .key k :: _ => if k = -1 then .ok [.key serverId, .values storage] else .error .check
  | _ :: _ => .error .check
  | [] => .error .memory

/-- What the async scheduler does with a message, and the blobs of its reply if there is one. -/
def serverHandle (processGet : List (Content T O) → Except Stop (List (Content T O)))
    (processAdd : List (Content T O) → Except Stop σ) (s : σ) (msg : Message (Content T O)) :
    Except Stop (σ × Option (List (Content T O))) :=
  if msg.type = .Request_Get then
    if msg.data.isEmpty then .ok (s, none) else do
      let data ← processGet msg.data
      return (s, some data)
  else if msg.type = .Request_Add then
    if msg.data.isEmpty then .ok (s, none) else do
      let s ← processAdd msg.data
      return (s, some [])
  else .error .fatal

variable {size serverId : ℕ} {update : List T → List (Content T O) → Except Stop σ} {storage : List T}
  {processGet : List (Content T O) → Except Stop (List (Content T O))}
  {processAdd : List (Content T O) → Except Stop σ} {data reply : List (Content T O)} {msg : Message (Content T O)}
  {s t : σ}

/-- The updater runs when the blobs pass the CHECKs. -/
theorem serverProcessAdd_ok (h : serverProcessAdd size update data = .ok t) :
    ∃ vs rest, data = .key (-1) :: .values vs :: rest ∧ vs.length = size ∧ update vs rest = .ok t := by
  unfold serverProcessAdd at h
  split at h
  · split at h
    · rename_i hvs
      obtain ⟨rfl, hlen⟩ := hvs
      exact ⟨_, _, rfl, hlen, h⟩
    · cases h
  · cases h
  · cases h

theorem serverProcessGet_ok (h : serverProcessGet serverId storage data = .ok reply) :
    reply = [.key serverId, .values storage] := by
  unfold serverProcessGet at h
  split at h
  · split at h <;> cases h
    rfl
  · cases h
  · cases h

/-- A message that gets a reply is a Get or an Add. -/
theorem serverHandle_ok (h : serverHandle processGet processAdd s msg = .ok (t, some reply)) :
    (msg.type = .Request_Get ∧ processGet msg.data = .ok reply ∧ t = s) ∨
      (msg.type = .Request_Add ∧ processAdd msg.data = .ok t ∧ reply = []) := by
  unfold serverHandle at h
  split_ifs at h with hget hempty hadd hempty
  · cases h
  · obtain ⟨data, hdata, h⟩ := bind_eq_ok.mp h
    cases h
    exact .inl ⟨hget, hdata, rfl⟩
  · cases h
  · obtain ⟨u, hu, h⟩ := bind_eq_ok.mp h
    cases h
    exact .inr ⟨hadd, hu, rfl⟩

end Server

structure ArrayServer (T : Type) where
  serverId : ℕ
  size : ℕ
  storage : List T
  solver : Solver

namespace ArrayServer

variable {T : Type}

/-- `gen` is what the random generator fills in. -/
def new (size numServers serverId : ℕ) (solver : Solver) (gen : ℕ → T) : ArrayServer T :=
  let size := share size numServers serverId
  ⟨serverId, size, (List.range size).map gen, solver⟩

/-- The updaters' step for one element. -/
def update [Ring T] (solver : Solver) (option : AddOption T) (data delta : T) : T :=
  match solver with
  | .default => data + delta
  | .sgd => data - delta * option.learningRate

/-- `rate` is the learning rate of an option that is not sent. -/
def processAdd [Ring T] (rate : T) (s : ArrayServer T) : List (Blob T) → Except Stop (ArrayServer T) :=
  serverProcessAdd s.size fun vs rest =>
    let option := match rest with
      | [.option o] => o
      | _ => ⟨rate⟩
    .ok { s with storage := List.zipWith (update s.solver option) s.storage vs }

def processGet (s : ArrayServer T) : List (Blob T) → Except Stop (List (Blob T)) :=
  serverProcessGet s.serverId s.storage

def handle [Ring T] (rate : T) (s : ArrayServer T) : Message (Blob T) →
    Except Stop (ArrayServer T × Option (List (Blob T))) :=
  serverHandle s.processGet (s.processAdd rate) s

end ArrayServer

/-! ### The worker's slices are the servers' shares -/

section Share

open Blocks Rows

variable {T : Type} {size n i : ℕ} {vs data : List T}

theorem offset_share (hi : i < n) : offset (share size n) i = i * (size / n) := by
  induction i with
  | zero => simp
  | succ i ih =>
    rw [offset_succ, ih (by omega), share, if_neg (by omega), Nat.succ_mul]
    rfl

theorem offset_share_last (hn : 0 < n) : offset (share size n) n = size := by
  obtain ⟨m, rfl⟩ : ∃ m, n = m + 1 := ⟨n - 1, by omega⟩
  have hdiv := Nat.div_add_mod size (m + 1)
  rw [Nat.succ_mul] at hdiv
  rw [offset_succ, offset_share (Nat.lt_succ_self m), share, if_pos (Nat.add_sub_cancel m 1).symm]
  rw [Nat.succ_eq_add_one]
  omega

theorem toInteger_eq (h : size < 2 ^ 31) : toInteger size = size := by
  rw [toInteger, Int32.toInt_ofNat_of_lt h]

theorem toSize_eq {k : ℕ} (h : k < 2 ^ 64) : toSize k = k := by
  rw [toSize]
  omega

/-- The worker that the table of `size` elements has. -/
def workerOf (size n : ℕ) : ArrayWorker :=
  ⟨size, n, (List.range (n + 1)).map (offset (share size n))⟩

theorem new_eq (hn : 0 < n) (hlt : n < size) (h31 : size < 2 ^ 31) :
    ArrayWorker.new size n = .ok (workerOf size n) := by
  obtain ⟨m, rfl⟩ : ∃ m, n = m + 1 := ⟨n - 1, by omega⟩
  unfold ArrayWorker.new
  rw [if_pos hlt, if_neg (by omega), toInteger_eq h31]
  have hoffsets : 0 :: ((List.range' 1 m).map fun i : ℕ =>
      toSize (i * (size : ℤ).tdiv ((m + 1 : ℕ) : ℤ))) ++ [size] =
      (List.range (m + 1 + 1)).map (offset (share size (m + 1))) := by
    rw [List.range_succ, List.map_append, List.map_singleton, offset_share_last hn, List.range_succ_eq_map,
      List.map_cons, List.map_map, List.range'_eq_map_range, List.map_map]
    congr 2
    refine List.map_congr_left fun i hi => ?_
    rw [List.mem_range] at hi
    simp only [Function.comp_apply, Nat.succ_eq_add_one]
    rw [offset_share (by omega), Nat.add_comm 1 i]
    have hle : (i + 1) * (size / (m + 1)) ≤ size :=
      (Nat.mul_le_mul_right _ (by omega : i + 1 ≤ m + 1)).trans (Nat.mul_div_le size (m + 1))
    have hcast : ((i + 1 : ℕ) : ℤ) * (size : ℤ).tdiv ((m + 1 : ℕ) : ℤ) =
        (((i + 1) * (size / (m + 1)) : ℕ) : ℤ) := by
      rw [Int.tdiv_eq_ediv_of_nonneg (by omega)]
      push_cast
      ring
    rw [hcast, toSize_eq (by omega)]
  simp only [Nat.add_sub_cancel, workerOf]
  rw [hoffsets]

theorem offset_le (hn : 0 < n) (hi : i ≤ n) : offset (share size n) i ≤ size :=
  (offset_mono hi).trans (offset_share_last hn).le

theorem bounds_eq (hn : 0 < n) (h64 : size < 2 ^ 64) (hi : i < n) :
    (workerOf size n).bounds i = .ok (offset (share size n) i, share size n i) := by
  have hget : ∀ j, j < n + 1 → (workerOf size n).serverOffsets[j]? = some (offset (share size n) j) := by
    intro j hj
    simp [workerOf, hj]
  have hle : offset (share size n) (i + 1) ≤ size := offset_le hn hi
  unfold ArrayWorker.bounds
  rw [hget i (by omega), hget (i + 1) (by omega)]
  rw [offset_succ] at hle ⊢
  dsimp only
  have hsub : ((offset (share size n) i + share size n i : ℕ) : ℤ) - (offset (share size n) i : ℕ) =
      (share size n i : ℕ) := by
    push_cast
    ring
  rw [hsub, toSize_eq (by omega)]

theorem slice_eq (hn : 0 < n) (h64 : size < 2 ^ 64) (hi : i < n) (hvs : vs.length = size) :
    (workerOf size n).slice vs i = .ok (slice (share size n) vs i) := by
  have hle : offset (share size n) (i + 1) ≤ size := offset_le hn hi
  rw [offset_succ] at hle
  rw [ArrayWorker.slice, bounds_eq hn h64 hi]
  change fetch vs _ _ = _
  rw [fetch, if_pos (by omega), slice]

/-- An Add sends every server its slice, and the option if there is one. -/
theorem partition_add {order : List ℕ} {key : Blob T} {option : List (Blob T)} (hn : 0 < n)
    (h64 : size < 2 ^ 64) (horder : ∀ i ∈ order, i < n) (hvs : vs.length = size)
    (hoption : option.length ≤ 1) : (workerOf size n).Partition order (key :: .values vs :: option) =
      .ok (n, order.map fun i => (i, key :: .values (slice (share size n) vs i) :: option)) := by
  have hout : (order.mapM fun i => ((workerOf size n).slice vs i).map
      fun blob => (i, key :: .values blob :: option)) =
      .ok (order.map fun i => (i, key :: .values (slice (share size n) vs i) :: option)) := by
    refine ArrayWorker.mapM_eq_ok.mpr ?_
    rw [List.forall₂_map_right_iff, List.forall₂_same]
    intro i hi
    rw [slice_eq hn h64 (horder i hi) hvs]
    rfl
  have hsize : (workerOf size n).size = size := rfl
  unfold ArrayWorker.Partition
  dsimp only
  rw [if_pos ⟨hoption, hvs.trans hsize.symm⟩, hout]
  rfl

/-- The buffer holds the table's values in the shares of the servers in `done`. -/
def Filled (size n : ℕ) (table data : List T) (done : List ℕ) : Prop :=
  data.length = size ∧ ∀ i ∈ done, ∀ k < share size n i,
    data[offset (share size n) i + k]? = table[offset (share size n) i + k]?

theorem processReplyGet_eq (hn : 0 < n) (h64 : size < 2 ^ 64) (hi : i < n) (hdata : data.length = size)
    (hvs : vs.length = share size n i) : (workerOf size n).ProcessReplyGet data [.key i, .values vs] =
      .ok (overwrite data (offset (share size n) i) vs) := by
  have hle : offset (share size n) (i + 1) ≤ size := offset_le hn hi
  rw [offset_succ] at hle
  unfold ArrayWorker.ProcessReplyGet
  dsimp only
  rw [if_pos (Int.natCast_nonneg i), Int.toNat_natCast, bounds_eq hn h64 hi]
  change (if vs.length = share size n i then memcpy data _ vs else _) = _
  rw [if_pos hvs, memcpy, if_pos (by omega)]

theorem length_processReplyGet {w : ArrayWorker} {kv : List (Blob T)} {d : List T}
    (h : w.ProcessReplyGet data kv = .ok d) : d.length = data.length := by
  unfold ArrayWorker.ProcessReplyGet at h
  split at h
  · split at h
    · obtain ⟨⟨first, len⟩, -, h⟩ := bind_eq_ok.mp h
      dsimp only at h
      split at h
      · obtain ⟨hroom, rfl⟩ := memcpy_eq_ok_iff.mp h
        exact length_overwrite hroom
      · cases h
    · cases h
  · cases h

theorem Filled.reply {table : List T} {done : List ℕ} (h : Filled size n table data done) (hn : 0 < n)
    (hi : i < n) (htable : table.length = size) :
    Filled size n table (overwrite data (offset (share size n) i) (slice (share size n) table i))
      (i :: done) := by
  have hle : offset (share size n) (i + 1) ≤ size := offset_le hn hi
  rw [offset_succ] at hle
  have hlen : (slice (share size n) table i).length = share size n i :=
    length_slice (htable.trans (offset_share_last hn).symm) hi
  have hroom : offset (share size n) i + (slice (share size n) table i).length ≤ data.length := by
    rw [hlen, h.1]
    exact hle
  refine ⟨(length_overwrite hroom).trans h.1, fun j hj k hk => ?_⟩
  rw [getElem?_overwrite hroom, hlen]
  split
  · rename_i hin
    rw [getElem?_slice (by omega)]
    congr 1
    omega
  · rename_i hout
    rcases List.mem_cons.mp hj with rfl | hj
    · omega
    · exact h.2 j hj k hk

/-- With the shares of all servers the buffer is the table. -/
theorem Filled.eq {table : List T} {done : List ℕ} (h : Filled size n table data done) (hn : 0 < n)
    (hdone : ∀ i < n, i ∈ done) (htable : table.length = size) : data = table := by
  refine List.ext_getElem? fun k => ?_
  rcases lt_or_ge k size with hk | hk
  · obtain ⟨i, hi, hle, hlt⟩ := exists_block (hk.trans_eq (offset_share_last hn).symm)
    have := h.2 i (hdone i hi) (k - offset (share size n) i) (by omega)
    rwa [Nat.add_sub_cancel' hle] at this
  · rw [List.getElem?_eq_none (h.1.trans_le hk), List.getElem?_eq_none (htable.trans_le hk)]

end Share

/-- A worker node with an array table of `size` elements. -/
def arrayNode (T : Type) (size n : ℕ) (rank : ℤ) (serverIdToRank : ℕ → ℤ)
    (injective : Function.Injective serverIdToRank) (order : List ℕ) (h : order.Perm (List.range n)) :
    WorkerNode (Blob T) (List T) where
  rank := rank
  numServers := n
  serverIdToRank := serverIdToRank
  injective := injective
  table := (workerOf size n).table order h
  modelFile := modelFile

end Hpps.Table

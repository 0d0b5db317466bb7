import Hpps.Kv.WorkerActor

/-! A distributed `Get` of a KV table: the servers' lookups, their replies and the local store. -/
namespace Hpps.Kv

open Rows KVStore

variable {ρ Val : Type}

section DistributedGet

variable [Zero Val] {R : Random ρ Val} {g : Garbage Val} {numServers valueLen : ℕ}
  {servers : ℕ → ServerTable ρ Val} {worker : KVStore Val} {keys order : List ℕ}
  {schedule : List Thread} {val val' : Tensor Val}

/-- The reply of a server to its part of the request. -/
def reply (R : Random ρ Val) (g : Garbage Val) (servers : ℕ → ServerTable ρ Val)
    (out : ℕ → Option (Blobs Val)) (dst : ℕ) : Except Stop (List ℕ × List Val) := do
  let some b := out dst | throw .check
  let (_, keys, vals) ← (servers dst).processGet R g b.keys
  return (keys, vals)

/-- The worker actor when all replies have come back, in the order `order`. -/
def replied (R : Random ρ Val) (g : Garbage Val) (numServers : ℕ) (servers : ℕ → ServerTable ρ Val)
    (worker : KVStore Val) (keys : List ℕ) (order : List ℕ) : Except Stop (WorkerActor Val) := do
  let (_, out) ← Partition.partition numServers worker.valueLen g keys none
  let mailbox ← order.mapM (reply R g servers out)
  return ⟨mailbox, .new worker⟩

/-- `KVWorkerTable::Get`: both threads of the worker actor process the replies, taking their steps in the order of
`schedule`, and then the client reads the local store. -/
def distributedGet (R : Random ρ Val) (g : Garbage Val) (numServers : ℕ) (servers : ℕ → ServerTable ρ Val)
    (worker : KVStore Val) (keys : List ℕ) (order : List ℕ) (schedule : List Thread) (val : Tensor Val) :
    Except Stop (Tensor Val) := do
  let a ← replied R g numServers servers worker keys order
  let a ← schedule.foldlM WorkerActor.step a
  WorkerTable.getFromLocal a.table.store g keys val

/-- A server's part of the request. -/
def serve (R : Random ρ Val) (g : Garbage Val) (numServers : ℕ) (servers : ℕ → ServerTable ρ Val)
    (keys : List ℕ) (dst : ℕ) : Except Stop (ServerTable ρ Val × List ℕ × List Val) :=
  (servers dst).processGet R g ((Partition.owned numServers keys dst).map Prod.fst)

/-- Row `i` is the row that the server of `keys[i]` holds after it handled the request. -/
def Answers (R : Random ρ Val) (g : Garbage Val) (numServers valueLen : ℕ)
    (servers : ℕ → ServerTable ρ Val) (keys : List ℕ) (val : Tensor Val) : Prop :=
  val.shape = [keys.length, valueLen] ∧ ∀ i (hi : i < keys.length), ∃ st reply flag,
    serve R g numServers servers keys (keys[i] % numServers) = .ok (st, reply) ∧
      st.store.lookup keys[i] = some (some (row valueLen val.blob i, flag))

/-- The servers that own a key of the request. -/
def destinations (numServers : ℕ) (keys : List ℕ) : List ℕ :=
  (List.range numServers).filter fun dst => Partition.owned numServers keys dst ≠ []

theorem mem_destinations (hn : 0 < numServers) {k : ℕ} (hk : k ∈ keys) :
    k % numServers ∈ destinations numServers keys := by
  simp only [destinations, List.mem_filter, List.mem_range, decide_eq_true_eq]
  refine ⟨Nat.mod_lt _ hn, fun hnil => ?_⟩
  have hmem : k ∈ (Partition.owned numServers keys (k % numServers)).map Prod.fst :=
    Partition.mem_owned_keys.mpr ⟨hk, rfl⟩
  rw [hnil] at hmem
  cases hmem

theorem getOne_valueLen {st : ServerTable ρ Val} {vals : List Val} {i key : ℕ}
    {r : ServerTable ρ Val × List Val} (h : st.getOne R vals i key = .ok r) :
    r.1.store.valueLen = st.store.valueLen := by
  obtain ⟨⟨store, e⟩, hget, h⟩ := bind_eq_ok.mp h
  have hlen : store.valueLen = st.store.valueLen := by
    rcases get_cases (orFatal_eq_ok_iff.mp hget) with ⟨j, -, rfl, -⟩ | ⟨j, -, -, rfl, -⟩ | ⟨j, -, -, rfl, -⟩ <;> rfl
  cases e with
  | none =>
    obtain ⟨v, -, h⟩ := bind_eq_ok.mp h
    cases h
    exact hlen
  | some e =>
    obtain ⟨v, -, h⟩ := bind_eq_ok.mp h
    cases h
    dsimp only
    split
    · exact hlen
    · exact hlen

theorem getLoop_valueLen {st : ServerTable ρ Val} {vals : List Val} {i : ℕ} {ks : List ℕ}
    {r : ServerTable ρ Val × List Val} (h : ServerTable.getLoop R i ks st vals = .ok r) :
    r.1.store.valueLen = st.store.valueLen := by
  induction ks generalizing i st vals with
  | nil =>
    cases h
    rfl
  | cons key ks ih =>
    obtain ⟨⟨st₁, vals₁⟩, h₁, h⟩ := bind_eq_ok.mp h
    obtain ⟨j, -, h⟩ := bind_eq_ok.mp h
    exact (ih h).trans (getOne_valueLen h₁)

theorem serve_ok {dst : ℕ} {r : ServerTable ρ Val × List ℕ × List Val}
    (h : serve R g numServers servers keys dst = .ok r) :
    0 < (servers dst).store.valueLen ∧ r.1.store.valueLen = (servers dst).store.valueLen := by
  unfold serve ServerTable.processGet at h
  dsimp only at h
  split at h
  · cases h
  · rename_i hsize
    obtain ⟨⟨st, vals⟩, hloop, h⟩ := bind_eq_ok.mp h
    cases h
    refine ⟨Nat.pos_of_ne_zero fun h0 => hsize ?_, getLoop_valueLen hloop⟩
    rw [h0, Nat.mul_zero]

/-- A tensor that answers holds every row in full. -/
theorem Answers.bound (h : Answers R g numServers valueLen servers keys val) (hn : 0 < numServers)
    (hne : keys ≠ []) (hs : ∀ dst < numServers, Reachable valueLen (servers dst).store) :
    0 < valueLen ∧ keys.length * valueLen < 2 ^ 31 := by
  have hl := List.length_pos_of_ne_nil hne
  obtain ⟨st, reply, flag, hserve, hlook⟩ := h.2 (keys.length - 1) (by omega)
  obtain ⟨hpos, hlen⟩ := serve_ok hserve
  rw [(hs _ (Nat.mod_lt _ hn)).sound.2] at hpos hlen
  obtain ⟨b, -, hrow⟩ := lookup_eq_some_iff.mp hlook
  have hrow := congrArg List.length (Prod.mk.inj hrow).1
  rw [length_read, hlen, row, List.length_take, List.length_drop] at hrow
  refine ⟨hpos, ?_⟩
  calc keys.length * valueLen = (keys.length - 1) * valueLen + valueLen := by
        rw [← Nat.succ_mul]
        congr 1
        omega
    _ ≤ val.blob.length := by omega
    _ < 2 ^ 31 := val.capacity_lt

/-- The row that a key's server holds after it handled the request. -/
def answer (R : Random ρ Val) (g : Garbage Val) (numServers : ℕ) (servers : ℕ → ServerTable ρ Val)
    (keys : List ℕ) (key : ℕ) : List Val :=
  match serve R g numServers servers keys (key % numServers) with
  | .ok (st, _) => ServerTable.rowOf st.store key
  | .error _ => []

/-- A server was asked, and it holds a row for each of its keys. -/
def Served (R : Random ρ Val) (g : Garbage Val) (numServers valueLen : ℕ)
    (servers : ℕ → ServerTable ρ Val) (keys : List ℕ) (dst : ℕ) : Prop :=
  ∃ st reply, serve R g numServers servers keys dst = .ok (st, reply) ∧
    ∀ k ∈ keys, k % numServers = dst → ∃ flag,
      st.store.view k = some (answer R g numServers servers keys k, flag) ∧
        (answer R g numServers servers keys k).length = valueLen

/-- A server's reply has the row of each of its keys. -/
theorem reply_spec {out : ℕ → Option (Blobs Val)} {dst : ℕ} (hs : Reachable valueLen (servers dst).store)
    (hout : out = Partition.share numServers valueLen keys none)
    (hdst : Partition.owned numServers keys dst ≠ []) (hpos : 0 < valueLen)
    (hsize : keys.length * valueLen < 2 ^ 31) :
    Yields (reply R g servers out dst) fun r =>
      r.1 = (Partition.owned numServers keys dst).map Prod.fst ∧
        WorkerActor.Carries (answer R g numServers servers keys) valueLen r ∧
          Served R g numServers valueLen servers keys dst := by
  obtain ⟨hsound, hlen⟩ := hs.sound
  have hown : ((Partition.owned numServers keys dst).map Prod.fst).length ≤ keys.length := by
    rw [List.length_map]
    exact Partition.length_owned_le dst
  have hwrap : ∀ j < ((Partition.owned numServers keys dst).map Prod.fst).length, j * valueLen < 2 ^ 32 :=
    fun j hj => (Nat.mul_le_mul_right _ (hj.le.trans hown)).trans_lt (by omega)
  have hne : 0 < ((Partition.owned numServers keys dst).map Prod.fst).length := by
    simpa [List.length_pos_iff] using hdst
  have hint : ((Partition.owned numServers keys dst).map Prod.fst).length < 2 ^ 31 :=
    hown.trans_lt ((Nat.le_mul_of_pos_right keys.length hpos).trans_lt hsize)
  unfold reply
  simp only [hout, Partition.share, if_neg hdst]
  refine (ServerTable.processGet_spec hsound (by rw [hlen]; exact Nat.mul_pos hne hpos)
    (by rw [hlen]; exact hwrap) hint).self.bind ?_
  rintro ⟨st, ks, vals⟩ ⟨hserve, hks, -, hall, hvals⟩
  dsimp only at hserve hks hall hvals ⊢
  subst hks hvals
  have hanswer : ∀ k ∈ (Partition.owned numServers keys dst).map Prod.fst,
      ServerTable.rowOf st.store k = answer R g numServers servers keys k := by
    intro k hk
    rw [answer, (Partition.mem_owned_keys.mp hk).2, serve, hserve]
  have hall : ∀ k ∈ (Partition.owned numServers keys dst).map Prod.fst, ∃ flag,
      st.store.view k = some (answer R g numServers servers keys k, flag) ∧
        (answer R g numServers servers keys k).length = valueLen := by
    intro k hk
    obtain ⟨r, flag, hview, hr⟩ := hall k hk
    rw [← hanswer k hk, ServerTable.rowOf, hview]
    exact ⟨flag, rfl, hr.trans hlen⟩
  refine .ok ⟨rfl, ⟨List.flatMap_congr hanswer, fun k hk => (hall k hk).choose_spec.2, hwrap, hint⟩, st, _, hserve, ?_⟩
  exact fun k hk hmod => hall k (Partition.mem_owned_keys.mpr ⟨hk, hmod⟩)

/-- All replies are there, whatever the order in which they came. -/
theorem replies_spec {out : ℕ → Option (Blobs Val)}
    (hs : ∀ dst < numServers, Reachable valueLen (servers dst).store)
    (hout : out = Partition.share numServers valueLen keys none)
    (horder : ∀ dst ∈ order, dst ∈ destinations numServers keys) (hpos : 0 < valueLen)
    (hsize : keys.length * valueLen < 2 ^ 31) :
    Yields (order.mapM (reply R g servers out)) fun mailbox =>
      (∀ r ∈ mailbox, WorkerActor.Carries (answer R g numServers servers keys) valueLen r) ∧
      (∀ dst ∈ order, Served R g numServers valueLen servers keys dst) ∧
      ∀ k ∈ keys, k % numServers ∈ order → ∃ r ∈ mailbox, k ∈ r.1 := by
  induction order with
  | nil => exact .ok ⟨by simp, by simp, by simp⟩
  | cons dst order ih =>
    rw [List.forall_mem_cons] at horder
    obtain ⟨hd, horder⟩ := horder
    simp only [destinations, List.mem_filter, List.mem_range, decide_eq_true_eq] at hd
    rw [List.mapM_cons]
    refine (reply_spec (hs dst hd.1) hout hd.2 hpos hsize).bind ?_
    rintro r ⟨hkeys, hcarries, hserved⟩
    refine (ih horder).bind ?_
    rintro mailbox ⟨hall, hserveds, hpending⟩
    refine .ok ⟨List.forall_mem_cons.mpr ⟨hcarries, hall⟩, List.forall_mem_cons.mpr ⟨hserved, hserveds⟩, ?_⟩
    intro k hk hmem
    rcases List.mem_cons.mp hmem with hmod | hmem
    · exact ⟨r, List.mem_cons_self .., by rw [hkeys]; exact Partition.mem_owned_keys.mpr ⟨hk, hmod⟩⟩
    · obtain ⟨r', hr', hk'⟩ := hpending k hk hmem
      exact ⟨r', List.mem_cons_of_mem _ hr', hk'⟩

theorem replied_spec (hs : ∀ dst < numServers, Reachable valueLen (servers dst).store)
    (hn : 0 < numServers) (hw : Reachable valueLen worker) (horder : order.Perm (destinations numServers keys))
    (hpos : 0 < valueLen) (hsize : keys.length * valueLen < 2 ^ 31) :
    Yields (replied R g numServers servers worker keys order) fun a =>
      WorkerActor.Filling (answer R g numServers servers keys) valueLen keys a worker ∧
        ∀ dst ∈ order, Served R g numServers valueLen servers keys dst := by
  obtain ⟨hsound, rfl⟩ := hw.sound
  unfold replied
  rw [Partition.partition_eq_share (by simp)
    (Partition.addressable_none ((Nat.le_mul_of_pos_right keys.length hpos).trans_lt hsize)), ok_bind]
  refine (replies_spec hs rfl (fun dst => horder.mem_iff.mp) hpos hsize).bind ?_
  rintro mailbox ⟨hall, hserved, hpending⟩
  refine .ok ⟨⟨LocalTable.consistent_new worker, hsound, rfl, hall, ?_, fun _ => rfl, fun k hk => ?_⟩, hserved⟩
  · intro thread h hthread
    cases hthread
  · exact .inr (.inl (hpending k hk (horder.mem_iff.mpr (mem_destinations hn hk))))

/-- With the request's rows inside a tensor, the tensor that is returned answers it. -/
theorem distributedGet_spec (hn : 0 < numServers) (hne : keys ≠ [])
    (hs : ∀ dst < numServers, Reachable valueLen (servers dst).store)
    (hw : Reachable valueLen worker) (horder : order.Perm (destinations numServers keys))
    (hspared : ∀ a, replied R g numServers servers worker keys order = .ok a → WorkerActor.Spared schedule a)
    (hdone : ∀ a b, replied R g numServers servers worker keys order = .ok a →
      schedule.foldlM WorkerActor.step a = .ok b → b.Done)
    (hpos : 0 < valueLen) (hsize : keys.length * valueLen < 2 ^ 31) :
    Yields (distributedGet R g numServers servers worker keys order schedule val)
      (Answers R g numServers valueLen servers keys) := by
  refine (replied_spec hs hn hw horder hpos hsize).self.bind ?_
  rintro a ⟨ha, hfilling, hserved⟩
  refine (hfilling.run (hspared a ha)).self.bind ?_
  rintro b ⟨hb, S, hfilling'⟩
  obtain ⟨hsound, hlen, hrows⟩ := hfilling'.view (hdone a b ha hb)
  have hmem : ∀ k ∈ keys, k % numServers ∈ order := fun k hk =>
    horder.mem_iff.mpr (mem_destinations hn hk)
  obtain ⟨val', hget, hshape, rest, hblob⟩ := WorkerTable.getFromLocal_spec g val hsound
    hne (hlen ▸ hpos) (hlen ▸ hsize) hrows
  rw [hget]
  refine .ok ⟨hlen ▸ hshape, fun i hi => ?_⟩
  have hk := List.getElem_mem hi
  have hlength : ∀ k ∈ keys, (answer R g numServers servers keys k).length = valueLen := by
    intro k hk
    obtain ⟨st, reply, -, hall⟩ := hserved _ (hmem k hk)
    obtain ⟨flag, -, h⟩ := hall k hk rfl
    exact h
  obtain ⟨st, reply, hserve, hall⟩ := hserved _ (hmem _ hk)
  obtain ⟨flag, hview, -⟩ := hall _ hk rfl
  refine ⟨st, reply, flag, hserve, ?_⟩
  rw [← view_eq_some_iff_lookup, hview, hblob, row_append, row_flatMap hlength hi]
  rw [length_flatMap hlength]
  exact Nat.mul_le_mul_right _ hi

/-- When the two threads of the worker actor do not race for free buckets, a distributed `Get` answers each key with
the row of its server exactly when the rows of the request fit the `int` in which the tensor's size is accumulated. -/
theorem distributedGet_iff (hn : 0 < numServers) (hne : keys ≠ [])
    (hs : ∀ dst < numServers, Reachable valueLen (servers dst).store)
    (hw : Reachable valueLen worker) (horder : order.Perm (destinations numServers keys))
    (hspared : ∀ a, replied R g numServers servers worker keys order = .ok a → WorkerActor.Spared schedule a)
    (hdone : ∀ a b, replied R g numServers servers worker keys order = .ok a →
      schedule.foldlM WorkerActor.step a = .ok b → b.Done)
    (hfatal : distributedGet R g numServers servers worker keys order schedule val ≠ .error .fatal) :
    (∃ val', distributedGet R g numServers servers worker keys order schedule val = .ok val' ∧
      Answers R g numServers valueLen servers keys val') ↔
    0 < valueLen ∧ keys.length * valueLen < 2 ^ 31 := by
  constructor
  · rintro ⟨val', -, h⟩
    exact h.bound hn hne hs
  · rintro ⟨hpos, hsize⟩
    exact (distributedGet_spec hn hne hs hw horder hspared hdone hpos hsize).resolve_left hfatal

end DistributedGet

/-- An initializer for small tests. -/
def fives : Random Unit ℕ := ⟨fun _ n => (List.replicate n 5, ()), by simp⟩

def noTensor : Tensor ℕ := ⟨[], 0, [], Tensor.nil_lt⟩

/-- The second thread takes its reply while the first one handles its second key. -/
def inTurns : List Thread := List.replicate 14 .first ++ (List.replicate 16 [.second, .first]).flatten

theorem distributedGet_iff_two_servers : ∃ s : KVStore ℕ,
    (∃ val', distributedGet fives blank 2 (fun _ => ⟨(), s⟩) s [1, 2, 1] [1, 0] inTurns noTensor = .ok val' ∧
      Answers fives blank 2 1 (fun _ => ⟨(), s⟩) [1, 2, 1] val') ↔ 0 < 1 ∧ [1, 2, 1].length * 1 < 2 ^ 31 := by
  obtain ⟨s, hs⟩ : ∃ s, KVStore.new 4 1 blank = some s := exists_new ..
  have hr : Reachable 1 s := ⟨4, blank, s, hs, .refl⟩
  have hrun : ∀ a ∈ (replied fives blank 2 (fun _ => ⟨(), s⟩) s [1, 2, 1] [1, 0]).toOption,
      WorkerActor.Spared inTurns a ∧ ∀ b ∈ (inTurns.foldlM WorkerActor.step a).toOption, b.Done := by
    cases hs
    decide +kernel
  refine ⟨s, distributedGet_iff (by decide) (by decide) (fun _ _ => hr) hr (by decide) (fun a ha => ?_)
    (fun a b ha hb => ?_) ?_⟩
  · exact (hrun a (toOption_eq_some.mpr ha)).1
  · exact (hrun a (toOption_eq_some.mpr ha)).2 b (toOption_eq_some.mpr hb)
  · have hok : (distributedGet fives blank 2 (fun _ => ⟨(), s⟩) s [1, 2, 1] [1, 0] inTurns noTensor).toBool := by
      cases hs
      decide +kernel
    intro herr
    rw [herr] at hok
    cases hok

/-- A row of one number, and of the next number when it is asked again. -/
def counting : Random ℕ ℕ := ⟨fun r n => (List.replicate n r, r + 1), by simp⟩

/-- Two threads that find free buckets at a time put both rows at one offset: key 1 gets the row of key 2. -/
example : (do
    let s ← KVStore.new 4 1 blank
    let val ← (distributedGet counting blank 2 (fun dst => ⟨dst + 6, s⟩) s [1, 2] [1, 0]
      ([.first, .second, .first, .second, .first, .second] ++ (List.replicate 13 [.first, .second]).flatten)
      noTensor).toOption
    return val.blob) = some [6, 6] := by
  decide +kernel

/-- A key that a new store always holds. -/
theorem get_zero_new {s : KVStore ℕ} {n m : ℕ} (hs : KVStore.new n m blank = some s) (immutable : Bool) :
    ∃ e, s.get 0 immutable = some (s, some e) ∧ e.newData = false := by
  obtain ⟨-, -, -, hview⟩ := Sound.set sound_alloc (List.length_replicate ..) hs
  have hview := congrFun hview 0
  rw [Function.update_self, view_eq_some_iff_lookup, lookup_eq_some_iff] at hview
  obtain ⟨b, hb, -⟩ := hview
  rw [KVStore.get, hb]
  exact ⟨_, rfl, rfl⟩

theorem processGet_zero {s : KVStore ℕ} {n m : ℕ} (hs : KVStore.new n m blank = some s) :
    ServerTable.processGet fives blank ⟨(), s⟩ [0] ≠ .error .fatal ∧
      ∀ r, ServerTable.processGet fives blank ⟨(), s⟩ [0] = .ok r → r.2.1 = [0] := by
  obtain ⟨e, hget, hnew⟩ := get_zero_new hs false
  have hone : ∀ vals, ServerTable.getOne fives ⟨(), s⟩ vals 0 0 =
      memcpy vals (0 * s.valueLen % 2 ^ 32) (s.read e.offset) >>= fun v => .ok (⟨(), s⟩, v) := by
    intro vals
    simp only [ServerTable.getOne, hget, hnew, orFatal, Option.elim_some, ok_bind]
    rfl
  unfold ServerTable.processGet
  simp only [ServerTable.getLoop, hone]
  split
  · simp
  · generalize hm : memcpy _ _ _ = m
    cases m with
    | error e =>
      refine ⟨?_, by rintro r ⟨⟩⟩
      rintro ⟨⟩
      exact memcpy_ne_fatal hm
    | ok v => exact ⟨by rintro ⟨⟩, by rintro r ⟨⟩; rfl⟩

theorem processReplyGet_zero {s : KVStore ℕ} {n m : ℕ} (hs : KVStore.new n m blank = some s)
    (vals : List ℕ) : WorkerTable.processReplyGet s [0] vals ≠ .error .fatal ∧
      ∀ t, WorkerTable.processReplyGet s [0] vals = .ok t → t.valueLen = s.valueLen := by
  obtain ⟨e, hget, -⟩ := get_zero_new hs false
  unfold WorkerTable.processReplyGet
  dsimp only
  rw [forInt_eq (by simp)]
  simp only [List.zipIdx_cons, List.zipIdx_nil, List.foldlM_cons, List.foldlM_nil, KVStore.set, hget]
  split
  · exact ⟨by rintro ⟨⟩, by rintro t ⟨⟩; rfl⟩
  · simp

/-- The one reply is there, if the server sends one. -/
theorem replied_zero {s : KVStore ℕ} {n m : ℕ} (hs : KVStore.new n m blank = some s) :
    (∃ e, e ≠ .fatal ∧ replied fives blank 1 (fun _ => ⟨(), s⟩) s [0] [0] = .error e) ∨
      ∃ vals, replied fives blank 1 (fun _ => ⟨(), s⟩) s [0] [0] = .ok ⟨[([0], vals)], .new s⟩ := by
  have hshare : Partition.share 1 s.valueLen [0] (none : Option (List ℕ)) 0 = some ⟨[0], none⟩ := by
    simp [Partition.share, Partition.owned]
  rw [replied, Partition.partition_eq_share (by simp) (by simp [Partition.Addressable]), ok_bind]
  simp only [List.mapM_cons, List.mapM_nil, reply, hshare]
  cases hget : ServerTable.processGet fives blank ⟨(), s⟩ [0] with
  | error e =>
    refine .inl ⟨e, ?_, rfl⟩
    rintro rfl
    exact (processGet_zero hs).1 hget
  | ok r =>
    obtain ⟨st, ks, vals⟩ := r
    obtain rfl := (processGet_zero hs).2 _ hget
    exact .inr ⟨vals, rfl⟩

/-- One row of `2 ^ 31` values: the tensor's size wraps. -/
theorem distributedGet_loses_row : ∃ (s : KVStore ℕ) (schedule : List Thread), Reachable (2 ^ 31) s ∧
    (∀ a b, replied fives blank 1 (fun _ => ⟨(), s⟩) s [0] [0] = .ok a →
      schedule.foldlM WorkerActor.step a = .ok b → b.Done) ∧
    distributedGet fives blank 1 (fun _ => ⟨(), s⟩) s [0] [0] schedule noTensor ≠ .error .fatal ∧
    ¬ ∃ val', distributedGet fives blank 1 (fun _ => ⟨(), s⟩) s [0] [0] schedule noTensor = .ok val' ∧
      Answers fives blank 1 (2 ^ 31) (fun _ => ⟨(), s⟩) [0] val' := by
  obtain ⟨s, hs⟩ : ∃ s, KVStore.new 4 (2 ^ 31) blank = some s := exists_new ..
  have hr : Reachable (2 ^ 31) s := ⟨4, blank, s, hs, .refl⟩
  have hno : ∀ x : Except Stop (Tensor ℕ),
      ¬ ∃ val', x = .ok val' ∧ Answers fives blank 1 (2 ^ 31) (fun _ => ⟨(), s⟩) [0] val' := by
    rintro x ⟨val', -, h⟩
    have := (h.bound (by decide) (by decide) fun _ _ => hr).2
    simp at this
  rcases replied_zero hs with ⟨e, he, hreplied⟩ | ⟨vals, hreplied⟩
  · refine ⟨s, [], hr, fun a b ha => ?_, ?_, hno _⟩
    · rw [hreplied] at ha
      cases ha
    · rw [distributedGet, hreplied]
      rintro ⟨⟩
      exact he rfl
  · obtain ⟨m, hrun⟩ := WorkerActor.exists_alone (a := ⟨[([0], vals)], .new s⟩) rfl
      (show Thread.first.isWorker = true from rfl) rfl
    refine ⟨s, List.replicate m .first, hr, fun a b ha hb => ?_, fun herr => ?_, hno _⟩
    · cases hreplied.symm.trans ha
      obtain ⟨store, -, hb⟩ := bind_eq_ok.mp (hrun.symm.trans hb)
      cases hb
      exact ⟨rfl, rfl, rfl⟩
    · rw [distributedGet, hreplied, ok_bind, hrun] at herr
      rcases bind_eq_error.mp herr with herr | ⟨a, ha, herr⟩
      · rcases bind_eq_error.mp herr with herr | ⟨store, -, herr⟩
        · exact (processReplyGet_zero hs vals).1 herr
        · cases herr
      · obtain ⟨store, hstore, ha⟩ := bind_eq_ok.mp ha
        cases ha
        have hlen := ((processReplyGet_zero hs vals).2 store hstore).trans hr.sound.2
        rw [WorkerTable.getFromLocal, hlen] at herr
        cases herr

end Hpps.Kv

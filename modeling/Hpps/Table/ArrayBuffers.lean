import Hpps.Table.Slicing
import Hpps.Frame.Waiting

/-! Asynchronous Gets of an array table, and the buffers that their replies are written into. -/
namespace Hpps.Table

open Hpps.Frame TransitionSystem Blocks Rows

section Slice

variable {T : Type} {len : ℕ → ℕ} {l vs : List T} {n i j : ℕ}

/-- A block that is overwritten is the only one that changes. -/
theorem slice_overwrite (hl : l.length = offset len n) (hj : j < n) (hvs : vs.length = len j) (hi : i < n) :
    slice len (overwrite l (offset len j) vs) i = if i = j then vs else slice len l i := by
  have hroom : ∀ {k}, k < n → offset len k + len k ≤ l.length := by
    intro k hk
    rw [hl, ← offset_succ]
    exact offset_mono hk
  have hlen : (overwrite l (offset len j) vs).length = l.length := length_overwrite (hvs ▸ hroom hj)
  have hlen' : (slice len (overwrite l (offset len j) vs) i).length = len i := length_slice (hlen.trans hl) hi
  refine List.ext_getElem? fun k => ?_
  rcases lt_or_ge k (len i) with hk | hk
  · rw [getElem?_slice hk, getElem?_overwrite (hvs ▸ hroom hj), hvs]
    by_cases hij : i = j
    · subst hij
      rw [if_pos rfl, if_pos (by omega), Nat.add_sub_cancel_left]
    · rw [if_neg hij, if_neg, getElem?_slice hk]
      rcases lt_or_gt_of_ne hij with hlt | hlt
      · have : offset len _ ≤ offset len _ := offset_mono hlt
        rw [offset_succ] at this
        omega
      · have : offset len _ ≤ offset len _ := offset_mono hlt
        rw [offset_succ] at this
        omega
  · rw [List.getElem?_eq_none (by omega), List.getElem?_eq_none]
    split
    · rename_i hij
      rw [hvs, ← hij]
      exact hk
    · rw [length_slice hl hi]
      exact hk

end Slice

/-- The memory that calls can pass, and where `data_` points to. -/
structure Buffers (T : Type) where
  current : ℕ
  buffer : ℕ → List T

/-- A worker node with an array table, and the servers it reads. -/
structure GetSystem (T : Type) (n : ℕ) where
  size : ℕ
  rank : ℤ
  serverIdToRank : ℕ → ℤ
  injective : Function.Injective serverIdToRank
  order : List ℕ
  perm : order.Perm (List.range n)
  pos : 0 < n
  lt_size : n < size
  size_lt : size < 2 ^ 64
  sliced : n = 1 ∨ size < 2 ^ 31

/-- The client calls GetAsync, or server `j` answers the `k`-th request on its way with the values of its
slice, or the worker does something else. -/
inductive GetMove (T : Type)
  | get
  | serve (k j : ℕ) (values : List T)
  | work (m : WorkerMove (Blob T))

abbrev GetState (T : Type) := WorkerState (Blob T) (Buffers T)

namespace GetSystem

variable {T : Type} {n : ℕ} (S : GetSystem T n) (s : GetState T)

abbrev share (j : ℕ) : ℕ := Table.share S.size n j

/-- The worker of this table is the one that its constructor makes. -/
theorem new_worker : ArrayWorker.new S.size n = .ok (workerOf S.size n) := by
  rcases S.sliced with h | h
  · subst h
    exact new_one S.lt_size
  · exact new_eq S.pos S.lt_size h

/-- `ProcessReplyGet` writes to where `data_` points. -/
def table : WorkerTable (Blob T) (Buffers T) where
  Partition := ((workerOf S.size n).table S.order S.perm).Partition
  ProcessReplyGet d kv := do
    let data ← (workerOf S.size n).ProcessReplyGet (d.buffer d.current) kv
    return { d with buffer := Function.update d.buffer d.current data }
  num_eq := ((workerOf S.size n).table S.order S.perm).num_eq
  nodup := ((workerOf S.size n).table S.order S.perm).nodup

def node : WorkerNode (Blob T) (Buffers T) where
  rank := S.rank
  numServers := n
  serverIdToRank := S.serverIdToRank
  injective := S.injective
  table := S.table
  modelFile := modelFile

abbrev types : List MsgType := [.Request_Get]

def init (memory : ℕ → List T) : GetState T := Worker.init ⟨0, memory⟩

/-- The buffers of different calls are different: a buffer is named after its call. GetAsync points `data_`
to it before it sends the request. -/
def step : GetMove T → Option (GetState T)
  | .get => (Worker.step S.node types s (.issue ArrayWorker.getAsync)).map fun t =>
      { t with data := { t.data with current := s.waitings.length } }
  | .serve k j values =>
    if j < n ∧ values.length = S.share j ∧ s.inFlight[k]?.any fun msg => msg.dst = S.serverIdToRank j then
      Worker.step S.node types s (.serve k [.key j, .values values])
    else none
  | .work m =>
    match m with
    | .issue _ | .serve _ _ => none
    | m => Worker.step S.node types s m

/-- All replies to the calls so far are stored. -/
def Settled : Prop :=
  s.mailbox.isEmpty ∧ s.inFlight.isEmpty ∧ s.replies.isEmpty ∧
    ∀ i, (s.threads i).all (Act.isNotify fun _ => true)

/-- GetAsync is called only then. -/
def OneAtATime (s : GetState T) : GetMove T → Prop
  | .get => Settled s
  | _ => True

instance : ∀ a, Decidable (OneAtATime s a)
  | .get => inferInstanceAs (Decidable (_ ∧ _ ∧ _ ∧ _))
  | .serve _ _ _ | .work _ => .isTrue trivial

/-- The buffer of call `id` has from each server the slice that it returned for this call. -/
def Complete (id : ℕ) : Prop :=
  (s.data.buffer id).length = S.size ∧ ∀ j < n, ∃ q r values, (q, r) ∈ s.replied ∧ q.msgId = id ∧
    q.dst = S.serverIdToRank j ∧ r.data = [.key j, .values values] ∧
    slice S.share (s.data.buffer id) j = values

variable {S s} {t : GetState T} {memory : ℕ → List T} {a : GetMove T} {m : WorkerMove (Blob T)}
  {msg r : Message (Blob T)} {popped : List (Message (Blob T))} {j : ℕ} {values : List T}

/-- The reply of server `j` to a request of the log. -/
structure Returned (S : GetSystem T n) (log : List (Message (Blob T) × Message (Blob T))) (r : Message (Blob T))
    (j : ℕ) (values : List T) : Prop where
  lt : j < n
  src : r.src = S.serverIdToRank j
  data : r.data = [.key j, .values values]
  length : values.length = S.share j
  replied : ∃ q, (q, r) ∈ log ∧ q.msgId = r.msgId ∧ q.dst = S.serverIdToRank j

/-- Still to be handled: a request or a reply that is not stored. -/
def Open (s : GetState T) (msg : Message (Blob T)) : Prop :=
  msg ∈ s.mailbox ∨ msg ∈ s.inFlight ∨ msg ∈ s.replies ∨ ∃ i, .push msg ∈ s.threads i ∨ .store msg ∈ s.threads i

/-- Everything that is still to be handled belongs to the call that `data_` was set by. -/
structure Inv (S : GetSystem T n) (s : GetState T) : Prop where
  worker : ∃ popped, Worker.Inv S.node types s popped
  calls : ∀ msg ∈ s.calls, msg.data = [.key (-1)]
  current : ∀ msg, Open s msg → msg.msgId = s.data.current
  replies : (∀ r ∈ s.replies, ∃ j values, Returned S s.replied r j values) ∧
    (∀ r ∈ s.mailbox, r.type < 0 → ∃ j values, Returned S s.replied r j values) ∧
    ∀ i r, .store r ∈ s.threads i → ∃ j values, Returned S s.replied r j values
  length : ∀ b, (s.data.buffer b).length = S.size
  stored : ∀ r ∈ s.stored, ∃ r' ∈ s.stored, r'.msgId = r.msgId ∧ r'.src = r.src ∧ ∃ j values,
    Returned S s.replied r' j values ∧ slice S.share (s.data.buffer r'.msgId) j = values

theorem inv_init (h : ∀ b, (memory b).length = S.size) : Inv S (init memory) where
  worker := ⟨[], Worker.inv_init⟩
  calls _ h := nomatch h
  current _ h := by
    rcases h with h | h | h | ⟨i, h | h⟩ <;> cases h
  replies := ⟨fun _ h => (nomatch h), fun _ h => (nomatch h), fun _ _ h => nomatch h⟩
  length := h
  stored _ h := nomatch h

/-- What a popped message leaves to do belongs to its call. -/
theorem open_of_handle {acts : List (Act (Blob T))} (ha : Worker.handle S.node msg = .ok acts) :
    (∀ q, .push q ∈ acts → q.msgId = msg.msgId) ∧ ∀ r, .store r ∈ acts → r = msg ∧ msg.type < 0 := by
  refine ⟨fun q hq => (Worker.mem_requests ha hq).1, fun r hr => ?_⟩
  rcases Worker.handle_cases ha with ⟨-, num, out, -, rfl⟩ | ⟨-, file, data, -, rfl⟩ | ⟨hneg, ⟨-, rfl⟩ | ⟨-, rfl⟩⟩
  · simp at hr
  · simp at hr
  · simp only [List.mem_cons, Act.store.injEq, reduceCtorEq, List.not_mem_nil, or_false] at hr
    exact ⟨hr, hneg⟩
  · simp at hr

theorem Inv.pop {i : Fin kWorkerThreadNum} {mailbox : List (Message (Blob T))} {acts : List (Act (Blob T))}
    (h : Inv S s) (hm : s.mailbox = msg :: mailbox) (ha : Worker.handle S.node msg = .ok acts)
    (hw : ∃ popped, Worker.Inv S.node types
      { s with mailbox := mailbox, threads := Function.update s.threads i acts } popped) :
    Inv S { s with mailbox := mailbox, threads := Function.update s.threads i acts } := by
  obtain ⟨hpush, hstore⟩ := open_of_handle ha
  have hmem : msg ∈ s.mailbox := by rw [hm]; exact List.mem_cons_self
  have htail : ∀ q ∈ mailbox, q ∈ s.mailbox := fun q hq => by rw [hm]; exact List.mem_cons_of_mem _ hq
  have hthread : ∀ {j x}, x ∈ Function.update s.threads i acts j → x ∈ s.threads j ∨ x ∈ acts := by
    intro j x hx
    by_cases hj : j = i
    · subst hj
      rw [Function.update_self] at hx
      exact .inr hx
    · rw [Function.update_of_ne hj] at hx
      exact .inl hx
  obtain ⟨hreplies, hmail, hstored⟩ := h.replies
  refine ⟨hw, h.calls, fun q hq => ?_, ⟨hreplies, fun r hr => hmail r (htail r hr), fun j r hr => ?_⟩, h.length,
    h.stored⟩
  · rcases hq with hq | hq | hq | ⟨j, hq | hq⟩
    · exact h.current q (.inl (htail q hq))
    · exact h.current q (.inr (.inl hq))
    · exact h.current q (.inr (.inr (.inl hq)))
    · rcases hthread hq with hq | hq
      · exact h.current q (.inr (.inr (.inr ⟨j, .inl hq⟩)))
      · exact (hpush q hq).trans (h.current msg (.inl hmem))
    · rcases hthread hq with hq | hq
      · exact h.current q (.inr (.inr (.inr ⟨j, .inr hq⟩)))
      · rw [(hstore q hq).1]
        exact h.current msg (.inl hmem)
  · rcases hthread hr with hr | hr
    · exact hstored j r hr
    · obtain ⟨rfl, hneg⟩ := hstore r hr
      exact hmail r hmem hneg

/-- Replacing the contents of the current buffer by a reply keeps what other replies left. -/
theorem Inv.store {i : Fin kWorkerThreadNum} {acts : List (Act (Blob T))} (h : Inv S s)
    (hi : s.threads i = .store r :: acts) (ht : Worker.perform S.node s (.store r) = .ok t) :
    (∃ data, t = { s with data := data, stored := s.stored ++ [r] } ∧ data.current = s.data.current) ∧
    (∀ b, (t.data.buffer b).length = S.size) ∧
    ∀ q ∈ t.stored, ∃ r' ∈ t.stored, r'.msgId = q.msgId ∧ r'.src = q.src ∧ ∃ j values,
      Returned S t.replied r' j values ∧ slice S.share (t.data.buffer r'.msgId) j = values := by
  have hmem : .store r ∈ s.threads i := by rw [hi]; exact List.mem_cons_self
  obtain ⟨j, values, hret⟩ := h.replies.2.2 i r hmem
  have hid : r.msgId = s.data.current := h.current r (.inr (.inr (.inr ⟨i, .inr hmem⟩)))
  have hlen := h.length s.data.current
  have hoff : S.size = offset S.share n := (offset_share_last S.pos).symm
  have hroom : offset S.share j + values.length ≤ (s.data.buffer s.data.current).length := by
    rw [hret.length, ← offset_succ, hlen, hoff]
    exact offset_mono hret.lt
  have hreply : S.table.ProcessReplyGet s.data r.data = .ok { s.data with
      buffer := Function.update s.data.buffer s.data.current
        (overwrite (s.data.buffer s.data.current) (offset S.share j) values) } := by
    rw [hret.data]
    dsimp only [table]
    rw [processReplyGet_eq S.pos S.size_lt hret.lt hlen hret.length]
    rfl
  rw [Worker.perform] at ht
  dsimp only [node] at ht
  rw [hreply] at ht
  cases ht
  refine ⟨⟨_, rfl, rfl⟩, fun b => ?_, fun q hq => ?_⟩
  · dsimp only
    rw [Function.update_apply]
    split
    · rw [length_overwrite hroom, hlen]
    · exact h.length b
  · have hself : slice S.share (Function.update s.data.buffer s.data.current
        (overwrite (s.data.buffer s.data.current) (offset S.share j) values) r.msgId) j = values := by
      rw [hid, Function.update_self, slice_overwrite (hlen.trans hoff) hret.lt hret.length hret.lt, if_pos rfl]
    have hnew : r ∈ s.stored ++ [r] := by simp
    rcases List.mem_append.mp hq with hq | hq
    · obtain ⟨r', hr', hmsgId, hsrc, j', values', hret', hslice⟩ := h.stored q hq
      by_cases hsame : r'.msgId = r.msgId ∧ j' = j
      · obtain ⟨hsame, rfl⟩ := hsame
        exact ⟨r, hnew, hsame.symm.trans hmsgId, (hret.src.trans hret'.src.symm).trans hsrc, j', values,
          hret, hself⟩
      · refine ⟨r', List.mem_append_left _ hr', hmsgId, hsrc, j', values', hret', ?_⟩
        dsimp only
        rw [Function.update_apply]
        split
        · rename_i hc
          rw [slice_overwrite (hlen.trans hoff) hret.lt hret.length hret'.lt,
            if_neg fun hj => hsame ⟨hc.trans hid.symm, hj⟩, ← hc]
          exact hslice
        · exact hslice
    · rw [List.mem_singleton] at hq
      subst hq
      exact ⟨q, hnew, rfl, rfl, j, values, hret, hself⟩

theorem Inv.act {i : Fin kWorkerThreadNum} {x : Act (Blob T)} {acts : List (Act (Blob T))} (h : Inv S s)
    (hi : s.threads i = x :: acts) (ht : Worker.perform S.node s x = .ok t)
    (hw : ∃ popped, Worker.Inv S.node types { t with threads := Function.update t.threads i acts } popped) :
    Inv S { t with threads := Function.update t.threads i acts } := by
  obtain ⟨hreplies, hmail, hstored⟩ := h.replies
  have hstored' : ∀ j r, .store r ∈ Function.update s.threads i acts j → ∃ j values, Returned S s.replied r j values :=
    fun j r hr => hstored j r (mem_update_tail hi hr)
  have hopen : ∀ q, Open { s with threads := Function.update s.threads i acts } q → Open s q := by
    rintro q (hq | hq | hq | ⟨j, hq | hq⟩)
    · exact .inl hq
    · exact .inr (.inl hq)
    · exact .inr (.inr (.inl hq))
    · exact .inr (.inr (.inr ⟨j, .inl (mem_update_tail hi hq)⟩))
    · exact .inr (.inr (.inr ⟨j, .inr (mem_update_tail hi hq)⟩))
  cases x with
  | reset id num =>
    rw [Worker.perform] at ht
    split at ht <;> cases ht
    exact ⟨hw, h.calls, fun q hq => h.current q (hopen q hq), ⟨hreplies, hmail, hstored'⟩, h.length, h.stored⟩
  | notify msg =>
    rw [Worker.perform] at ht
    split at ht <;> cases ht
    exact ⟨hw, h.calls, fun q hq => h.current q (hopen q hq), ⟨hreplies, hmail, hstored'⟩, h.length, h.stored⟩
  | push msg =>
    cases ht
    refine ⟨hw, h.calls, fun q hq => ?_, ⟨hreplies, hmail, hstored'⟩, h.length, h.stored⟩
    rcases hq with hq | hq | hq | hq
    · exact h.current q (.inl hq)
    · rcases List.mem_append.mp hq with hq | hq
      · exact h.current q (.inr (.inl hq))
      · rw [List.mem_singleton.mp hq]
        exact h.current msg (.inr (.inr (.inr ⟨i, .inl (by rw [hi]; exact List.mem_cons_self)⟩)))
    · exact h.current q (.inr (.inr (.inl hq)))
    · exact h.current q (hopen q (.inr (.inr (.inr hq))))
  | store r =>
    obtain ⟨⟨data, rfl, hcurrent⟩, hlength, hshown⟩ := h.store hi ht
    exact ⟨hw, h.calls, fun q hq => (h.current q (hopen q hq)).trans hcurrent.symm, ⟨hreplies, hmail, hstored'⟩,
      hlength, hshown⟩

theorem types_get : ∀ type ∈ types, type = MsgType.Request_Get ∨ type = MsgType.Request_Add ∨ n = 1 := by
  simp

/-- What the worker does by itself. -/
theorem Inv.work (h : Inv S s) (hs : Worker.step S.node types s m = some t) (hissue : ∀ c, m ≠ .issue c)
    (hserve : ∀ k data, m ≠ .serve k data) : Inv S t := by
  obtain ⟨popped, hworker⟩ := h.worker
  have hw := (Worker.inv_step types_get hworker hs).1
  cases (Worker.step_outcome hs).2 with
  | issue => exact absurd rfl (hissue _)
  | serve => exact absurd rfl (hserve _ _)
  | wait | waitNull | wake | finish | popStop | actStop =>
    exact ⟨hw, h.calls, h.current, h.replies, h.length, h.stored⟩
  | pop hi hm ha => exact h.pop hm ha hw
  | act hi hr => exact h.act hi hr hw
  | @deliver k msg hk =>
    have hmem := List.mem_of_getElem? hk
    obtain ⟨hreplies, hmail, hstored⟩ := h.replies
    refine ⟨hw, h.calls, fun q hq => ?_, ⟨fun r hr => hreplies r (List.mem_of_mem_eraseIdx hr), fun r hr hneg => ?_,
      hstored⟩, h.length, h.stored⟩
    · rcases hq with hq | hq | hq | hq
      · rcases List.mem_append.mp hq with hq | hq
        · exact h.current q (.inl hq)
        · rw [List.mem_singleton.mp hq]
          exact h.current msg (.inr (.inr (.inl hmem)))
      · exact h.current q (.inr (.inl hq))
      · exact h.current q (.inr (.inr (.inl (List.mem_of_mem_eraseIdx hq))))
      · exact h.current q (.inr (.inr (.inr hq)))
    · rcases List.mem_append.mp hr with hr | hr
      · exact hmail r hr hneg
      · rw [List.mem_singleton.mp hr]
        exact hreplies msg hmem

/-- A server answers. -/
theorem Inv.serve {k : ℕ} (h : Inv S s) (hj : j < n) (hlen : values.length = S.share j)
    (hk : s.inFlight[k]? = some msg) (hdst : msg.dst = S.serverIdToRank j)
    (hs : Worker.step S.node types s (.serve k [.key j, .values values]) = some t) : Inv S t := by
  obtain ⟨popped, hworker⟩ := h.worker
  have hw := (Worker.inv_step types_get hworker hs).1
  cases (Worker.step_outcome hs).2 with
  | @serve _ msg' _ hk' =>
    cases hk.symm.trans hk'
    have hmem := List.mem_of_getElem? hk
    obtain ⟨hreplies, hmail, hstored⟩ := h.replies
    have hlog : ∀ q ∈ s.replied, q ∈ s.replied ++
        [(msg, { msg.createReplyMessage with data := [.key j, .values values] })] :=
      fun q hq => List.mem_append_left _ hq
    have hmono : ∀ {r : Message (Blob T)}, (∃ j values, Returned S s.replied r j values) →
        ∃ i v, Returned S (s.replied ++
          [(msg, { msg.createReplyMessage with data := [.key j, .values values] })]) r i v :=
      fun ⟨i, v, hret⟩ => ⟨i, v, { hret with replied :=
        let ⟨q, hq, hrest⟩ := hret.replied
        ⟨q, hlog _ hq, hrest⟩ }⟩
    refine ⟨hw, h.calls, fun q hq => ?_, ⟨fun r hr => ?_, fun r hr hneg => hmono (hmail r hr hneg),
      fun i r hr => hmono (hstored i r hr)⟩, h.length, fun r hr => ?_⟩
    · rcases hq with hq | hq | hq | hq
      · exact h.current q (.inl hq)
      · exact h.current q (.inr (.inl (List.mem_of_mem_eraseIdx hq)))
      · rcases List.mem_append.mp hq with hq | hq
        · exact h.current q (.inr (.inr (.inl hq)))
        · rw [List.mem_singleton.mp hq]
          exact h.current msg (.inr (.inl hmem))
      · exact h.current q (.inr (.inr (.inr hq)))
    · rcases List.mem_append.mp hr with hr | hr
      · exact hmono (hreplies r hr)
      · rw [List.mem_singleton.mp hr]
        exact ⟨j, values, hj, hdst, rfl, hlen, msg, by simp, rfl, hdst⟩
    · obtain ⟨r', hr', hmsgId, hsrc, i, v, hret, hslice⟩ := h.stored r hr
      obtain ⟨q, hq, hrest⟩ := hret.replied
      exact ⟨r', hr', hmsgId, hsrc, i, v, { hret with replied := ⟨q, hlog _ hq, hrest⟩ }, hslice⟩

/-- A new call finds nothing of the earlier ones. -/
theorem Inv.get (h : Inv S s) (hsettled : Settled s)
    (hs : Worker.step S.node types s (.issue ArrayWorker.getAsync) = some t) :
    Inv S { t with data := { t.data with current := s.waitings.length } } := by
  obtain ⟨popped, hworker⟩ := h.worker
  obtain ⟨popped', hw⟩ := (Worker.inv_step types_get hworker hs).1
  obtain ⟨hmail, hfly, hreplies, hthreads⟩ := hsettled
  rw [List.isEmpty_iff] at hmail hfly hreplies
  have hacts : ∀ i x, x ∈ s.threads i → Act.isNotify (fun _ => true) x = true :=
    fun i x hx => List.all_eq_true.mp (hthreads i) x hx
  cases (Worker.step_outcome hs).2 with
  | issue hc =>
    refine ⟨⟨popped', hw.with_data _⟩, fun q hq => ?_, fun q hq => ?_, ⟨?_, ?_, ?_⟩, h.length, h.stored⟩
    · rcases List.mem_append.mp hq with hq | hq
      · exact h.calls q hq
      · rw [List.mem_singleton.mp hq]
        rfl
    · rcases hq with hq | hq | hq | ⟨i, hq | hq⟩
      · rw [hmail, List.nil_append] at hq
        rw [List.mem_singleton.mp hq]
        rfl
      · rw [hfly] at hq
        cases hq
      · rw [hreplies] at hq
        cases hq
      · cases hacts i _ hq
      · cases hacts i _ hq
    · rw [hreplies]
      simp
    · intro r hr hneg
      rw [hmail, List.nil_append] at hr
      rw [List.mem_singleton.mp hr] at hneg
      have htype : (ArrayWorker.getAsync.message S.node.rank s.waitings.length : Message (Blob T)).type =
          .Request_Get := rfl
      rw [htype] at hneg
      exact absurd hneg (by decide)
    · intro i r hr
      cases hacts i _ hr

theorem step_work (hs : S.step s (.work m) = some t) :
    Worker.step S.node types s m = some t ∧ (∀ c, m ≠ .issue c) ∧ ∀ k data, m ≠ .serve k data := by
  cases m with
  | issue | serve => cases hs
  | wait | wake | finish | pop | act | deliver => exact ⟨hs, by simp, by simp⟩

theorem Inv.step (h : Inv S s) (ha : OneAtATime s a) (hs : S.step s a = some t) : Inv S t := by
  cases a with
  | get =>
    obtain ⟨u, hu, rfl⟩ := Option.map_eq_some_iff.mp hs
    exact h.get ha hu
  | serve k j values =>
    rw [GetSystem.step] at hs
    split at hs
    · rename_i hguard
      obtain ⟨hj, hlen, hdst⟩ := hguard
      cases hk : s.inFlight[k]? with
      | none => simp [hk] at hdst
      | some msg =>
        rw [hk, Option.any_some, decide_eq_true_eq] at hdst
        exact h.serve hj hlen hk hdst hs
    · cases hs
  | work m =>
    obtain ⟨hs, hissue, hserve⟩ := step_work hs
    exact h.work hs hissue hserve

/-- A returned call has the slices of all servers. -/
theorem Inv.complete (h : Inv S s) {id : ℕ} (hret : s.phases id = .returned) : S.Complete s id := by
  obtain ⟨popped, hworker⟩ := h.worker
  obtain ⟨msg, acts, hmsg, ha, hall⟩ := Worker.answered_of_returned hworker hret
  have hmem := List.mem_of_getElem? hmsg
  have htype : msg.type = .Request_Get := by simpa using hworker.allowed msg hmem
  refine ⟨h.length id, fun j hj => ?_⟩
  have hp : S.node.table.Partition msg.data msg.type = .ok (n, S.order.map fun i => (i, [.key (-1)])) := by
    rw [h.calls msg hmem]
    rfl
  have hpush : .push (Worker.newMsg S.node msg.type msg j [.key (-1)]) ∈ acts := by
    have hhandle := Worker.handle_request (.inl htype) (by simp [h.calls msg hmem]) hp
    cases ha.symm.trans hhandle
    have hin : j ∈ S.order := S.perm.mem_iff.mpr (List.mem_range.mpr hj)
    exact List.mem_cons_of_mem _ (List.mem_map.mpr
      ⟨_, List.mem_map.mpr ⟨(j, [.key (-1)]), List.mem_map.mpr ⟨j, hin, rfl⟩, rfl⟩, rfl⟩)
  obtain ⟨reply, hreplied, hstored⟩ := hall _ hpush
  obtain ⟨r, hr, hmsgId, hsrc, j', values, hret', hslice⟩ := h.stored reply (hstored htype)
  have hreply := (hworker.settled _ hreplied).1
  dsimp only at hreply
  have hfrom : reply.src = S.serverIdToRank j := by
    rw [hreply]
    rfl
  have hid : reply.msgId = id := by
    rw [hreply]
    exact hworker.msgId id msg hmsg
  obtain rfl : j = j' := S.injective (hfrom.symm.trans (hsrc.symm.trans hret'.src))
  obtain ⟨q, hq, hqid, hqdst⟩ := hret'.replied
  rw [hmsgId, hid] at hqid hslice
  exact ⟨q, r, values, hq, hqid, hqdst, hret'.data, hslice⟩

/-- Get by Get, every call that has returned has a complete copy in its own buffer. -/
theorem own_buffer_filled {id : ℕ} (hmemory : ∀ b, (memory b).length = S.size)
    (h : Reachable (restrict OneAtATime S.step) (init memory) s) (hret : s.phases id = .returned) :
    S.Complete s id := by
  have hinv : Inv S s := by
    refine h.invariant (P := Inv S) (inv_init hmemory) ?_
    intro x a y hx hy
    obtain ⟨hone, hy⟩ := restrict_eq_some.mp hy
    exact hx.step hone hy
  exact hinv.complete hret

end GetSystem

/-- A table of three elements on two servers. -/
def readTwo : GetSystem ℤ 2 where
  size := 3
  rank := 0
  serverIdToRank i := i
  injective i j h := by simpa using h
  order := [1, 0]
  perm := .swap 0 1 []
  pos := Nat.zero_lt_two
  lt_size := Frame.Worker.two_lt_three
  size_lt := by decide
  sliced := .inr (by decide)

namespace GetSystem

open TwoParties in
/-- One Get from the call to the return of Wait, with the values of the two servers. -/
def wholeGet (id : ℕ) (first second : List ℤ) : List (GetMove ℤ) :=
  [.get, .work (.wait id), .work (.pop 0), .work (.act 0), .work (.act 0), .work (.act 0), .serve 0 1 second,
    .serve 0 0 first, .work (.deliver 1), .work (.deliver 0), .work (.pop 0), .work (.pop 1), .work (.act 0),
    .work (.act 1), .work (.act 0), .work (.act 1), .work (.wake id), .work (.finish id)]

theorem own_buffer_filled_two : ArrayWorker.new readTwo.size 2 = .ok (workerOf readTwo.size 2) ∧ ∃ s : GetState ℤ,
    exec (restrict OneAtATime readTwo.step) (init fun _ => [0, 0, 0]) (wholeGet 0 [1] [2, 3] ++ wholeGet 1 [4] [5, 6]) =
      some s ∧ s.data.buffer 0 = [1, 2, 3] ∧ s.data.buffer 1 = [4, 5, 6] ∧ readTwo.Complete s 0 ∧
        readTwo.Complete s 1 := by
  have hrun : (exec (restrict OneAtATime readTwo.step) (init fun _ => [0, 0, 0])
      (wholeGet 0 [1] [2, 3] ++ wholeGet 1 [4] [5, 6])).map
        (fun s => (s.data.buffer 0, s.data.buffer 1, s.phases 0, s.phases 1)) =
          some ([1, 2, 3], [4, 5, 6], .returned, .returned) := by decide +kernel
  obtain ⟨s, hs, heq⟩ := Option.map_eq_some_iff.mp hrun
  simp only [Prod.mk.injEq] at heq
  obtain ⟨h0, h1, hret0, hret1⟩ := heq
  refine ⟨readTwo.new_worker, s, hs, h0, h1, ?_, ?_⟩
  · exact own_buffer_filled (fun _ => rfl) ⟨_, hs⟩ hret0
  · exact own_buffer_filled (fun _ => rfl) ⟨_, hs⟩ hret1

open TwoParties in
/-- Two calls, then all replies: both are written to the buffer of the second call. -/
def overlappingGets : List (GetMove ℤ) :=
  [.get, .get, .work (.wait 0), .work (.pop 0), .work (.act 0), .work (.act 0), .work (.act 0), .serve 0 1 [2, 3],
    .serve 0 0 [1], .work (.deliver 0), .work (.deliver 0), .work (.pop 1), .work (.act 1), .work (.act 1),
    .work (.act 1), .work (.pop 0), .work (.pop 1), .work (.act 0), .work (.act 0), .work (.act 1), .work (.act 1),
    .work (.wake 0), .work (.finish 0)]

theorem other_buffer_filled : ∃ s : GetState ℤ, Reachable readTwo.step (init fun _ => [0, 0, 0]) s ∧
    s.phases 0 = .returned ∧ s.data.buffer 0 = [0, 0, 0] ∧ s.data.buffer 1 = [1, 2, 3] ∧
      ¬ readTwo.Complete s 0 := by
  have hrun : (exec readTwo.step (init fun _ => [0, 0, 0]) overlappingGets).map
        (fun s => (s.phases 0, s.data.buffer 0, s.data.buffer 1, s.replied.map fun p => p.2.data)) =
          some (.returned, [0, 0, 0], [1, 2, 3], [[.key 1, .values [2, 3]], [.key 0, .values [1]]]) := by
    decide +kernel
  obtain ⟨s, hs, heq⟩ := Option.map_eq_some_iff.mp hrun
  simp only [Prod.mk.injEq] at heq
  obtain ⟨hret, h0, h1, hlog⟩ := heq
  refine ⟨s, ⟨_, hs⟩, hret, h0, h1, ?_⟩
  rintro ⟨-, hall⟩
  obtain ⟨q, r, values, hq, -, -, hdata, hslice⟩ := hall 0 (by norm_num)
  have hmem : r.data ∈ s.replied.map fun p => p.2.data := List.mem_map.mpr ⟨_, hq, rfl⟩
  rw [hlog, hdata] at hmem
  rw [h0] at hslice
  simp at hmem
  subst hmem
  exact absurd hslice (by decide)

end GetSystem
end Hpps.Table

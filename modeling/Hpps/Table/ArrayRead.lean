import Hpps.Table.ArrayCluster

/-! A Get of an array table that is made when all Adds are done. -/
namespace Hpps.Table.ArraySystem

open Hpps.Frame TransitionSystem Blocks

variable {T : Type} {W n : ℕ} (S : ArraySystem T W n) {table : List T} {base id : ℕ} {w : Fin W}
  {s t : WorkerState (Blob T) (List T)} {m : WorkerMove (Blob T)} {r : Message (Blob T)}

/-- The reply is the slice of its server. -/
def Answer (table : List T) (r : Message (Blob T)) : Prop :=
  ∃ j < n, r.src = S.serverIdToRank j ∧ r.data = [.key j, .values (slice S.share table j)]

/-- From the call `base` on the worker only reads, and what it stored of these reads is in its buffer. -/
structure Reads (table : List T) (base : ℕ) (s : WorkerState (Blob T) (List T)) : Prop where
  gets : ∀ (id : ℕ) msg, base ≤ id → s.calls[id]? = some msg → msg.type = .Request_Get
  requests : (∀ msg ∈ s.mailbox, 0 < msg.type → msg.type = .Request_Get) ∧
    (∀ i msg, .push msg ∈ s.threads i → msg.type = .Request_Get) ∧
    ∀ msg ∈ s.inFlight, msg.type = .Request_Get
  answers : (∀ r ∈ s.replies, S.Answer table r) ∧
    (∀ r ∈ s.mailbox, r.type < 0 → S.Answer table r) ∧
    ∀ i r, .store r ∈ s.threads i → S.Answer table r
  stored : ∃ done, Filled S.size n table s.data done ∧
    ∀ r ∈ s.stored, base ≤ r.msgId → ∃ j ∈ done, r.src = S.serverIdToRank j

theorem Reads.act {i : Fin kWorkerThreadNum} {x : Act (Blob T)} {acts : List (Act (Blob T))}
    (h : S.Reads table base s) (htable : table.length = S.size) (hi : s.threads i = x :: acts)
    (hr : Worker.perform (S.node w) s x = .ok t) :
    S.Reads table base { t with threads := Function.update t.threads i acts } := by
  obtain ⟨hmail, hpush, hfly⟩ := h.requests
  obtain ⟨hreplies, hmail', hstore⟩ := h.answers
  have hpush' : ∀ j msg, .push msg ∈ Function.update s.threads i acts j → msg.type = .Request_Get :=
    fun j msg hj => hpush j msg (mem_update_tail hi hj)
  have hstore' : ∀ j r, .store r ∈ Function.update s.threads i acts j → S.Answer table r :=
    fun j r hj => hstore j r (mem_update_tail hi hj)
  cases x with
  | reset id num =>
    rw [Worker.perform] at hr
    split at hr <;> cases hr
    exact ⟨h.gets, ⟨hmail, hpush', hfly⟩, ⟨hreplies, hmail', hstore'⟩, h.stored⟩
  | notify msg =>
    rw [Worker.perform] at hr
    split at hr <;> cases hr
    exact ⟨h.gets, ⟨hmail, hpush', hfly⟩, ⟨hreplies, hmail', hstore'⟩, h.stored⟩
  | push msg =>
    cases hr
    refine ⟨h.gets, ⟨hmail, hpush', fun q hq => ?_⟩, ⟨hreplies, hmail', hstore'⟩, h.stored⟩
    rcases List.mem_append.mp hq with hq | hq
    · exact hfly q hq
    · rw [List.mem_singleton] at hq
      exact hpush i q (by rw [hi, hq]; exact List.mem_cons_self)
  | store r =>
    obtain ⟨j, hj, hsrc, hdata⟩ := hstore i r (by rw [hi]; exact List.mem_cons_self)
    obtain ⟨done, hfilled, hdone⟩ := h.stored
    have hlen : (slice S.share table j).length = S.share j :=
      length_slice (htable.trans (offset_share_last S.pos).symm) hj
    have heq : (S.node w).table.ProcessReplyGet s.data r.data =
        .ok (Rows.overwrite s.data (S.offset j) (slice S.share table j)) := by
      rw [hdata]
      exact processReplyGet_eq S.pos (S.size_lt.trans (by norm_num)) hj hfilled.1 hlen
    rw [Worker.perform, heq] at hr
    cases hr
    refine ⟨h.gets, ⟨hmail, hpush', hfly⟩, ⟨hreplies, hmail', hstore'⟩, j :: done,
      hfilled.reply S.pos hj htable, fun q hq hbase => ?_⟩
    rcases List.mem_append.mp hq with hq | hq
    · obtain ⟨j', hj', hsrc'⟩ := hdone q hq hbase
      exact ⟨j', List.mem_cons_of_mem _ hj', hsrc'⟩
    · rw [List.mem_singleton] at hq
      exact ⟨j, List.mem_cons_self, hq ▸ hsrc⟩

/-- What a Get or a reply leaves to do, while the worker only reads. -/
theorem Reads.acts (table : List T) {acts : List (Act (Blob T))} {msg : Message (Blob T)} (ha : Worker.handle (S.node w) msg = .ok acts)
    (hget : 0 < msg.type → msg.type = .Request_Get) (hanswer : msg.type < 0 → S.Answer table msg) :
    (∀ q, .push q ∈ acts → q.type = .Request_Get) ∧ ∀ r, .store r ∈ acts → S.Answer table r := by
  rcases Worker.handle_cases ha with ⟨htype, num, out, -, rfl⟩ | ⟨htype, -⟩ | ⟨hneg, ⟨-, rfl⟩ | ⟨-, rfl⟩⟩
  · have hpos : 0 < msg.type := by
      rcases htype with h | h <;> simp [h, MsgType.Request_Get, MsgType.Request_Add]
    refine ⟨fun q hq => ?_, fun r hr => ?_⟩
    · simp only [List.mem_cons, List.mem_map, reduceCtorEq, false_or] at hq
      obtain ⟨q', ⟨it, -, rfl⟩, hq⟩ := hq
      cases hq
      exact hget hpos
    · simp at hr
  · have hpos : 0 < msg.type := by
      rcases htype with h | h <;> simp [h, MsgType.Load_Model, MsgType.Store_Model]
    have hreq := hget hpos
    rcases htype with h | h <;> cases h.symm.trans hreq
  · refine ⟨by simp, fun r hr => ?_⟩
    simp only [List.mem_cons, Act.store.injEq, reduceCtorEq, List.not_mem_nil, or_false] at hr
    exact hr ▸ hanswer hneg
  · simp

theorem Reads.step {popped : List (Message (Blob T))} (h : S.Reads table base s) (htable : table.length = S.size)
    (hinv : Worker.Inv (S.node w) types s popped) (hs : Worker.step (S.node w) types s m = some t)
    (hget : ∀ call, m = .issue call → call.type = .Request_Get)
    (hserve : ∀ k data, m = .serve k data → ∀ msg, s.inFlight[k]? = some msg →
      S.Answer table { msg.createReplyMessage with data := data }) : S.Reads table base t := by
  obtain ⟨-, ho⟩ := Worker.step_outcome hs
  obtain ⟨hmail, hpush, hfly⟩ := h.requests
  obtain ⟨hreplies, hmail', hstore⟩ := h.answers
  cases ho with
  | wait | waitNull | wake | finish | popStop | actStop => exact ⟨h.gets, h.requests, h.answers, h.stored⟩
  | act hi hr => exact Reads.act S h htable hi hr
  | @issue call hc =>
    have htype : (call.message (S.node w).rank s.waitings.length).type = .Request_Get := hget call rfl
    refine ⟨fun id msg hid hmsg => ?_, ⟨fun msg hmsg hpos => ?_, hpush, hfly⟩,
      ⟨hreplies, fun r hr hneg => ?_, hstore⟩, h.stored⟩
    · rcases lt_or_ge id s.calls.length with hlt | hge
      · rw [List.getElem?_append_left hlt] at hmsg
        exact h.gets id msg hid hmsg
      · rw [List.getElem?_append_right hge, List.getElem?_singleton] at hmsg
        split at hmsg
        · cases hmsg
          exact htype
        · cases hmsg
    · rcases List.mem_append.mp hmsg with hmsg | hmsg
      · exact hmail msg hmsg hpos
      · rw [List.mem_singleton] at hmsg
        exact hmsg ▸ htype
    · rcases List.mem_append.mp hr with hr | hr
      · exact hmail' r hr hneg
      · rw [List.mem_singleton] at hr
        subst hr
        rw [htype] at hneg
        exact absurd hneg (by decide)
  | @pop i msg mailbox acts hi hm ha =>
    have hnew := Reads.acts S table ha (hmail msg (by rw [hm]; exact List.mem_cons_self))
      (hmail' msg (by rw [hm]; exact List.mem_cons_self))
    have hthread : ∀ {j x}, x ∈ Function.update s.threads i acts j → x ∈ s.threads j ∨ x ∈ acts := by
      intro j x hx
      by_cases hji : j = i
      · subst hji
        rw [Function.update_self] at hx
        exact .inr hx
      · rw [Function.update_of_ne hji] at hx
        exact .inl hx
    exact ⟨h.gets, ⟨fun q hq => hmail q (by rw [hm]; exact List.mem_cons_of_mem _ hq),
      fun j q hj => (hthread hj).elim (hpush j q) (hnew.1 q), hfly⟩,
      ⟨hreplies, fun r hr => hmail' r (by rw [hm]; exact List.mem_cons_of_mem _ hr),
        fun j r hj => (hthread hj).elim (hstore j r) (hnew.2 r)⟩, h.stored⟩
  | @serve k msg data hk =>
    refine ⟨h.gets, ⟨hmail, hpush, fun q hq => hfly q (List.mem_of_mem_eraseIdx hq)⟩,
      ⟨fun r hr => ?_, hmail', hstore⟩, h.stored⟩
    rcases List.mem_append.mp hr with hr | hr
    · exact hreplies r hr
    · rw [List.mem_singleton] at hr
      exact hr ▸ hserve k data rfl msg hk
  | @deliver k msg hk =>
    have hmem := List.mem_of_getElem? hk
    refine ⟨h.gets, ⟨fun q hq hpos => ?_, hpush, hfly⟩,
      ⟨fun r hr => hreplies r (List.mem_of_mem_eraseIdx hr), fun r hr hneg => ?_, hstore⟩, h.stored⟩
    · rcases List.mem_append.mp hq with hq | hq
      · exact hmail q hq hpos
      · rw [List.mem_singleton] at hq
        subst hq
        exact absurd hpos (hinv.reply q hmem).not_gt
    · rcases List.mem_append.mp hr with hr | hr
      · exact hmail' r hr hneg
      · rw [List.mem_singleton] at hr
        exact hr ▸ hreplies msg hmem

theorem reads_of_quiet {popped : List (Message (Blob T))} (hinv : Worker.Inv (S.node w) types s popped)
    (hq : Worker.Quiet s) (hlen : s.data.length = S.size) : S.Reads table s.calls.length s where
  gets id msg hid hmsg := by
    rw [List.getElem?_eq_none hid] at hmsg
    cases hmsg
  requests := by simp [hq.mailbox, hq.threads, hq.inFlight]
  answers := by simp [hq.mailbox, hq.threads, hq.replies]
  stored := ⟨[], ⟨hlen, by simp⟩, fun r hr hid => by
    have := hinv.past r hr
    have := hinv.length
    omega⟩

/-- A Get of the reading phase that has returned put the whole table into the buffer. -/
theorem data_of_returned {popped : List (Message (Blob T))} (h : S.Reads table base s)
    (hinv : Worker.Inv (S.node w) types s popped) (htable : table.length = S.size)
    (hlegit : ∀ msg ∈ s.calls, S.Legit msg) (hid : base ≤ id) (hret : s.phases id = .returned) :
    s.data = table := by
  obtain ⟨msg, acts, hmsg, ha, hall⟩ := Worker.answered_of_returned hinv hret
  have htype := h.gets id msg hid hmsg
  have hdata : msg.data = [.key (-1)] := by
    rcases hlegit msg (List.mem_of_getElem? hmsg) with ⟨-, hdata⟩ | ⟨a, -, hadd, -⟩
    · exact hdata
    · cases hadd.symm.trans htype
  obtain ⟨done, hfilled, hdone⟩ := h.stored
  refine hfilled.eq S.pos (fun j hj => ?_) htable
  have hrequest : Worker.newMsg (S.node w) msg.type msg j [.key (-1)] ∈ Worker.requests (S.node w) msg := by
    rw [S.requests_get htype hdata]
    exact List.mem_map_of_mem ((S.perm w).mem_iff.mpr (List.mem_range.mpr hj))
  have hpush : .push (Worker.newMsg (S.node w) msg.type msg j [.key (-1)]) ∈ acts := by
    rw [Worker.requests, ha] at hrequest
    obtain ⟨x, hx, heq⟩ := List.mem_filterMap.mp hrequest
    cases x with
    | push q =>
      cases heq
      exact hx
    | reset | store | notify => cases heq
  obtain ⟨reply, hreplied, hstored⟩ := hall _ hpush
  have hreply := (hinv.settled _ hreplied).1
  dsimp only at hreply
  have hmsgId : reply.msgId = id := by
    rw [hreply]
    exact hinv.msgId id msg hmsg
  obtain ⟨j', hj', hsrc⟩ := hdone reply (hstored htype) (hmsgId.symm ▸ hid)
  have hfrom : reply.src = S.serverIdToRank j := by
    rw [hreply]
    rfl
  rwa [S.injective (hfrom.symm.trans hsrc)]

/-! ### Runs without Adds -/

section Ring

variable [CommRing T] {c c' : Cluster T W n} {a : ClusterMove T W n} {bases : Fin W → ℕ}

/-- The servers hold the table, and the workers read it. -/
structure Reading (table : List T) (bases : Fin W → ℕ) (c : Cluster T W n) : Prop where
  inv : S.Inv c
  reads : ∀ w, S.Reads table (bases w) (c.workers w)
  storage : ∀ j : Fin n, (c.servers j).storage = slice S.share table j

theorem reading_step (htable : table.length = S.size) (h : S.Reading table bases c)
    (hs : S.step c a = some c') (ha : ∀ w data option, a ≠ .add w data option) :
    S.Reading table bases c' := by
  have hinv := S.inv_step h.inv hs
  cases S.step_outcome hs with
  | @work a w m s hw hm hcall =>
    obtain ⟨popped, hworker⟩ := h.inv.worker w
    refine ⟨hinv, forall_update (P := fun w s => S.Reads table (bases w) s) h.reads ?_, h.storage⟩
    refine (h.reads w).step S htable hworker hw (fun call hc => ?_) fun k data hserve => absurd hserve (hm k data)
    obtain ⟨hlegit, hadd⟩ := hcall call hc 0
    rcases hlegit with ⟨htype, -⟩ | ⟨_, -, htype, -⟩
    · exact htype
    · obtain ⟨data, option, heq⟩ := hadd htype
      exact absurd heq (ha w data option)
  | @check w data option => exact absurd rfl (ha w data option)
  | @serve w k j msg server data s hk hdst hh hw =>
    have hmem := List.mem_of_getElem? hk
    obtain ⟨j', hpart⟩ := S.part_of_inFlight h.inv hmem
    have hj : j' = j := Fin.ext (S.injective (hpart.1.symm.trans hdst))
    subst hj
    have htype := (h.reads w).requests.2.2 msg hmem
    have hdata : msg.data = [.key (-1)] := by
      rcases hpart.2 with ⟨-, hdata⟩ | ⟨a, -, hadd, -⟩
      · exact hdata
      · cases hadd.symm.trans htype
    obtain ⟨hserverId, hsize, hsolver, hlen⟩ := h.inv.server j'
    obtain ⟨data', hh', hanswer⟩ := S.handle_part hsize hsolver hlen hpart
    rw [hh] at hh'
    cases hh'
    rw [S.received_get hdata] at hinv hs hh ⊢
    obtain ⟨popped, hworker⟩ := h.inv.worker w
    have hsame : Function.update c.servers j' (c.servers j') = c.servers := Function.update_eq_self j' c.servers
    refine ⟨hinv, forall_update (P := fun w s => S.Reads table (bases w) s) h.reads ?_, ?_⟩
    · refine (h.reads w).step S htable hworker hw (fun call hc => nomatch hc) fun k' data' heq msg' hk' => ?_
      cases heq
      cases hk.symm.trans hk'
      exact ⟨j', j'.isLt, hpart.1, by rw [hanswer htype, hserverId, h.storage]⟩
    · dsimp only
      rw [hsame]
      exact h.storage
  | @serveStop w k j msg e hk hdst hh =>
    obtain ⟨j', hpart⟩ := S.part_of_inFlight h.inv (List.mem_of_getElem? hk)
    have hj : j' = j := Fin.ext (S.injective (hpart.1.symm.trans hdst))
    subst hj
    obtain ⟨hserverId, hsize, hsolver, hlen⟩ := h.inv.server j'
    obtain ⟨data', hh', -⟩ := S.handle_part hsize hsolver hlen hpart
    rw [hh] at hh'
    cases hh'

theorem reading_exec (htable : table.length = S.size) {as : List (ClusterMove T W n)}
    (h : S.Reading table bases c) (hs : exec S.step c as = some c')
    (ha : ∀ a ∈ as, ∀ w data option, a ≠ .add w data option) : S.Reading table bases c' := by
  induction as generalizing c with
  | nil =>
    cases hs
    exact h
  | cons a as ih =>
    obtain ⟨t, ht, hs⟩ := exec_cons.mp hs
    exact ih (S.reading_step htable h ht (ha a List.mem_cons_self)) hs
      fun b hb => ha b (List.mem_cons_of_mem _ hb)

/-- In every state with nothing on its way each element of the table is its initial value plus what the
Adds contribute, every waiter has counted down to zero, and a Get made from there reads this table. -/
theorem updates_kept {buffer : Fin W → List T} (hb : ∀ w, (buffer w).length = S.size)
    (h : Reachable S.step (S.init buffer) c) (hq : Quiet c) :
    c.stop = none ∧ (∀ j : Fin n, (c.servers j).storage = slice S.share (S.table c) j) ∧
    (∀ w, ∀ id < (c.workers w).waitings.length, (c.workers w).waitings[id]? =
      some (if (c.workers w).phases id = .returned then none else some 0)) ∧
    ∀ as c', exec S.step c as = some c' → (∀ a ∈ as, ∀ w data option, a ≠ .add w data option) →
      ∀ w id, (c.workers w).calls.length ≤ id → (c'.workers w).phases id = .returned →
        (c'.workers w).data = S.table c := by
  have hinv := S.reachable_inv hb h
  have htable : (S.table c).length = S.size := by simp [table]
  refine ⟨hinv.stop, S.storage_eq hinv hq, fun w id hid => ?_, fun as c' hs ha w id hid hret => ?_⟩
  · obtain ⟨popped, hworker⟩ := hinv.worker w
    exact Worker.waiting_of_quiet hworker (hq w) hid
  · have hstart : S.Reading (S.table c) (fun w => (c.workers w).calls.length) c := by
      refine ⟨hinv, fun w => ?_, S.storage_eq hinv hq⟩
      obtain ⟨popped, hworker⟩ := hinv.worker w
      exact S.reads_of_quiet hworker (hq w) (hinv.buffer w)
    have hend := S.reading_exec htable hstart hs ha
    obtain ⟨popped, hworker⟩ := hend.inv.worker w
    exact S.data_of_returned (hend.reads w) hworker htable (hend.inv.legit w) hid hret

end Ring

/-- Two workers and two servers with ranks 2 and 3, and a table that is 0, 1, 2 at first. -/
def sgdOfThree : ArraySystem ℤ 2 2 where
  size := 3
  solver := .sgd
  rate := 1
  gen i := i
  workerRank w := w
  serverIdToRank i := i + 2
  injective i j h := by simpa using h
  order _ := [1, 0]
  perm _ := .swap 0 1 []
  pos := Nat.zero_lt_two
  lt_size := Frame.Worker.two_lt_three
  size_lt := Frame.Worker.three_lt_int

open TwoParties in
/-- Each server handles the two Adds in another order. -/
def addsOfThree : List (ClusterMove ℤ 2 2) :=
  [.add 0 [1, 2, 3] (some ⟨2⟩), .add 1 [1, 1, 1] none, .work 0 (.pop 0), .work 1 (.pop 1), .work 0 (.act 0),
    .work 0 (.act 0), .work 1 (.act 1), .work 1 (.act 1), .work 1 (.act 1), .serve 1 1 0, .serve 0 0 1,
    .serve 1 0 1, .work 0 (.act 0), .serve 0 0 0, .work 0 (.deliver 1), .work 0 (.deliver 0), .work 0 (.pop 0),
    .work 0 (.pop 1), .work 0 (.act 1), .work 0 (.act 0), .work 1 (.deliver 0), .work 1 (.pop 0),
    .work 1 (.act 0), .work 1 (.deliver 0), .work 1 (.pop 0), .work 1 (.act 0)]

open TwoParties in
def readOfThree : List (ClusterMove ℤ 2 2) :=
  [.get 1, .work 1 (.wait 1), .work 1 (.pop 1), .work 1 (.act 1), .work 1 (.act 1), .work 1 (.act 1),
    .serve 1 1 0, .serve 1 0 1, .work 1 (.deliver 0), .work 1 (.deliver 0), .work 1 (.pop 1), .work 1 (.pop 0),
    .work 1 (.act 0), .work 1 (.act 1), .work 1 (.act 1), .work 1 (.act 0), .work 1 (.wake 1),
    .work 1 (.finish 1)]

def startOfThree : Cluster ℤ 2 2 := sgdOfThree.init fun _ => [0, 0, 0]

theorem updates_kept_three : ∃ c c' : Cluster ℤ 2 2,
    exec sgdOfThree.step startOfThree addsOfThree = some c ∧ exec sgdOfThree.step c readOfThree = some c' ∧
    sgdOfThree.table c = [-3, -4, -5] ∧ c.stop = none ∧ (c'.workers 1).data = sgdOfThree.table c := by
  have h : exec sgdOfThree.step startOfThree addsOfThree =
      some ((exec sgdOfThree.step startOfThree addsOfThree).getD startOfThree) := rfl
  have h' : exec sgdOfThree.step ((exec sgdOfThree.step startOfThree addsOfThree).getD startOfThree) readOfThree =
      some ((exec sgdOfThree.step startOfThree (addsOfThree ++ readOfThree)).getD startOfThree) := rfl
  have hq : Quiet ((exec sgdOfThree.step startOfThree addsOfThree).getD startOfThree) := by
    intro w
    fin_cases w <;> exact ⟨by decide +kernel, by decide +kernel, by decide +kernel, by decide +kernel⟩
  obtain ⟨hstop, -, -, hread⟩ := sgdOfThree.updates_kept (fun _ => rfl) ⟨addsOfThree, h⟩ hq
  exact ⟨_, _, h, h', by decide +kernel, hstop,
    hread readOfThree _ h' (by simp [readOfThree]) 1 1 (by decide +kernel) (by decide +kernel)⟩

end Hpps.Table.ArraySystem

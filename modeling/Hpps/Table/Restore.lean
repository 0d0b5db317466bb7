import Hpps.Table.Checkpoint

/-! A run that loads the checkpoint of another, and the Gets that read it. -/
namespace Hpps.Table

open Hpps.Frame TransitionSystem Blocks

/-! ### Gets that are not stored -/

section Open

variable {β D : Type} {node : WorkerNode β D} {types : List MsgType} {s t : WorkerState β D} {m : WorkerMove β}
  {msg : Message β}

/-- The act is part of a Get, up to the reply that is stored. -/
def isGet : Act β → Bool
  | .push msg => msg.type = .Request_Get
  | .store _ => true
  | _ => false

/-- The replies to all Gets are stored. -/
def GetsStored (s : WorkerState β D) : Prop :=
  (∀ msg ∈ s.mailbox, msg.type ≠ .Request_Get ∧ msg.type ≠ .Reply_Get) ∧
    (∀ msg ∈ s.inFlight, msg.type ≠ .Request_Get) ∧ (∀ msg ∈ s.replies, msg.type ≠ .Reply_Get) ∧
    ∀ i, ∀ x ∈ s.threads i, isGet x = false

instance : Decidable (GetsStored s) := inferInstanceAs (Decidable (_ ∧ _ ∧ _ ∧ _))

/-- A request of a Get or a reply that is not stored. -/
inductive GetOpen (s : WorkerState β D) (msg : Message β) : Prop
  | mailbox (htype : msg.type = .Request_Get ∨ msg.type = .Reply_Get) (hmem : msg ∈ s.mailbox)
  | inFlight (htype : msg.type = .Request_Get) (hmem : msg ∈ s.inFlight)
  | replies (htype : msg.type = .Reply_Get) (hmem : msg ∈ s.replies)
  | push {i : Fin kWorkerThreadNum} (htype : msg.type = .Request_Get) (hmem : .push msg ∈ s.threads i)
  | store {i : Fin kWorkerThreadNum} (hmem : .store msg ∈ s.threads i)

theorem GetsStored.not_open (h : GetsStored s) : ¬ GetOpen s msg := by
  obtain ⟨hmail, hfly, hreplies, hthreads⟩ := h
  rintro (⟨htype, hmem⟩ | ⟨htype, hmem⟩ | ⟨htype, hmem⟩ | ⟨htype, hmem⟩ | hmem)
  · exact htype.elim (hmail msg hmem).1 (hmail msg hmem).2
  · exact hfly msg hmem htype
  · exact hreplies msg hmem htype
  · simpa [isGet, htype] using hthreads _ _ hmem
  · cases hthreads _ _ hmem

theorem GetOpen.frame (h : GetOpen t msg) (hmail : t.mailbox = s.mailbox) (hfly : t.inFlight = s.inFlight)
    (hreplies : t.replies = s.replies) (hthreads : t.threads = s.threads) : GetOpen s msg := by
  cases h with
  | mailbox htype hmem => exact .mailbox htype (hmail ▸ hmem)
  | inFlight htype hmem => exact .inFlight htype (hfly ▸ hmem)
  | replies htype hmem => exact .replies htype (hreplies ▸ hmem)
  | push htype hmem => exact .push htype (hthreads ▸ hmem)
  | store hmem => exact .store (hthreads ▸ hmem)

/-- A reply to a Get that is not stored is open. -/
theorem open_of_unstored (h : Worker.Unstored s msg) (htype : msg.type = .Reply_Get) : GetOpen s msg := by
  rcases h with h | ⟨h, -⟩ | ⟨i, h⟩
  · exact .replies htype h
  · exact .mailbox (.inr htype) h
  · exact .store h

/-- What is open was so before for its call, or is a new call. -/
theorem open_of_step (hs : Worker.step node types s m = some t) (h : GetOpen t msg) :
    (∃ q, GetOpen s q ∧ q.msgId = msg.msgId) ∨ msg.msgId = s.waitings.length := by
  obtain ⟨-, ho⟩ := Worker.step_outcome hs
  have hsame : GetOpen s msg → (∃ q, GetOpen s q ∧ q.msgId = msg.msgId) ∨ msg.msgId = s.waitings.length :=
    fun h => .inl ⟨msg, h, rfl⟩
  cases ho with
  | wait | waitNull | wake | finish | popStop | actStop => exact hsame (h.frame rfl rfl rfl rfl)
  | issue hc =>
    cases h with
    | mailbox htype hmem =>
      rcases List.mem_append.mp hmem with hmem | hmem
      · exact hsame (.mailbox htype hmem)
      · rw [List.mem_singleton.mp hmem]
        exact .inr rfl
    | inFlight htype hmem => exact hsame (.inFlight htype hmem)
    | replies htype hmem => exact hsame (.replies htype hmem)
    | push htype hmem => exact hsame (.push htype hmem)
    | store hmem => exact hsame (.store hmem)
  | @pop i q mailbox acts hi hm ha =>
    have hq : q ∈ s.mailbox := by rw [hm]; exact List.mem_cons_self
    cases h with
    | mailbox htype hmem => exact hsame (.mailbox htype (by rw [hm]; exact List.mem_cons_of_mem _ hmem))
    | inFlight htype hmem => exact hsame (.inFlight htype hmem)
    | replies htype hmem => exact hsame (.replies htype hmem)
    | push htype hmem =>
      rcases Worker.mem_update_acts hmem with hmem | hmem
      · exact hsame (.push htype hmem)
      · refine .inl ⟨q, .mailbox (.inl ?_) hq, (Worker.mem_requests ha hmem).1.symm⟩
        rw [← Worker.type_of_push ha hmem, htype]
    | store hmem =>
      rcases Worker.mem_update_acts hmem with hmem | hmem
      · exact hsame (.store hmem)
      · obtain ⟨rfl, htype⟩ := Worker.eq_of_store ha hmem
        exact hsame (.mailbox (.inr htype) hq)
  | @act i x acts u hi hr =>
    have htail : ∀ {y : Act β} {j}, y ∈ Function.update s.threads i acts j → y ∈ s.threads j :=
      fun hy => mem_update_tail hi hy
    cases x with
    | reset | notify | store =>
      rw [Worker.perform] at hr
      split at hr <;> cases hr
      refine hsame ?_
      cases h with
      | mailbox htype hmem => exact .mailbox htype hmem
      | inFlight htype hmem => exact .inFlight htype hmem
      | replies htype hmem => exact .replies htype hmem
      | push htype hmem => exact .push htype (htail hmem)
      | store hmem => exact .store (htail hmem)
    | push q =>
      cases hr
      refine hsame ?_
      cases h with
      | mailbox htype hmem => exact .mailbox htype hmem
      | inFlight htype hmem =>
        rcases List.mem_append.mp hmem with hmem | hmem
        · exact .inFlight htype hmem
        · obtain rfl := List.mem_singleton.mp hmem
          exact .push htype (by rw [hi]; exact List.mem_cons_self)
      | replies htype hmem => exact .replies htype hmem
      | push htype hmem => exact .push htype (htail hmem)
      | store hmem => exact .store (htail hmem)
  | @serve k q data hk =>
    cases h with
    | mailbox htype hmem => exact hsame (.mailbox htype hmem)
    | inFlight htype hmem => exact hsame (.inFlight htype (List.mem_of_mem_eraseIdx hmem))
    | replies htype hmem =>
      rcases List.mem_append.mp hmem with hmem | hmem
      · exact hsame (.replies htype hmem)
      · obtain rfl := List.mem_singleton.mp hmem
        exact .inl ⟨q, .inFlight (neg_inj.mp htype) (List.mem_of_getElem? hk), rfl⟩
    | push htype hmem => exact hsame (.push htype hmem)
    | store hmem => exact hsame (.store hmem)
  | @deliver k q hk =>
    refine hsame ?_
    cases h with
    | mailbox htype hmem =>
      rcases List.mem_append.mp hmem with hmem | hmem
      · exact .mailbox htype hmem
      · obtain rfl := List.mem_singleton.mp hmem
        refine .replies (htype.resolve_left fun hget => ?_) (List.mem_of_getElem? hk)
        have hlocal := Worker.local_of_deliver hs hk
        rw [hget] at hlocal
        cases hlocal
    | inFlight htype hmem => exact .inFlight htype hmem
    | replies htype hmem => exact .replies htype (List.mem_of_mem_eraseIdx hmem)
    | push htype hmem => exact .push htype hmem
    | store hmem => exact .store hmem

end Open

namespace ArrayJob

variable {T : Type} {W n : ℕ} {J : ArrayJob T W n} {c c' : CheckpointCluster T W} {a : CheckpointMove T W} {w v : Fin W}
  {uri : String} {msg r : Message (Blob T)} {files : String → Option (List T)} {table : List T} {s t : GetState T}
  {m : WorkerMove (Blob T)} {id b : ℕ}

/-! ### What the runs that load do -/

/-- All servers have loaded their files. -/
def Loaded (n : ℕ) (uri : String) (c : CheckpointCluster T W) : Prop := ∀ j < n, (j, fileOf uri j) ∈ c.loads

instance : Decidable (Loaded n uri c) := inferInstanceAs (Decidable (∀ j < n, _))

/-- The message does not write over the file of its server, and when this has loaded its file the message neither
adds nor loads another. -/
def Harmless (uri : String) (c : CheckpointCluster T W) (msg : Message (Blob T)) : Prop :=
  let server := c.servers msg.dst.toNat
  let file := fileOf uri server.serverId
  (msg.type = .Store_Model → msg.data ≠ [.uri file]) ∧ ((server.serverId, file) ∈ c.loads →
    msg.type ≠ .Request_Add ∧ (msg.type = .Load_Model → msg.data = [.uri file]))

/-- The clients do not change what is restored. No waiter is deleted while replies to it are on their way, and a Get
is called when those before it are stored. -/
def Careful (uri : String) (c : CheckpointCluster T W) : CheckpointMove T W → Prop
  | .get w _ => GetsStored (c.workers w)
  | .work w m => Worker.Spared (c.workers w) m
  | .serve w k _ => ∀ msg ∈ (c.workers w).inFlight[k]?, Harmless uri c msg
  | _ => True

instance [DecidableEq T] : Decidable (Harmless uri c msg) := inferInstanceAs (Decidable (_ ∧ _))

instance [DecidableEq T] : Decidable (Careful uri c a) := by
  cases a <;> unfold Careful <;> infer_instance

/-! ### Loading -/

/-- A server that has loaded its file has its share of the table. -/
structure Loading (J : ArrayJob T W n) (files : String → Option (List T)) (uri : String) (table : List T)
    (c : CheckpointCluster T W) : Prop where
  inv : J.Inv files c
  kept : ∀ w, Worker.Kept (c.workers w) ∧ (c.workers w).crash ≠ some .waiter
  files : ∀ j < n, c.files (fileOf uri j) = some (slice J.share table j)
  loaded : ∀ j < n, (j, fileOf uri j) ∈ c.loads → (c.servers (J.rankOf j)).storage = slice J.share table j

theorem rankOf_inj {i j : ℕ} (hi : i < n) (hj : j < n) (h : J.rankOf i = J.rankOf j) : i = j := by
  have hid := (rankOf_eq (J := J) hi).2.symm.trans ((congrArg J.zoo.rankToServerId h).trans (rankOf_eq (J := J) hj).2)
  omega

/-- A file as long as the storage replaces it. -/
theorem load_eq {server : SolverServer T} {stream : List T} (h : stream.length = server.storage.length) :
    (server.Load stream).storage = stream := by
  rw [SolverServer.Load, Rows.overwrite, List.take_of_length_le h.le, h]
  simp

theorem Loading.handled {c₁ : CheckpointCluster T W} {data : List (Blob T)} (h : J.Loading files uri table c)
    (htable : table.length = J.size) (hpart : J.IsPart msg) (hharmless : Harmless uri c msg)
    (hh : Handled c msg.dst.toNat msg c₁ data) : J.Loading files uri table c₁ ∧ ∀ e ∈ c.loads, e ∈ c₁.loads := by
  obtain ⟨hstore, hloaded⟩ := hharmless
  have hinv := h.inv.handled hpart hh
  cases hh with
  | @store file rest htype hdata =>
    obtain ⟨j, hj, hr, hid, rfl, uri', rfl⟩ := server_of_model h.inv hpart (.inl htype) hdata
    rw [hr, hid] at hstore
    refine ⟨{ h with inv := hinv, files := fun i hi => ?_ }, fun e he => he⟩
    have hne : fileOf uri i ≠ fileOf uri' j := by
      intro heq
      obtain rfl := fileOf_injective heq
      exact hstore htype (by rw [hdata, heq])
    exact (Function.update_of_ne hne _ _).trans (h.files i hi)
  | @load file rest stream htype hdata hfile =>
    obtain ⟨j, hj, hr, hid, rfl, uri', rfl⟩ := server_of_model h.inv hpart (.inr htype) hdata
    rw [hr, hid] at hloaded
    refine ⟨{ h with inv := hinv, loaded := fun i hi hmem => ?_ }, fun e he => List.mem_append_left _ he⟩
    dsimp only at hmem ⊢
    rw [hr, hid] at hmem
    rw [hr]
    by_cases hij : i = j
    · subst hij
      rw [Function.update_self]
      have hsame : fileOf uri i = fileOf uri' i := by
        rcases List.mem_append.mp hmem with hmem | hmem
        · have heq := (hloaded hmem).2 htype
          rw [hdata] at heq
          simpa using heq.symm
        · simpa using hmem
      rw [← hsame, h.files i hi] at hfile
      cases hfile
      apply load_eq
      rw [length_slice (htable.trans (offset_share_last J.pos).symm) hi, (h.inv.server i hi).length]
    · have hne : J.rankOf i ≠ J.rankOf j := fun heq => hij (rankOf_inj hi hj heq)
      rw [Function.update_of_ne hne]
      refine h.loaded i hi ((List.mem_append.mp hmem).resolve_right fun hmem => ?_)
      rw [List.mem_singleton, Prod.mk.injEq] at hmem
      exact hij hmem.1
  | get => exact ⟨h, fun e he => he⟩
  | add htype hadd =>
    refine ⟨{ h with inv := hinv, loaded := ?_ }, fun e he => he⟩
    refine forall_server (P := fun j server => (j, fileOf uri j) ∈ c.loads → server.storage = slice J.share table j)
      h.loaded fun j hj hr _ hmem => ?_
    have hid : (c.servers msg.dst.toNat).serverId = j := by rw [← hr, (h.inv.server j hj).serverId]
    rw [hid] at hloaded
    exact absurd htype (hloaded hmem).1

/-- A worker moves. -/
theorem Loading.worked (h : J.Loading files uri table c)
    (hinv : J.Inv files { c with workers := Function.update c.workers w s })
    (hkept : Worker.Kept s ∧ s.crash ≠ some .waiter) :
    J.Loading files uri table { c with workers := Function.update c.workers w s } :=
  { h with
    inv := hinv
    kept := forall_worker (P := fun _ s => Worker.Kept s ∧ s.crash ≠ some .waiter) h.kept hkept }

theorem Loading.step (h : J.Loading files uri table c) (htable : table.length = J.size) (ha : Careful uri c a)
    (hs : J.step c a = some c') : J.Loading files uri table c' ∧ ∀ e ∈ c.loads, e ∈ c'.loads := by
  have hinv := h.inv.step hs
  have hcovered : ∀ w, Worker.Covered (J.node w) (c.workers w) := fun w => (h.inv.worker w).covered
  cases step_outcome hs with
  | @get w buffer s hw =>
    obtain ⟨hkept, hcrash⟩ := (h.kept w).1.step (hcovered w) (by exact trivial) hw
    exact ⟨h.worked hinv ⟨⟨hkept.called, hkept.null, hkept.ended⟩, hcrash⟩, fun _ he => he⟩
  | @call a w call s hmakes hw =>
    exact ⟨h.worked hinv ((h.kept w).1.step (hcovered w) (by exact trivial) hw), fun _ he => he⟩
  | @work w m s hw => exact ⟨h.worked hinv ((h.kept w).1.step (hcovered w) ha hw), fun _ he => he⟩
  | @check w data option e =>
    obtain ⟨hkept, -⟩ := h.kept w
    exact ⟨h.worked hinv ⟨⟨hkept.called, hkept.null, hkept.ended⟩, by simp⟩, fun _ he => he⟩
  | @serve w k written msg c₁ data s hk hh hw =>
    have hpart := (h.inv.worker w).split.inFlight msg (List.mem_of_getElem? hk)
    obtain ⟨h₁, hloads⟩ := h.handled htable hpart (ha msg hk) hh
    have hworkers := hh.workers_eq
    have hkept := (h.kept w).1.step (hcovered w) (by exact trivial) hw
    rw [← hworkers] at hinv ⊢
    exact ⟨h₁.worked hinv hkept, hloads⟩
  | serveStop => exact ⟨{ h with inv := hinv }, fun _ he => he⟩

/-! ### Reading -/

/-- The reply is the share of its server. -/
def Answer (J : ArrayJob T W n) (table : List T) (r : Message (Blob T)) : Prop :=
  ∃ j < n, r.src = serverRank J.zoo j ∧ r.data = [.key j, .values (slice J.share table j)]

/-- The replies are shares of the table, and those to call `id` are copied to buffer `b`. -/
structure Fresh (J : ArrayJob T W n) (table : List T) (id b : ℕ) (s : GetState T) : Prop where
  call : ∃ msg, s.calls[id]? = some msg ∧ msg.type = .Request_Get
  answers : ∀ r, Worker.Unstored s r → r.type = .Reply_Get → J.Answer table r
  aimed : s.data.current = b ∨ ∀ msg, GetOpen s msg → msg.msgId ≠ id
  stored : ∃ done, Filled J.size n table (s.data.buffer b) done ∧
    ∀ r ∈ s.stored, r.msgId = id → ∃ j ∈ done, r.src = serverRank J.zoo j

theorem Fresh.lt (h : J.Fresh table id b s) (hsound : J.Sound w s) : id < s.waitings.length := by
  obtain ⟨msg, hmsg, -⟩ := h.call
  rw [← hsound.covered.length_calls]
  exact (List.getElem?_eq_some_iff.mp hmsg).1

/-- A reply is copied to its share of the buffer that `data_` points to. -/
theorem Fresh.stores {d : Buffers T} (h : J.Fresh table id b s) (hsound : J.Sound w s) (htable : table.length = J.size)
    (hr : Worker.Unstored s r) (htype : r.type = .Reply_Get)
    (hd : (J.node w).table.ProcessReplyGet s.data r.data = .ok d) : d.current = s.data.current ∧
      ∃ done, Filled J.size n table (d.buffer b) done ∧
        ∀ q ∈ s.stored ++ [r], q.msgId = id → ∃ j ∈ done, q.src = serverRank J.zoo j := by
  obtain ⟨j, hj, hsrc, hdata⟩ := h.answers r hr htype
  obtain ⟨done, hfilled, hdone⟩ := h.stored
  have hlen : (slice J.share table j).length = J.share j :=
    length_slice (htable.trans (offset_share_last J.pos).symm) hj
  have heq : (J.node w).table.ProcessReplyGet s.data r.data = .ok { s.data with
      buffer := Function.update s.data.buffer s.data.current
        (Rows.overwrite (s.data.buffer s.data.current) (J.offset j) (slice J.share table j)) } := by
    rw [hdata]
    dsimp only [node, reader, GetSystem.node, GetSystem.table]
    rw [processReplyGet_eq J.pos (J.size_lt.trans (by norm_num)) hj (hsound.buffer _) hlen]
    rfl
  rw [heq] at hd
  cases hd
  refine ⟨rfl, ?_⟩
  by_cases hb : b = s.data.current
  · subst hb
    refine ⟨j :: done, ?_, fun q hq hid => ?_⟩
    · dsimp only
      rw [Function.update_self]
      exact hfilled.reply J.pos hj htable
    · rcases List.mem_append.mp hq with hq | hq
      · obtain ⟨i, hi, hsrc'⟩ := hdone q hq hid
        exact ⟨i, List.mem_cons_of_mem _ hi, hsrc'⟩
      · exact ⟨j, List.mem_cons_self, List.mem_singleton.mp hq ▸ hsrc⟩
  · refine ⟨done, ?_, fun q hq hid => ?_⟩
    · dsimp only
      rwa [Function.update_of_ne hb]
    · rcases List.mem_append.mp hq with hq | hq
      · exact hdone q hq hid
      · -- the buffer is another one only when nothing of this call is left
        have hopen := open_of_unstored hr htype
        rw [List.mem_singleton.mp hq] at hid
        exact absurd hid (h.aimed.resolve_left (Ne.symm hb) r hopen)

theorem Fresh.step (h : J.Fresh table id b s) (hsound : J.Sound w s) (htable : table.length = J.size)
    (hs : Worker.step (J.node w) types s m = some t)
    (hserve : ∀ k data, m = .serve k data → ∀ msg, s.inFlight[k]? = some msg → msg.type = .Request_Get →
      J.Answer table { msg.createReplyMessage with data := data }) : J.Fresh table id b t := by
  have hcall : ∃ msg, t.calls[id]? = some msg ∧ msg.type = .Request_Get := by
    obtain ⟨msg, hmsg, htype⟩ := h.call
    obtain ⟨calls, heq⟩ := Worker.calls_of_step hs
    refine ⟨msg, ?_, htype⟩
    rw [← heq, List.getElem?_append_left (List.getElem?_eq_some_iff.mp hmsg).1, hmsg]
  have hanswers : ∀ r, Worker.Unstored t r → r.type = .Reply_Get → J.Answer table r := by
    intro r hr htype
    rcases Worker.unstored_of_step hs hr with hr | ⟨k, data, msg, rfl, hk, rfl⟩
    · exact h.answers r hr htype
    · exact hserve k data rfl msg hk (neg_inj.mp htype)
  have hopen : (∀ msg, GetOpen s msg → msg.msgId ≠ id) → ∀ msg, GetOpen t msg → msg.msgId ≠ id := by
    intro hnone msg hmsg hid
    rcases open_of_step hs hmsg with ⟨q, hq, hqid⟩ | hnew
    · exact hnone q hq (hqid.trans hid)
    · exact absurd (hnew.symm.trans hid) (h.lt hsound).ne'
  rcases Worker.stored_of_step hs with ⟨hstored, hdata⟩ | ⟨i, r, hr, hd, hstored⟩
  · refine ⟨hcall, hanswers, ?_, ?_⟩
    · rw [hdata]
      exact h.aimed.imp_right hopen
    · rw [hdata, hstored]
      exact h.stored
  · obtain ⟨hcurrent, hfilled⟩ := h.stores hsound htable (.inr (.inr ⟨i, hr⟩)) (hsound.store i r hr) hd
    refine ⟨hcall, hanswers, ?_, ?_⟩
    · rw [hcurrent]
      exact h.aimed.imp_right hopen
    · rw [hstored]
      exact hfilled

/-- A Get that is called when those before it are stored does not disturb call `id`. -/
theorem Fresh.get (h : J.Fresh table id b s) (hsound : J.Sound w s) (hstored : GetsStored s)
    (hs : Worker.step (J.node w) types s (.issue ArrayWorker.getAsync) = some t) (hfresh : J.Fresh table id b t)
    (current : ℕ) : J.Fresh table id b { t with data := { t.data with current } } := by
  refine ⟨hfresh.call, hfresh.answers, .inr fun msg hmsg hid => ?_, hfresh.stored⟩
  rcases open_of_step hs (hmsg.frame rfl rfl rfl rfl) with ⟨q, hq, -⟩ | hnew
  · exact hstored.not_open hq
  · exact absurd (hnew.symm.trans hid) (h.lt hsound).ne'

theorem Fresh.crashed (h : J.Fresh table id b s) (e : Option Crash) : J.Fresh table id b { s with crash := e } :=
  ⟨h.call, h.answers, h.aimed.imp_right fun hnone msg hmsg => hnone msg (hmsg.frame rfl rfl rfl rfl), h.stored⟩

/-- All servers have the table, and worker `v` reads it. -/
structure Reading (J : ArrayJob T W n) (files : String → Option (List T)) (uri : String) (table : List T) (v : Fin W)
    (id b : ℕ) (c : CheckpointCluster T W) : Prop where
  loading : J.Loading files uri table c
  loaded : Loaded n uri c
  fresh : J.Fresh table id b (c.workers v)

/-- A Get is answered with the share of a server that has loaded. -/
theorem Reading.answer {c₁ : CheckpointCluster T W} {data : List (Blob T)} (h : J.Reading files uri table v id b c)
    (hpart : J.IsPart msg) (hh : Handled c msg.dst.toNat msg c₁ data) (htype : msg.type = .Request_Get) :
    J.Answer table { msg.createReplyMessage with data := data } := by
  obtain ⟨j, hj, hdst, -⟩ := hpart.get htype
  have hr : msg.dst.toNat = J.rankOf j := by rw [rankOf, hdst]
  cases hh with
  | store hstore => cases htype.symm.trans hstore
  | load hload => cases htype.symm.trans hload
  | add hadd => cases htype.symm.trans hadd
  | get =>
    refine ⟨j, hj, hdst, ?_⟩
    rw [hr, (h.loading.inv.server j hj).serverId, h.loading.loaded j hj (h.loaded j hj)]

theorem Reading.step (h : J.Reading files uri table v id b c) (htable : table.length = J.size) (ha : Careful uri c a)
    (hs : J.step c a = some c') : J.Reading files uri table v id b c' := by
  obtain ⟨hloading, hloads⟩ := h.loading.step htable ha hs
  refine ⟨hloading, fun j hj => hloads _ (h.loaded j hj), ?_⟩
  have hsound := h.loading.inv.worker
  have hmove : ∀ {w m s}, Worker.step (J.node w) types (c.workers w) m = some s →
      (∀ k data, m = .serve k data → ∀ msg, (c.workers w).inFlight[k]? = some msg → msg.type = .Request_Get →
        J.Answer table { msg.createReplyMessage with data := data }) →
      J.Fresh table id b (Function.update c.workers w s v) := by
    intro w m s hw hserve
    by_cases hv : v = w
    · subst hv
      rw [Function.update_self]
      exact h.fresh.step (hsound v) htable hw hserve
    · rw [Function.update_of_ne hv]
      exact h.fresh
  cases step_outcome hs with
  | @get w buffer s hw =>
    dsimp only
    by_cases hv : v = w
    · subst hv
      rw [Function.update_self]
      have hfresh := h.fresh.step (hsound v) htable hw (fun _ _ hm => nomatch hm)
      exact h.fresh.get (hsound v) ha hw hfresh buffer
    · rw [Function.update_of_ne hv]
      exact h.fresh
  | call hmakes hw => exact hmove hw fun _ _ hm => nomatch hm
  | work hw hissue hserve => exact hmove hw fun k data hm => absurd hm (hserve k data)
  | @check w data option e =>
    dsimp only
    by_cases hv : v = w
    · subst hv
      rw [Function.update_self]
      exact h.fresh.crashed _
    · rw [Function.update_of_ne hv]
      exact h.fresh
  | @serve w k written msg c₁ data s hk hh hw =>
    refine hmove hw ?_
    rintro _ _ ⟨⟩ msg' hk' htype
    cases hk.symm.trans hk'
    exact h.answer ((hsound w).split.inFlight msg (List.mem_of_getElem? hk)) hh htype
  | serveStop => exact h.fresh

/-- A Get that has returned put the whole table into its buffer. -/
theorem Reading.buffer_of_returned (h : J.Reading files uri table v id b c) (htable : table.length = J.size)
    (hret : (c.workers v).phases id = .returned) : (c.workers v).data.buffer b = table := by
  obtain ⟨msg, hmsg, htype⟩ := h.fresh.call
  have hsound := h.loading.inv.worker v
  have hall := Worker.stored_of_returned hsound.covered hret hmsg htype
  have hdata := (hsound.split.calls msg (List.mem_of_getElem? hmsg)).get htype
  obtain ⟨done, hfilled, hdone⟩ := h.fresh.stored
  apply hfilled.eq J.pos _ htable
  intro j hj
  have hpart : Worker.newMsg (J.node v) msg.type msg j [.key (-1)] ∈ Worker.requests (J.node v) msg := by
    rw [requests_get htype hdata]
    exact List.mem_map_of_mem ((J.perm v).mem_iff.mpr (List.mem_range.mpr hj))
  obtain ⟨reply, hreply, hsrc, hreplyId⟩ := hall _ hpart
  obtain ⟨i, hi, hsrc'⟩ := hdone reply hreply hreplyId
  have hij : j = i := J.registered.injective (hsrc.symm.trans hsrc')
  rwa [hij]

/-- A Get that is called when all servers have loaded. -/
theorem Loading.get (h : J.Loading files uri table c) (hloaded : Loaded n uri c) (htable : table.length = J.size)
    (ha : Careful uri c (.get v b)) (hs : J.step c (.get v b) = some c') :
    J.Reading files uri table v (c.workers v).waitings.length b c' := by
  obtain ⟨hloading, hloads⟩ := h.step htable ha hs
  have hlength := (h.inv.worker v).covered.length_calls
  have hstored : GetsStored (c.workers v) := ha
  cases step_outcome hs with
  | call hmakes => nomatch hmakes
  | get hw =>
    have hunstored := fun r => Worker.unstored_of_step (r := r) hw
    cases (Worker.step_outcome hw).2 with
    | issue hc =>
      refine ⟨hloading, fun j hj => hloads _ (hloaded j hj), ?_⟩
      dsimp only
      rw [Function.update_self]
      refine ⟨⟨ArrayWorker.getAsync.message (J.node v).rank (c.workers v).waitings.length, ?_, rfl⟩,
        fun r hr htype => ?_,
        .inl rfl, [], ⟨(h.inv.worker v).buffer b, by simp⟩, fun r hr hid => ?_⟩
      · rw [← hlength]
        exact List.getElem?_concat_length
      · rcases hunstored r hr with hr | ⟨k, data, q, hserve, -⟩
        · exact absurd (open_of_unstored hr htype) hstored.not_open
        · cases hserve
      · have hpast := Worker.stored_past (h.inv.worker v).covered r hr
        rw [hlength] at hpast
        omega

/-- Not a call of a client. -/
def Inner : CheckpointMove T W → Prop
  | .work _ _ => True
  | .serve _ _ _ => True
  | _ => False

variable (uri) in
/-- The server that a Get is sent to can answer it. -/
theorem serve_get {k : ℕ} (hpart : J.IsPart msg) (htype : msg.type = .Request_Get)
    (hk : (c.workers w).inFlight[k]? = some msg)
    (hstop : c.stop = none) (hcrash : (c.workers w).crash = none) :
    (J.step c (.serve w k [])).isSome ∧ Careful uri c (.serve w k []) := by
  obtain ⟨j, -, -, hdata⟩ := hpart.get htype
  constructor
  · have hhandle : handle c msg.dst.toNat [] msg = .ok ({ c with
        servers := Function.update c.servers msg.dst.toNat (c.servers msg.dst.toNat) },
        some [.key (c.servers msg.dst.toNat).serverId, .values (c.servers msg.dst.toNat).storage]) := by
      rw [handle, htype]
      simp only [SolverServer.handle, serverHandle, htype, hdata]
      rfl
    rw [ArrayJob.step, if_neg (by simp [hstop])]
    simp only [hk, hhandle, workerStep, Worker.step, hcrash]
    rfl
  · intro msg' hmsg'
    cases hk.symm.trans hmsg'
    refine ⟨fun h => ?_, fun _ => ⟨fun h => ?_, fun h => ?_⟩⟩ <;> cases htype.symm.trans h

/-- A Get that has not returned can go on, unless a process was stopped. -/
theorem Reading.goes_on (h : J.Reading files uri table v id b c) (hret : (c.workers v).phases id ≠ .returned)
    (hcrash : (c.workers v).crash = none) (hstop : c.stop = none) :
    ∃ a, Inner a ∧ (J.step c a).isSome ∧ Careful uri c a := by
  obtain ⟨msg, hmsg, htype⟩ := h.fresh.call
  have hsound := h.loading.inv.worker v
  rcases Worker.exists_move types hsound.covered (h.loading.kept v).1 hcrash hsound.replies hmsg htype
    hret with
    ⟨m, hm, hissue, hserve, hspared⟩ | ⟨k, q, hk, hget⟩
  · refine ⟨.work v m, trivial, ?_, hspared⟩
    cases m with
    | issue call => exact absurd rfl (hissue call)
    | serve k data => exact absurd rfl (hserve k data)
    | wait | wake | finish | pop | act | deliver => simpa [ArrayJob.step, hstop, workerStep] using hm
  · have hpart := hsound.split.inFlight q (List.mem_of_getElem? hk)
    obtain ⟨hstep, hcareful⟩ := serve_get uri hpart hget hk hstop hcrash
    exact ⟨.serve v k [], trivial, hstep, hcareful⟩

/-! ### From one run to the other -/

/-- Call `id` of worker `v`, a Get into buffer `b`, reads the table: no worker was stopped by a null waiter, the
buffer holds the table when the call has returned, and until then the call can go on. -/
structure Reads (J : ArrayJob T W n) (uri : String) (table : List T) (v : Fin W) (id b : ℕ)
    (c : CheckpointCluster T W) :
    Prop where
  alive : ∀ w, (c.workers w).crash ≠ some .waiter
  value : (c.workers v).phases id = .returned → (c.workers v).data.buffer b = table
  goes_on : (c.workers v).phases id ≠ .returned → (c.workers v).crash = none → c.stop = none →
    ∃ a, Inner a ∧ (J.step c a).isSome ∧ Careful uri c a

/-- One worker, and two servers of ranks 1 and 2 whose ids depend on the order of arrival. -/
def jobOfThree (order : List ℕ) (horder : Registered 2 (Registration.finalZoo [.WORKER, .SERVER, .SERVER] order))
    (gen : ℕ → ℤ) : ArrayJob ℤ 1 2 where
  size := 3
  gen := gen
  workerRank _ := 0
  order _ := [1, 0]
  perm _ := .swap 0 1 []
  pos := Nat.zero_lt_two
  lt_size := Frame.Worker.two_lt_three
  size_lt := Frame.Worker.three_lt_int
  zoo := Registration.finalZoo [.WORKER, .SERVER, .SERVER] order
  registered := horder

theorem registered_storing : Registered 2 (Registration.finalZoo [.WORKER, .SERVER, .SERVER] [0, 1, 2]) :=
  ⟨[.WORKER, .SERVER, .SERVER], [0, 1, 2], _, _, by decide, by decide, rfl, ⟨_, List.mem_cons_self, rfl⟩, rfl⟩

theorem registered_loading : Registered 2 (Registration.finalZoo [.WORKER, .SERVER, .SERVER] [2, 1, 0]) :=
  ⟨[.WORKER, .SERVER, .SERVER], [2, 1, 0], _, _, by decide, by decide, rfl, ⟨_, List.mem_cons_self, rfl⟩, rfl⟩

open TwoParties in
def storeOfThree : List (CheckpointMove ℤ 1) :=
  [.add 0 [1, 2, 3] none, .work 0 (.pop 0), .work 0 (.act 0), .work 0 (.act 0), .work 0 (.act 0), .serve 0 0 [12, 23],
    .serve 0 0 [1], .store 0 "model", .work 0 (.pop 1), .work 0 (.act 1), .work 0 (.act 1), .serve 0 1 [],
    .serve 0 0 []]

open TwoParties in
/-- Both servers load before the first reply reaches the worker. -/
def loadOfThree : List (CheckpointMove ℤ 1) :=
  [.load 0 "model", .work 0 (.wait 0), .work 0 (.pop 0), .work 0 (.act 0), .work 0 (.act 0), .serve 0 0 [],
    .serve 0 0 [], .work 0 (.deliver 0), .work 0 (.pop 1), .work 0 (.act 1)]

open TwoParties in
/-- The second reply is handled before Wait returns. -/
def loadedOfThree : List (CheckpointMove ℤ 1) :=
  [.work 0 (.deliver 0), .work 0 (.pop 0), .work 0 (.act 0), .work 0 (.wake 0), .work 0 (.finish 0)]

open TwoParties in
def getOfThree : List (CheckpointMove ℤ 1) :=
  [.get 0 5, .work 0 (.wait 1), .work 0 (.pop 0), .work 0 (.act 0), .work 0 (.act 0), .work 0 (.act 0), .serve 0 1 [],
    .serve 0 0 [], .work 0 (.deliver 1), .work 0 (.deliver 0), .work 0 (.pop 0), .work 0 (.pop 1), .work 0 (.act 1),
    .work 0 (.act 0), .work 0 (.act 0), .work 0 (.act 1), .work 0 (.wake 1), .work 0 (.finish 1)]

def storing : ArrayJob ℤ 1 2 := jobOfThree [0, 1, 2] registered_storing fun i => 10 * i

def loading : ArrayJob ℤ 1 2 := jobOfThree [2, 1, 0] registered_loading fun _ => 0

def startStoring : CheckpointCluster ℤ 1 := storing.init (fun _ _ => [0, 0, 0]) fun _ => none

def stored : CheckpointCluster ℤ 1 := (exec storing.step startStoring storeOfThree).getD startStoring

def startLoading : CheckpointCluster ℤ 1 := loading.init (fun _ _ => [0, 0, 0]) stored.files

def restored : CheckpointCluster ℤ 1 :=
  (exec (restrict (Careful "model") loading.step) startLoading (loadOfThree ++ loadedOfThree)).getD startLoading

def readOfRestored : CheckpointCluster ℤ 1 :=
  (exec (restrict (Careful "model") loading.step) restored getOfThree).getD restored

/-- A worker that has crashed makes no more moves. -/
theorem phases_of_crashed (hcrash : (c.workers w).crash.isSome) (h : Reachable J.step c c') :
    (c'.workers w).crash.isSome ∧ (c'.workers w).phases = (c.workers w).phases := by
  refine h.invariant (P := fun c' => (c'.workers w).crash.isSome ∧ (c'.workers w).phases = (c.workers w).phases)
    ⟨hcrash, rfl⟩ ?_
  intro x a y hx hs
  have hother : ∀ {v : Fin W} {m s}, Worker.step (J.node v) types (x.workers v) m = some s → w ≠ v := by
    rintro v m s hv rfl
    have := (Worker.step_outcome hv).1
    simp [this] at hx
  cases step_outcome hs with
  | get hw | call _ hw | work hw => simpa only [Function.update_of_ne (hother hw)] using hx
  | @check v data option e =>
    dsimp only
    by_cases hv : w = v
    · subst hv
      rw [Function.update_self]
      exact ⟨rfl, hx.2⟩
    · rwa [Function.update_of_ne hv]
  | serve hk hh hw => simpa only [Function.update_of_ne (hother hw)] using hx
  | serveStop => exact hx

open TwoParties in
/-- Wait returns after the first reply. -/
def earlyOfThree : List (CheckpointMove ℤ 1) := loadOfThree ++ [.work 0 (.wake 0), .work 0 (.finish 0)]

open TwoParties in
/-- A Get is called, and the second reply finds no waiter. -/
def killOfThree : List (CheckpointMove ℤ 1) :=
  [.get 0 5, .work 0 (.deliver 0), .work 0 (.pop 0), .work 0 (.pop 1), .work 0 (.act 1)]

def early : CheckpointCluster ℤ 1 := (exec loading.step startLoading earlyOfThree).getD startLoading

def killed : CheckpointCluster ℤ 1 := (exec loading.step early killOfThree).getD early

end ArrayJob

end Hpps.Table

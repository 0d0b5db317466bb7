import Hpps.Frame.Mixed
import Hpps.Table.ArrayBuffers
import Hpps.Table.ArrayRead

/-! What a Get of an array table reads while workers go on adding. -/
namespace Hpps

namespace Frame.Worker

open TransitionSystem

variable {β D : Type} {node : WorkerNode β D} {types : List MsgType} {s t : WorkerState β D} {m : WorkerMove β}
  {popped : List (Message β)} {msg q r : Message β} {acts : List (Act β)} {i : Fin kWorkerThreadNum} {id : ℕ}

/-- A reply that the table did not process yet. -/
def Unstored (s : WorkerState β D) (r : Message β) : Prop :=
  r ∈ s.replies ∨ (r ∈ s.mailbox ∧ r.type < 0) ∨ ∃ i, .store r ∈ s.threads i

theorem not_unstored_init {d : D} : ¬ Unstored (init d : WorkerState β D) r := by
  rintro (hr | ⟨hr, -⟩ | ⟨i, hr⟩) <;> cases hr

theorem unstored_frame (h : Unstored t r) (hreplies : t.replies = s.replies) (hmail : t.mailbox = s.mailbox)
    (hthreads : ∀ i r, .store r ∈ t.threads i → .store r ∈ s.threads i) : Unstored s r := by
  rcases h with h | h | ⟨i, h⟩
  · exact .inl (hreplies ▸ h)
  · exact .inr (.inl (hmail ▸ h))
  · exact .inr (.inr ⟨i, hthreads i r h⟩)

/-- The only reply that a popped message leaves to store is that message. -/
theorem eq_of_store (ha : handle node msg = .ok acts) (hr : .store r ∈ acts) : r = msg ∧ r.type = .Reply_Get := by
  rcases handle_cases ha with ⟨-, num, out, -, rfl⟩ | ⟨-, file, data, -, rfl⟩ | ⟨-, ⟨htype, rfl⟩ | ⟨-, rfl⟩⟩
  · simp at hr
  · simp at hr
  · simp only [List.mem_cons, Act.store.injEq, reduceCtorEq, List.not_mem_nil, or_false] at hr
    exact ⟨hr, hr ▸ htype⟩
  · simp at hr

theorem mem_update_acts {x : Act β} {j : Fin kWorkerThreadNum} (h : x ∈ Function.update s.threads i acts j) :
    x ∈ s.threads j ∨ x ∈ acts := by
  by_cases hj : j = i
  · subst hj
    rw [Function.update_self] at h
    exact .inr h
  · rw [Function.update_of_ne hj] at h
    exact .inl h

/-- An act changes neither the mailbox nor the replies. -/
theorem perform_mail {x : Act β} (hr : perform node s x = .ok t) :
    t.mailbox = s.mailbox ∧ t.replies = s.replies ∧ t.threads = s.threads := by
  cases x <;> rw [perform] at hr
  · split at hr <;> cases hr
    exact ⟨rfl, rfl, rfl⟩
  · cases hr
    exact ⟨rfl, rfl, rfl⟩
  · split at hr <;> cases hr
    exact ⟨rfl, rfl, rfl⟩
  · split at hr <;> cases hr
    exact ⟨rfl, rfl, rfl⟩

/-- A reply that is not stored was so before, or a server just made it. -/
theorem unstored_of_step (hs : step node types s m = some t) (h : Unstored t r) : Unstored s r ∨
    ∃ k data msg, m = .serve k data ∧ s.inFlight[k]? = some msg ∧ r = { msg.createReplyMessage with data := data } := by
  obtain ⟨-, ho⟩ := step_outcome hs
  cases ho with
  | wait | waitNull | wake | finish | popStop | actStop => exact .inl h
  | @issue call hc =>
    rcases h with h | ⟨h, hneg⟩ | h
    · exact .inl (.inl h)
    · rcases List.mem_append.mp h with h | h
      · exact .inl (.inr (.inl ⟨h, hneg⟩))
      · rw [List.mem_singleton.mp h] at hneg
        exact absurd hneg call.type_pos.not_gt
    · exact .inl (.inr (.inr h))
  | @pop i msg mailbox acts hi hm ha =>
    left
    rcases h with h | ⟨h, hneg⟩ | ⟨j, h⟩
    · exact .inl h
    · exact .inr (.inl ⟨by rw [hm]; exact List.mem_cons_of_mem _ h, hneg⟩)
    · rcases mem_update_acts h with h | h
      · exact .inr (.inr ⟨j, h⟩)
      · obtain ⟨rfl, htype⟩ := eq_of_store ha h
        exact .inr (.inl ⟨by rw [hm]; exact List.mem_cons_self, by rw [htype]; decide⟩)
  | @act i x acts u hi hr =>
    obtain ⟨hmail, hreplies, hthreads⟩ := perform_mail hr
    refine .inl (unstored_frame h hreplies hmail fun j r hj => ?_)
    dsimp only at hj
    rw [hthreads] at hj
    exact mem_update_tail hi hj
  | @serve k msg data hk =>
    rcases h with h | h
    · rcases List.mem_append.mp h with h | h
      · exact .inl (.inl h)
      · exact .inr ⟨k, data, msg, rfl, hk, List.mem_singleton.mp h⟩
    · exact .inl (.inr h)
  | @deliver k msg hk =>
    rcases h with h | ⟨h, hneg⟩ | h
    · exact .inl (.inl (List.mem_of_mem_eraseIdx h))
    · rcases List.mem_append.mp h with h | h
      · exact .inl (.inr (.inl ⟨h, hneg⟩))
      · rw [List.mem_singleton.mp h]
        exact .inl (.inl (List.mem_of_getElem? hk))
    · exact .inl (.inr (.inr h))

/-- The log of the servers only grows. -/
theorem replied_grows (hs : step node types s m = some t) : s.replied <+: t.replied := by
  obtain ⟨-, ho⟩ := step_outcome hs
  cases ho with
  | issue | wait | waitNull | wake | finish | pop | popStop | actStop | deliver => exact List.prefix_rfl
  | act hi hr =>
    dsimp only
    rw [(perform_frame hr).2.1]
  | serve => exact List.prefix_append ..

/-- A reply that is not stored yet is in the log, and only replies to a Get are to be stored. -/
structure Traced (s : WorkerState β D) : Prop where
  replied : ∀ r, Unstored s r → ∃ q, (q, r) ∈ s.replied
  store : ∀ i r, .store r ∈ s.threads i → r.type = .Reply_Get

theorem traced_init {d : D} : Traced (init d : WorkerState β D) :=
  ⟨fun _ h => absurd h not_unstored_init, fun _ _ h => nomatch h⟩

theorem store_of_step (hs : step node types s m = some t) (hr : .store r ∈ t.threads i) :
    .store r ∈ s.threads i ∨ r.type = .Reply_Get := by
  obtain ⟨-, ho⟩ := step_outcome hs
  cases ho with
  | issue | wait | waitNull | wake | finish | popStop | actStop | serve | deliver => exact .inl hr
  | pop hi hm ha => exact (mem_update_acts hr).imp_right fun h => (eq_of_store ha h).2
  | act hi hp =>
    dsimp only at hr
    rw [(perform_mail hp).2.2] at hr
    exact .inl (mem_update_tail hi hr)

theorem Traced.step (h : Traced s) (hs : step node types s m = some t) : Traced t where
  replied r hr := by
    rcases unstored_of_step hs hr with hr | ⟨k, data, msg, rfl, hk, rfl⟩
    · obtain ⟨q, hq⟩ := h.replied r hr
      exact ⟨q, (replied_grows hs).subset hq⟩
    · cases (step_outcome hs).2 with
      | serve hk' =>
        cases hk.symm.trans hk'
        exact ⟨msg, by simp⟩
  store i r hr := (store_of_step hs hr).elim (h.store i r) id

/-- A request of a client of which nothing is away has no reply that is not stored. -/
theorem away_pos_of_unstored (h : Inv node types s popped) (hr : Unstored s r) : 0 < away s r.msgId := by
  rw [away]
  rcases hr with hr | ⟨hr, hneg⟩ | ⟨i, hr⟩
  · have : 0 < s.replies.countP (Message.of r.msgId) :=
      List.countP_pos_iff.mpr ⟨r, hr, by simp [Message.of]⟩
    omega
  · have : 0 < s.mailbox.countP (Message.answers r.msgId) :=
      List.countP_pos_iff.mpr ⟨r, hr, (answers_eq hneg).1.mpr rfl⟩
    omega
  · have : 0 < Tally.tally (Act.isNotify (Message.of r.msgId)) s.threads :=
      Tally.tally_pos_of_mem ((h.ordered.shape i).notify_mem hr) (by simp [Act.isNotify, Message.of])
    omega

/-- When all Gets have returned, no reply to a Get is unstored. -/
theorem no_open_get (h : Inv node types s popped) (htraced : Traced s)
    (hgets : ∀ id msg, s.calls[id]? = some msg → msg.type = .Request_Get → s.phases id = .returned)
    (hr : Unstored s r) : r.type ≠ .Reply_Get := by
  intro htype
  obtain ⟨q, hq⟩ := htraced.replied r hr
  have hreply := (h.settled _ hq).1
  dsimp only at hreply
  have hid : r.msgId = q.msgId := by
    rw [hreply]
    rfl
  have hneg : -q.type = .Reply_Get := by
    rw [← htype, hreply]
    rfl
  obtain ⟨msg, acts, hcall, ha, hpush⟩ := exists_call h (.inr (List.mem_map_of_mem hq))
  have hget : msg.type = .Request_Get := by
    rw [← type_of_push ha hpush, ← neg_neg q.type, hneg]
    rfl
  have hdone := h.counted.done q.msgId (.inr (hgets _ msg hcall hget))
  have hpos := away_pos_of_unstored h hr
  rw [hid, hdone.2.2] at hpos
  exact absurd hpos (lt_irrefl 0)

/-- The calls are numbered in the order in which they were issued. -/
theorem nodup_popped (h : Inv node types s popped) : (popped.map Message.msgId).Nodup := by
  have hcalls : s.calls.map Message.msgId = List.range s.calls.length := by
    refine List.ext_getElem (by simp) fun k hk hk' => ?_
    rw [List.getElem_map, List.getElem_range]
    exact h.msgId k _ (List.getElem?_eq_getElem _)
  have hnodup : (s.calls.map Message.msgId).Nodup := hcalls ▸ List.nodup_range
  rw [h.calls, List.map_append] at hnodup
  exact hnodup.of_append_left

/-- When all calls have returned, nothing of them is left anywhere. -/
theorem quiet_of_returned (h : Inv node types s popped) (hret : ∀ id < s.calls.length, s.phases id = .returned) :
    Quiet s := by
  have hnone : ∀ id, pending s id = 0 ∧ unsent s id = 0 ∧ away s id = 0 := by
    intro id
    rcases lt_or_ge id s.calls.length with hid | hid
    · exact h.counted.done id (.inr (hret id hid))
    · obtain ⟨hpend, hunsent, haway, -⟩ := h.counted.new id (h.length ▸ hid)
      exact ⟨hpend, hunsent, haway⟩
  refine ⟨?_, fun i => ?_, ?_, ?_⟩
  · refine List.eq_nil_iff_forall_not_mem.mpr fun msg hmsg => ?_
    obtain ⟨hpend, -, haway⟩ := hnone msg.msgId
    rw [pending] at hpend
    rw [away] at haway
    by_cases hpos : 0 < msg.type
    · have : 0 < s.mailbox.countP (Message.asks msg.msgId) :=
        List.countP_pos_iff.mpr ⟨msg, hmsg, (asks_eq hpos).1.mpr rfl⟩
      omega
    · have : 0 < s.mailbox.countP (Message.answers msg.msgId) :=
        List.countP_pos_iff.mpr ⟨msg, hmsg, by simp [Message.answers, hpos]⟩
      omega
  · have hno : ∀ {p : Act β → Bool} {x : Act β}, Tally.tally p s.threads = 0 → x ∈ s.threads i → p x ≠ true :=
      fun hzero hx => Tally.tally_eq_zero.mp hzero i _ hx
    have haway : ∀ {msg : Message β}, .notify msg ∉ s.threads i := by
      intro msg hx
      have hcount := (hnone msg.msgId).2.2
      rw [away] at hcount
      exact hno (p := Act.isNotify (Message.of msg.msgId)) (by omega) hx (by simp [Act.isNotify, Message.of])
    refine List.eq_nil_iff_forall_not_mem.mpr fun x hx => ?_
    cases x with
    | reset id num =>
      have hcount := (hnone id).1
      rw [pending] at hcount
      exact hno (p := Act.isReset id) (by omega) hx (by simp [Act.isReset])
    | push msg =>
      exact hno (p := Act.isPush (Message.of msg.msgId)) (hnone msg.msgId).2.1 hx (by simp [Act.isPush, Message.of])
    | store msg => exact haway ((h.ordered.shape i).notify_mem hx)
    | notify msg => exact haway hx
  · refine List.eq_nil_iff_forall_not_mem.mpr fun msg hmsg => ?_
    have haway := (hnone msg.msgId).2.2
    have : 0 < s.inFlight.countP (Message.of msg.msgId) :=
      List.countP_pos_iff.mpr ⟨msg, hmsg, by simp [Message.of]⟩
    rw [away] at haway
    omega
  · refine List.eq_nil_iff_forall_not_mem.mpr fun msg hmsg => ?_
    have haway := (hnone msg.msgId).2.2
    have : 0 < s.replies.countP (Message.of msg.msgId) :=
      List.countP_pos_iff.mpr ⟨msg, hmsg, by simp [Message.of]⟩
    rw [away] at haway
    omega

/-- What a move does to the local data. -/
theorem stored_of_step (hs : step node types s m = some t) : (t.stored = s.stored ∧ t.data = s.data) ∨
    ∃ i r, .store r ∈ s.threads i ∧ node.table.ProcessReplyGet s.data r.data = .ok t.data ∧
      t.stored = s.stored ++ [r] := by
  obtain ⟨-, ho⟩ := step_outcome hs
  cases ho with
  | issue | wait | waitNull | wake | finish | pop | popStop | actStop | serve | deliver => exact .inl ⟨rfl, rfl⟩
  | @act i x acts u hi hr =>
    cases x with
    | reset id num =>
      rw [perform] at hr
      split at hr <;> cases hr
      exact .inl ⟨rfl, rfl⟩
    | push msg =>
      cases hr
      exact .inl ⟨rfl, rfl⟩
    | notify msg =>
      rw [perform] at hr
      split at hr <;> cases hr
      exact .inl ⟨rfl, rfl⟩
    | store msg =>
      rw [perform] at hr
      split at hr
      · rename_i d hd
        cases hr
        exact .inr ⟨i, msg, by rw [hi]; exact List.mem_cons_self, hd, rfl⟩
      · cases hr

end Frame.Worker

namespace Table.ArraySystem

open Hpps.Frame Hpps.Frame.Worker TransitionSystem Blocks

variable {T : Type} {W n : ℕ} (S : ArraySystem T W n) {P Q : ℕ → List T → Prop} {base id i : ℕ} {v w : Fin W}
  {s t : WorkerState (Blob T) (List T)} {m : WorkerMove (Blob T)} {msg q r : Message (Blob T)}
  {popped : List (Message (Blob T))}

/-- The values that a server returned. -/
def Values (P : ℕ → List T → Prop) (r : Message (Blob T)) : Prop :=
  ∃ j < n, ∃ values, r.src = S.serverIdToRank j ∧ r.data = [.key j, .values values] ∧
    values.length = S.share j ∧ P j values

/-- What the servers returned, and what the calls from `base` on left of it in the buffer. -/
structure Seen (P : ℕ → List T → Prop) (base : ℕ) (s : WorkerState (Blob T) (List T)) : Prop where
  answers : ∀ r, Unstored s r → r.type = .Reply_Get → S.Values P r
  stored : ∀ r ∈ s.stored, base ≤ r.msgId → ∃ j < n, r.src = S.serverIdToRank j ∧ P j (slice S.share s.data j)

variable {S}

theorem Seen.mono (h : S.Seen P base s) (hPQ : ∀ j values, P j values → Q j values) : S.Seen Q base s where
  answers r hr htype := by
    obtain ⟨j, hj, values, hsrc, hdata, hlen, hP⟩ := h.answers r hr htype
    exact ⟨j, hj, values, hsrc, hdata, hlen, hPQ j values hP⟩
  stored r hr hid := by
    obtain ⟨j, hj, hsrc, hP⟩ := h.stored r hr hid
    exact ⟨j, hj, hsrc, hPQ j _ hP⟩

theorem Seen.crash (h : S.Seen P base s) (e : Option Crash) : S.Seen P base { s with crash := e } :=
  ⟨h.answers, h.stored⟩

theorem Seen.step (h : S.Seen P base s) (htraced : Traced s) (hlen : s.data.length = S.size)
    (hs : Worker.step (S.node w) types s m = some t)
    (hserve : ∀ k data, m = .serve k data → ∀ msg, s.inFlight[k]? = some msg → msg.type = .Request_Get →
      S.Values P { msg.createReplyMessage with data := data }) : S.Seen P base t where
  answers r hr htype := by
    rcases unstored_of_step hs hr with hr | ⟨k, data, msg, rfl, hk, rfl⟩
    · exact h.answers r hr htype
    · refine hserve k data rfl msg hk ?_
      have hneg : -msg.type = .Reply_Get := htype
      rw [← neg_neg msg.type, hneg]
      rfl
  stored r hr hid := by
    rcases stored_of_step hs with ⟨hstored, hdata⟩ | ⟨i, r', hi, hreply, hstored⟩
    · rw [hstored] at hr
      rw [hdata]
      exact h.stored r hr hid
    · obtain ⟨j, hj, values, hsrc, hdata, hvalues, hP⟩ := h.answers r' (.inr (.inr ⟨i, hi⟩)) (htraced.store i r' hi)
      have heq : (S.node w).table.ProcessReplyGet s.data r'.data =
          .ok (Rows.overwrite s.data (S.offset j) values) := by
        rw [hdata]
        exact processReplyGet_eq S.pos (S.size_lt.trans (by norm_num)) hj hlen hvalues
      have hdata' : t.data = Rows.overwrite s.data (S.offset j) values := Except.ok.inj (hreply.symm.trans heq)
      have hslice : ∀ k < n, slice S.share t.data k = if k = j then values else slice S.share s.data k := by
        intro k hk
        rw [hdata']
        exact slice_overwrite (hlen.trans (offset_share_last S.pos).symm) hj hvalues hk
      rw [hstored] at hr
      rcases List.mem_append.mp hr with hr | hr
      · obtain ⟨k, hk, hsrc', hP'⟩ := h.stored r hr hid
        refine ⟨k, hk, hsrc', ?_⟩
        rw [hslice k hk]
        split
        · rename_i heq
          exact heq ▸ hP
        · exact hP'
      · rw [List.mem_singleton] at hr
        subst hr
        refine ⟨j, hj, hsrc, ?_⟩
        rw [hslice j hj, if_pos rfl]
        exact hP

variable (S)

theorem seen_of_returned (h : Worker.Inv (S.node w) types s popped) (htraced : Traced s)
    (hgets : ∀ id msg, s.calls[id]? = some msg → msg.type = .Request_Get → s.phases id = .returned) :
    S.Seen P s.calls.length s where
  answers r hr htype := absurd htype (no_open_get h htraced hgets hr)
  stored r hr hid := by
    have := h.past r hr
    have := h.length
    omega

/-- Each call of a client has one part for each server. -/
theorem exists_part (hlegit : S.Legit msg) (j : Fin n) :
    ∃ q ∈ Worker.requests (S.node w) msg, q.dst = S.serverIdToRank j ∧ q.msgId = msg.msgId := by
  have hj : (j : ℕ) ∈ S.order w := (S.perm w).mem_iff.mpr (List.mem_range.mpr j.isLt)
  rcases hlegit with ⟨htype, hdata⟩ | ⟨a, hlen, htype, hdata⟩
  · rw [S.requests_get htype hdata]
    exact ⟨_, List.mem_map_of_mem hj, rfl, rfl⟩
  · rw [S.requests_add hlen htype hdata]
    exact ⟨_, List.mem_map_of_mem hj, rfl, rfl⟩

theorem push_of_requests {acts : List (Act (Blob T))} (ha : Worker.handle (S.node w) msg = .ok acts)
    (hq : q ∈ Worker.requests (S.node w) msg) : .push q ∈ acts := by
  rw [Worker.requests, ha] at hq
  obtain ⟨x, hx, heq⟩ := List.mem_filterMap.mp hq
  cases x with
  | push p =>
    cases heq
    exact hx
  | reset | store | notify => cases heq

/-- The numbers of the calls of which server `j` handled its part. -/
def handled (j : ℕ) (s : WorkerState (Blob T) (List T)) : Finset ℕ :=
  ((s.replied.filter fun q => q.1.dst = S.serverIdToRank j).map fun q => q.1.msgId).toFinset

theorem mem_handled {j : ℕ} :
    id ∈ S.handled j s ↔ ∃ q r, (q, r) ∈ s.replied ∧ q.dst = S.serverIdToRank j ∧ q.msgId = id := by
  simp [handled, and_assoc]

theorem countP_order {j : ℕ} (w : Fin W) (f : ℕ → Message (Blob T)) (hf : ∀ k, (f k).dst = S.serverIdToRank k) :
    ((S.order w).map f).countP (fun q => decide (q.dst = S.serverIdToRank j)) ≤ 1 := by
  rw [List.countP_map]
  have heq : ((fun q : Message (Blob T) => decide (q.dst = S.serverIdToRank j)) ∘ f) = (· == j) := by
    funext k
    rw [Function.comp_apply, hf, Bool.eq_iff_iff, decide_eq_true_eq, beq_iff_eq, S.injective.eq_iff]
  rw [heq, ← List.count]
  exact List.nodup_iff_count_le_one.mp ((S.perm w).nodup_iff.mpr List.nodup_range) j

/-- A call has at most one part for a server. -/
theorem countP_requests_le (hlegit : S.Legit msg) (j id : ℕ) : (Worker.requests (S.node w) msg).countP
    (fun q => decide (q.dst = S.serverIdToRank j ∧ q.msgId = id)) ≤ if msg.msgId = id then 1 else 0 := by
  have hle : (Worker.requests (S.node w) msg).countP (fun q => decide (q.dst = S.serverIdToRank j)) ≤ 1 := by
    rcases hlegit with ⟨htype, hdata⟩ | ⟨a, hlen, htype, hdata⟩
    · rw [S.requests_get htype hdata]
      exact S.countP_order w _ fun _ => rfl
    · rw [S.requests_add hlen htype hdata]
      exact S.countP_order w _ fun _ => rfl
  have hid : ∀ q ∈ Worker.requests (S.node w) msg, q.msgId = msg.msgId := by
    intro q hq
    rcases hlegit with ⟨htype, hdata⟩ | ⟨a, hlen, htype, hdata⟩
    · rw [S.requests_get htype hdata] at hq
      obtain ⟨k, -, rfl⟩ := List.mem_map.mp hq
      rfl
    · rw [S.requests_add hlen htype hdata] at hq
      obtain ⟨k, -, rfl⟩ := List.mem_map.mp hq
      rfl
  split
  · refine (List.countP_mono_left fun q _ h => ?_).trans hle
    simp only [decide_eq_true_eq] at h ⊢
    exact h.1
  · rename_i hne
    refine (List.countP_eq_zero.mpr fun q hq h => hne ?_).le
    simp only [decide_eq_true_eq] at h
    exact (hid q hq).symm.trans h.2

theorem countP_flatMap_le {α γ : Type} {p : γ → Bool} {f : α → List γ} {key : α → ℕ} {l : List α}
    (h : ∀ a ∈ l, (f a).countP p ≤ if key a = id then 1 else 0) :
    (l.flatMap f).countP p ≤ (l.map key).count id := by
  induction l with
  | nil => exact le_rfl
  | cons a l ih =>
    have ha := h a List.mem_cons_self
    have hl := ih fun b hb => h b (List.mem_cons_of_mem _ hb)
    rw [List.flatMap_cons, List.countP_append, List.map_cons, List.count_cons]
    simp only [beq_iff_eq]
    omega

/-- A server handles its part of a call once. -/
theorem nodup_handled (h : Worker.Inv (S.node w) types s popped) (hlegit : ∀ msg ∈ s.calls, S.Legit msg) (j : ℕ) :
    ((s.replied.filter fun q => q.1.dst = S.serverIdToRank j).map fun q => q.1.msgId).Nodup := by
  refine List.nodup_iff_count_le_one.mpr fun id => ?_
  have hcount := h.conserved fun q => decide (q.dst = S.serverIdToRank j ∧ q.msgId = id)
  have hpopped : (popped.flatMap (Worker.requests (S.node w))).countP
      (fun q => decide (q.dst = S.serverIdToRank j ∧ q.msgId = id)) ≤ 1 := by
    have hcalls : ∀ msg ∈ popped, msg ∈ s.calls := fun msg hmsg => by
      rw [h.calls]
      exact List.mem_append_left _ hmsg
    calc (popped.flatMap (Worker.requests (S.node w))).countP _
      _ ≤ (popped.map Message.msgId).count id :=
        countP_flatMap_le fun msg hmsg => S.countP_requests_le (hlegit msg (hcalls msg hmsg)) j id
      _ ≤ 1 := List.nodup_iff_count_le_one.mp (nodup_popped h) id
  have hlog : ((s.replied.filter fun q => q.1.dst = S.serverIdToRank j).map fun q => q.1.msgId).count id =
      (s.replied.map Prod.fst).countP fun q => decide (q.dst = S.serverIdToRank j ∧ q.msgId = id) := by
    rw [List.count, List.countP_map, List.countP_filter, List.countP_map]
    refine List.countP_congr fun q _ => ?_
    simp [and_comm]
  omega

/-- The calls of which a server handled its part were issued. -/
theorem lt_of_handled (h : Worker.Inv (S.node w) types s popped) {j : ℕ} (hid : id ∈ S.handled j s) :
    id < s.calls.length := by
  obtain ⟨q, r, hq, -, rfl⟩ := S.mem_handled.mp hid
  obtain ⟨msg, acts, hcall, -⟩ := exists_call h (.inr (List.mem_map_of_mem hq))
  exact (List.getElem?_eq_some_iff.mp hcall).1

/-- When a call has returned, each server handled its part. -/
theorem handled_of_returned (h : Worker.Inv (S.node w) types s popped) (hlegit : ∀ msg ∈ s.calls, S.Legit msg)
    (hret : s.phases id = .returned) (j : Fin n) : id ∈ S.handled j s := by
  obtain ⟨msg, acts, hcall, ha, hall⟩ := answered_of_returned h hret
  obtain ⟨q, hq, hdst, hid⟩ := S.exists_part (w := w) (hlegit msg (List.mem_of_getElem? hcall)) j
  obtain ⟨r, hr, -⟩ := hall q (S.push_of_requests ha hq)
  exact S.mem_handled.mpr ⟨q, r, hr, hdst, hid.trans (h.msgId id msg hcall)⟩

section Ring

variable [CommRing T] {buffer : Fin W → List T} {c c' c₁ c₂ c₃ : Cluster T W n} {a : ClusterMove T W n} {j : Fin n}

/-- What a call contributes to element `k` of the table. -/
def callEffect (calls : List (Message (Blob T))) (id k : ℕ) : T :=
  ((calls[id]?.bind fun msg => Add.ofBlobs msg.data).map (S.effect k)).getD 0

/-- A part contributes to its server what the call contributes to the table. -/
theorem contribution_of_replied (h : Worker.Inv (S.node w) types s popped) (hlegit : ∀ msg ∈ s.calls, S.Legit msg)
    (hq : (q, r) ∈ s.replied) (hdst : q.dst = S.serverIdToRank j) (hi : i < S.share j) :
    S.contribution j i q = S.callEffect s.calls q.msgId (S.offset j + i) := by
  obtain ⟨msg, acts, hcall, ha, hpush⟩ := exists_call h (.inr (List.mem_map_of_mem hq))
  have hrequest : q ∈ Worker.requests (S.node w) msg := by
    rw [Worker.requests, ha]
    exact List.mem_filterMap.mpr ⟨.push q, hpush, rfl⟩
  rw [callEffect, hcall, Option.bind_some, contribution, if_pos hdst]
  rcases hlegit msg (List.mem_of_getElem? hcall) with ⟨htype, hdata⟩ | ⟨a, hlen, htype, hdata⟩
  · rw [S.requests_get htype hdata] at hrequest
    obtain ⟨k, -, rfl⟩ := List.mem_map.mp hrequest
    rw [hdata]
    rfl
  · rw [S.requests_add hlen htype hdata] at hrequest
    obtain ⟨k, -, rfl⟩ := List.mem_map.mp hrequest
    have hk : k = j := S.injective hdst
    subst hk
    have hblobs : (Worker.newMsg (S.node w) msg.type msg j (S.part a j).blobs).data = (S.part a j).blobs := rfl
    rw [hblobs, hdata, Add.ofBlobs_blobs, Add.ofBlobs_blobs, Option.map_some, Option.map_some, Option.getD_some,
      Option.getD_some, S.effect_part hi]

/-- The answered messages contribute to a server what the calls that it handled contribute to the table. -/
theorem sum_handled (h : Worker.Inv (S.node w) types s popped) (hlegit : ∀ msg ∈ s.calls, S.Legit msg)
    (hi : i < S.share j) : (s.replied.map fun q => S.contribution j i q.1).sum =
      ∑ id ∈ S.handled j s, S.callEffect s.calls id (S.offset j + i) := by
  have hrest : ((s.replied.filter fun q => ¬ q.1.dst = S.serverIdToRank j).map
      fun q => S.contribution j i q.1).sum = 0 := by
    refine List.sum_eq_zero fun x hx => ?_
    obtain ⟨q, hq, rfl⟩ := List.mem_map.mp hx
    exact if_neg (by simpa using (List.mem_filter.mp hq).2)
  rw [← List.sum_map_filter_add_sum_map_filter_not (fun q => q.1.dst = S.serverIdToRank j), hrest, add_zero, handled,
    List.sum_toFinset _ (S.nodup_handled h hlegit j), List.map_map]
  refine congrArg List.sum (List.map_congr_left fun q hq => ?_)
  obtain ⟨hq, hdst⟩ := List.mem_filter.mp hq
  exact S.contribution_of_replied h hlegit hq (by simpa using hdst) hi

/-- A worker makes a move of its own, or a Get of it is answered with what the server holds. -/
theorem worker_of_step (h : S.Inv c) (hs : S.step c a = some c') (w : Fin W) :
    (∃ e, c'.workers w = { c.workers w with crash := e }) ∨
    ∃ m, Worker.step (S.node w) types (c.workers w) m = some (c'.workers w) ∧
      ∀ k data, m = .serve k data → ∀ msg, (c.workers w).inFlight[k]? = some msg → msg.type = .Request_Get →
        ∃ j : Fin n, msg.dst = S.serverIdToRank j ∧ data = [.key j, .values (c.servers j).storage] := by
  have hsame : ∀ v s, w ≠ v → (Function.update c.workers v s) w = c.workers w := fun v s hv =>
    Function.update_of_ne hv s c.workers
  cases S.step_outcome hs with
  | @work a v m s hw hm hcall =>
    by_cases hv : w = v
    · subst hv
      refine .inr ⟨m, ?_, fun k data hserve => absurd hserve (hm k data)⟩
      dsimp only
      rw [Function.update_self]
      exact hw
    · exact .inl ⟨(c.workers w).crash, hsame v s hv⟩
  | @check v data option e =>
    by_cases hv : w = v
    · subst hv
      refine .inl ⟨some (.table e), ?_⟩
      dsimp only
      rw [Function.update_self]
    · exact .inl ⟨(c.workers w).crash, hsame v _ hv⟩
  | @serve v k j msg server data s hk hdst hh hw =>
    by_cases hv : w = v
    · subst hv
      refine .inr ⟨.serve k data, ?_, fun k' data' heq msg' hk' htype => ?_⟩
      · dsimp only
        rw [Function.update_self]
        exact hw
      · cases heq
        cases hk.symm.trans hk'
        obtain ⟨j', hpart⟩ := S.part_of_inFlight h (List.mem_of_getElem? hk)
        have hj : j' = j := Fin.ext (S.injective (hpart.1.symm.trans hdst))
        subst hj
        obtain ⟨hserverId, hsize, hsolver, hlen⟩ := h.server j'
        obtain ⟨data', hh', hanswer⟩ := S.handle_part hsize hsolver hlen hpart
        cases hh.symm.trans hh'
        exact ⟨j', hdst, by rw [hanswer htype, hserverId]⟩
    · exact .inl ⟨(c.workers w).crash, hsame v s hv⟩
  | serveStop => exact .inl ⟨(c.workers w).crash, rfl⟩

/-- The log and the calls of a worker only grow. -/
theorem grows (h : S.Inv c) (hs : Reachable S.step c c') (w : Fin W) :
    (c.workers w).replied <+: (c'.workers w).replied ∧ (c.workers w).calls <+: (c'.workers w).calls := by
  refine (hs.invariant (P := fun c' => S.Inv c' ∧ (c.workers w).replied <+: (c'.workers w).replied ∧
    (c.workers w).calls <+: (c'.workers w).calls) ⟨h, List.prefix_rfl, List.prefix_rfl⟩ ?_).2
  rintro x a y ⟨hx, hreplied, hcalls⟩ hy
  refine ⟨S.inv_step hx hy, ?_⟩
  rcases S.worker_of_step hx hy w with ⟨e, heq⟩ | ⟨m, hm, -⟩
  · rw [heq]
    exact ⟨hreplied, hcalls⟩
  · refine ⟨hreplied.trans (replied_grows hm), hcalls.trans ?_⟩
    rcases S.calls_of_step hm with heq | ⟨call, -, heq⟩
    · rw [heq]
    · rw [heq]
      exact List.prefix_append ..

/-- When the clients of all workers have waited for all their calls, no message is left and each server has its
share of the initial table with all the Adds. -/
theorem settled_of_returned (hb : ∀ w, (buffer w).length = S.size) (h : Reachable S.step (S.init buffer) c)
    (hret : ∀ w, ∀ id < (c.workers w).calls.length, (c.workers w).phases id = .returned) :
    Quiet c ∧ ∀ j : Fin n, (c.servers j).storage = slice S.share (S.table c) j := by
  have hinv := S.reachable_inv hb h
  have hquiet : Quiet c := by
    intro w
    obtain ⟨popped, hworker⟩ := hinv.worker w
    exact quiet_of_returned hworker (hret w)
  exact ⟨hquiet, S.storage_eq hinv hquiet⟩

/-- Server `j` held the values at some time from `c₁` to `c`. -/
def Held (c₁ c : Cluster T W n) (j : ℕ) (values : List T) : Prop :=
  ∃ (k : Fin n) (c' : Cluster T W n), k = j ∧ Reachable S.step c₁ c' ∧ Reachable S.step c' c ∧
    (c'.servers k).storage = values

/-- What worker `w` read since `c₁` was held by the servers since then. -/
structure Since (c₁ : Cluster T W n) (w : Fin W) (base : ℕ) (c : Cluster T W n) : Prop where
  inv : S.Inv c
  run : Reachable S.step c₁ c
  traced : Traced (c.workers w)
  seen : S.Seen (S.Held c₁ c) base (c.workers w)

theorem traced_step (h : S.Inv c) (ht : Traced (c.workers w)) (hs : S.step c a = some c') :
    Traced (c'.workers w) := by
  rcases S.worker_of_step h hs w with ⟨e, heq⟩ | ⟨m, hm, -⟩
  · rw [heq]
    exact ⟨ht.replied, ht.store⟩
  · exact ht.step hm

theorem since_step (h : S.Since c₁ w base c) (hs : S.step c a = some c') : S.Since c₁ w base c' := by
  have hrun : Reachable S.step c c' := ⟨[a], by rw [exec, hs]; rfl⟩
  have hheld : ∀ j values, S.Held c₁ c j values → S.Held c₁ c' j values := by
    rintro j values ⟨k, c'', hk, hfrom, hto, hvalues⟩
    exact ⟨k, c'', hk, hfrom, hto.trans hrun, hvalues⟩
  refine ⟨S.inv_step h.inv hs, h.run.trans hrun, S.traced_step h.inv h.traced hs, ?_⟩
  have hseen := h.seen.mono hheld
  rcases S.worker_of_step h.inv hs w with ⟨e, heq⟩ | ⟨m, hm, hserve⟩
  · rw [heq]
    exact hseen.crash e
  · refine hseen.step h.traced (h.inv.buffer w) hm fun k data hk msg hmsg htype => ?_
    obtain ⟨j, hdst, hdata⟩ := hserve k data hk msg hmsg htype
    exact ⟨j, j.isLt, _, hdst, hdata, (h.inv.server j).2.2.2, j, c, rfl, h.run, hrun, rfl⟩

/-- A Get that has returned read from each server what it held at some time since the call. -/
theorem held_of_returned (h : S.Since c₁ w base c) (hget : (c.workers w).calls[id]? = some msg)
    (htype : msg.type = .Request_Get) (hid : base ≤ id) (hret : (c.workers w).phases id = .returned) (j : Fin n) :
    S.Held c₁ c j (slice S.share (c.workers w).data j) := by
  obtain ⟨popped, hinv⟩ := h.inv.worker w
  obtain ⟨msg', acts, hmsg, ha, hall⟩ := answered_of_returned hinv hret
  cases hget.symm.trans hmsg
  have hlegit := h.inv.legit w msg (List.mem_of_getElem? hmsg)
  obtain ⟨q, hq, hdst, hqid⟩ := S.exists_part (w := w) hlegit j
  have hpush := S.push_of_requests ha hq
  obtain ⟨r, hr, hstored⟩ := hall q hpush
  have hreply := (hinv.settled _ hr).1
  dsimp only at hreply
  have hsrc : r.src = S.serverIdToRank j := by
    rw [hreply]
    exact hdst
  have hmsgId : r.msgId = id := by
    rw [hreply]
    exact hqid.trans (hinv.msgId id msg hmsg)
  obtain ⟨k, hk, hsrc', hheld⟩ := h.seen.stored r (hstored ((type_of_push ha hpush).trans htype)) (hmsgId ▸ hid)
  have hkj : k = j := S.injective (hsrc'.symm.trans hsrc)
  exact hkj ▸ hheld

theorem reachable_traced (hb : ∀ w, (buffer w).length = S.size) (h : Reachable S.step (S.init buffer) c) (w : Fin W) :
    Traced (c.workers w) :=
  (h.invariant (P := fun c => S.Inv c ∧ Traced (c.workers w)) ⟨S.inv_init hb, traced_init⟩
    fun _ _ _ hx hy => ⟨S.inv_step hx.1 hy, S.traced_step hx.1 hx.2 hy⟩).2

theorem calls_of_get (hs : S.step c₁ (.get w) = some c₂) : (c₂.workers w).calls =
    (c₁.workers w).calls ++ [ArrayWorker.getAsync.message (S.workerRank w) (c₁.workers w).waitings.length] := by
  unfold step at hs
  split at hs
  · cases hs
  · obtain ⟨s, hstep, rfl⟩ := Option.map_eq_some_iff.mp hs
    dsimp only
    rw [Function.update_self]
    cases (Worker.step_outcome hstep).2 with
    | issue => rfl

theorem callEffect_prefix {calls calls' : List (Message (Blob T))} (h : calls <+: calls') (hid : id < calls.length)
    (k : ℕ) : S.callEffect calls id k = S.callEffect calls' id k := by
  obtain ⟨rest, rfl⟩ := h
  rw [callEffect, callEffect, List.getElem?_append_left hid]

/-- A Get that is issued when the earlier Gets of its worker have returned reads from each server the
initial values with a set of Adds. Every Add is in it whose Wait returned before the Get was issued, and
none that was issued after the Get returned. -/
theorem read_regular (hb : ∀ w, (buffer w).length = S.size) (h₁ : Reachable S.step (S.init buffer) c₁)
    (hgets : ∀ id msg, (c₁.workers w).calls[id]? = some msg → msg.type = .Request_Get →
      (c₁.workers w).phases id = .returned)
    (hs : S.step c₁ (.get w) = some c₂) (h₃ : Reachable S.step c₂ c₃)
    (hret : (c₃.workers w).phases (c₁.workers w).calls.length = .returned) (j : Fin n) :
    ∃ ids : Fin W → Finset ℕ, (∀ v id, (c₁.workers v).phases id = .returned → id ∈ ids v) ∧
      (∀ v, ∀ id ∈ ids v, id < (c₃.workers v).calls.length) ∧
      ∀ i < S.share j, (c₃.workers w).data[S.offset j + i]? = some (S.gen (S.offset j + i) +
        ∑ v, ∑ id ∈ ids v, S.callEffect (c₃.workers v).calls id (S.offset j + i)) := by
  have hinv := S.reachable_inv hb h₁
  have htraced := S.reachable_traced hb h₁ w
  obtain ⟨popped, hworker⟩ := hinv.worker w
  have hstart : S.Since c₁ w (c₁.workers w).calls.length c₁ :=
    ⟨hinv, .refl, htraced, S.seen_of_returned hworker htraced hgets⟩
  have hend : S.Since c₁ w (c₁.workers w).calls.length c₃ :=
    h₃.invariant (S.since_step hstart hs) fun _ _ _ hx hy => S.since_step hx hy
  have hcall : (c₃.workers w).calls[(c₁.workers w).calls.length]? =
      some (ArrayWorker.getAsync.message (S.workerRank w) (c₁.workers w).waitings.length) := by
    obtain ⟨rest, hrest⟩ := (S.grows (S.inv_step hinv hs) h₃ w).2
    rw [← hrest, S.calls_of_get hs]
    simp
  obtain ⟨k, c, hk, hfrom, hto, hvalues⟩ := S.held_of_returned hend hcall rfl le_rfl hret j
  have hkj : k = j := Fin.ext hk
  subst hkj
  have hinv' := S.reachable_inv hb (h₁.trans hfrom)
  refine ⟨fun v => S.handled k (c.workers v), fun v id hid => ?_, fun v id hid => ?_, fun i hi => ?_⟩
  · obtain ⟨popped', hworker'⟩ := hinv.worker v
    obtain ⟨q, r, hq, hdst, hqid⟩ := S.mem_handled.mp (S.handled_of_returned hworker' (hinv.legit v) hid k)
    exact S.mem_handled.mpr ⟨q, r, (S.grows hinv hfrom v).1.subset hq, hdst, hqid⟩
  · obtain ⟨popped', hworker'⟩ := hinv'.worker v
    exact (S.lt_of_handled hworker' hid).trans_le (S.grows hinv' hto v).2.length_le
  · rw [← getElem?_slice hi, ← hvalues, hinv'.sum k i hi]
    refine congrArg (fun x => some (_ + x)) (Finset.sum_congr rfl fun v _ => ?_)
    obtain ⟨popped', hworker'⟩ := hinv'.worker v
    rw [S.sum_handled hworker' (hinv'.legit v) hi]
    exact Finset.sum_congr rfl fun id hid =>
      S.callEffect_prefix (S.grows hinv' hto v).2 (S.lt_of_handled hworker' hid) _

end Ring

open TwoParties in
/-- Both workers wait for their Adds. -/
def waitOfThree : List (ClusterMove ℤ 2 2) :=
  [.work 0 (.wait 0), .work 0 (.wake 0), .work 0 (.finish 0), .work 1 (.wait 0), .work 1 (.wake 0), .work 1 (.finish 0)]

theorem settled_of_returned_three : ∃ c : Cluster ℤ 2 2,
    exec sgdOfThree.step startOfThree (addsOfThree ++ waitOfThree) = some c ∧ sgdOfThree.table c = [-3, -4, -5] ∧
    Quiet c ∧ ∀ j : Fin 2, (c.servers j).storage = slice sgdOfThree.share (sgdOfThree.table c) j := by
  have h : exec sgdOfThree.step startOfThree (addsOfThree ++ waitOfThree) =
      some ((exec sgdOfThree.step startOfThree (addsOfThree ++ waitOfThree)).getD startOfThree) := rfl
  have hret : ∀ w, ∀ id < (((exec sgdOfThree.step startOfThree (addsOfThree ++ waitOfThree)).getD
      startOfThree).workers w).calls.length, (((exec sgdOfThree.step startOfThree (addsOfThree ++ waitOfThree)).getD
        startOfThree).workers w).phases id = .returned := by
    intro w
    fin_cases w <;> decide +kernel
  exact ⟨_, h, by decide +kernel, sgdOfThree.settled_of_returned (fun _ => rfl) ⟨_, h⟩ hret⟩

open TwoParties in
/-- Worker 0 has sent an Add, and worker 1 has not called yet. -/
def sentOfThree : List (ClusterMove ℤ 2 2) :=
  [.add 0 [1, 2, 3] (some ⟨2⟩), .work 0 (.pop 0), .work 0 (.act 0), .work 0 (.act 0), .work 0 (.act 0)]

open TwoParties in
/-- The Get reaches server 1 before the Add does, and server 0 after it. -/
def amidOfThree : List (ClusterMove ℤ 2 2) :=
  [.work 1 (.wait 0), .work 1 (.pop 0), .work 1 (.act 0), .work 1 (.act 0), .work 1 (.act 0), .serve 1 0 1,
    .serve 0 1 0, .serve 1 0 0, .work 1 (.deliver 0), .work 1 (.deliver 0), .work 1 (.pop 0), .work 1 (.pop 1),
    .work 1 (.act 0), .work 1 (.act 0), .work 1 (.act 1), .work 1 (.act 1), .work 1 (.wake 0), .work 1 (.finish 0)]

open TwoParties in
theorem read_regular_three : ∃ c₁ c₂ c₃ : Cluster ℤ 2 2,
    exec sgdOfThree.step startOfThree sentOfThree = some c₁ ∧ sgdOfThree.step c₁ (.get 1) = some c₂ ∧
    exec sgdOfThree.step c₂ amidOfThree = some c₃ ∧ (c₃.workers 1).data = [-2, 1, 2] ∧
    ∃ ids : Fin 2 → Finset ℕ, (c₃.workers 1).data[0]? =
      some (0 + ∑ v, ∑ id ∈ ids v, sgdOfThree.callEffect (c₃.workers v).calls id 0) := by
  have h₁ : exec sgdOfThree.step startOfThree sentOfThree =
      some ((exec sgdOfThree.step startOfThree sentOfThree).getD startOfThree) := rfl
  have h₂ : sgdOfThree.step ((exec sgdOfThree.step startOfThree sentOfThree).getD startOfThree) (.get 1) =
      some ((exec sgdOfThree.step startOfThree (sentOfThree ++ [.get 1])).getD startOfThree) := rfl
  have h₃ : exec sgdOfThree.step ((exec sgdOfThree.step startOfThree (sentOfThree ++ [.get 1])).getD startOfThree)
      amidOfThree =
        some ((exec sgdOfThree.step startOfThree (sentOfThree ++ [.get 1] ++ amidOfThree)).getD startOfThree) := rfl
  have hcalls : (((exec sgdOfThree.step startOfThree sentOfThree).getD startOfThree).workers 1).calls = [] := rfl
  obtain ⟨ids, -, -, hread⟩ := sgdOfThree.read_regular (fun _ => rfl) ⟨sentOfThree, h₁⟩
    (fun id msg h => by rw [hcalls, List.getElem?_nil] at h; cases h) h₂ ⟨amidOfThree, h₃⟩ (by decide +kernel) 0
  exact ⟨_, _, _, h₁, h₂, h₃, by decide +kernel, ids, hread 0 (by decide)⟩

end Table.ArraySystem
end Hpps

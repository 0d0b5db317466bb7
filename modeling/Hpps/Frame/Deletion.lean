import Hpps.Frame.Mixed

/-! The waiter of a Store or a Load counts one reply, and is deleted with the Wait that it ends. -/
namespace Hpps.Frame

open TransitionSystem Tally

variable {β D : Type}

/-- The request that the act belongs to. -/
def Act.msgId : Act β → ℕ
  | .reset id _ => id
  | .push msg | .store msg | .notify msg => msg.msgId

namespace Worker

variable {node : WorkerNode β D} {types : List MsgType} {s t : WorkerState β D} {z : WorkerState (Option β) D}
  {a : WorkerMove β} {x : Act β} {msg : Message β} {popped : List (Message (Option β))} {id : ℕ} {d : D}

/-- Nothing of the call is left to be done. -/
def Over (s : WorkerState β D) (id : ℕ) : Prop :=
  (∀ msg ∈ s.mailbox ++ s.inFlight ++ s.replies, msg.msgId ≠ id) ∧ ∀ i, ∀ x ∈ s.threads i, x.msgId ≠ id

instance : Decidable (Over s id) := inferInstanceAs (Decidable (_ ∧ _))

instance : Decidable (Models s id) :=
  decidable_of_iff ((s.calls[id]?).any fun msg => msg.type.isModel) (by simp [Models, Option.any_eq_true])

/-- The waiter of a Store or a Load is deleted only when the call is over. -/
def Spared (s : WorkerState β D) : WorkerMove β → Prop
  | .finish id => Models s id → Over s id
  | _ => True

instance : Decidable (Spared s a) := by
  cases a <;> unfold Spared <;> infer_instance

/-! ### What is left of a call -/

theorem msgId_of_handle {acts : List (Act β)} (ha : handle node msg = .ok acts) (hx : x ∈ acts) :
    x.msgId = msg.msgId := by
  rcases handle_cases ha with ⟨-, num, out, -, rfl⟩ | ⟨-, file, data, -, rfl⟩ | ⟨-, ⟨-, rfl⟩ | ⟨-, rfl⟩⟩
  · rcases List.mem_cons.mp hx with rfl | hx
    · rfl
    · obtain ⟨q, hq, rfl⟩ := List.mem_map.mp hx
      obtain ⟨it, -, rfl⟩ := List.mem_map.mp hq
      rfl
  · obtain ⟨q, hq, rfl⟩ := List.mem_map.mp hx
    obtain ⟨i, -, rfl⟩ := List.mem_map.mp hq
    rfl
  · simp only [List.mem_cons, List.not_mem_nil, or_false] at hx
    rcases hx with rfl | rfl <;> rfl
  · rw [List.mem_singleton.mp hx]
    rfl

theorem Over.mailbox (h : Over s id) (hmsg : msg ∈ s.mailbox) : msg.msgId ≠ id := h.1 msg (by simp [hmsg])

theorem Over.inFlight (h : Over s id) (hmsg : msg ∈ s.inFlight) : msg.msgId ≠ id := h.1 msg (by simp [hmsg])

theorem Over.replies (h : Over s id) (hmsg : msg ∈ s.replies) : msg.msgId ≠ id := h.1 msg (by simp [hmsg])

theorem over_of (hmail : ∀ msg ∈ s.mailbox, msg.msgId ≠ id) (hfly : ∀ msg ∈ s.inFlight, msg.msgId ≠ id)
    (hreplies : ∀ msg ∈ s.replies, msg.msgId ≠ id) (hthreads : ∀ i, ∀ x ∈ s.threads i, x.msgId ≠ id) : Over s id := by
  refine ⟨fun msg hmsg => ?_, hthreads⟩
  rcases List.mem_append.mp hmsg with hmsg | hmsg
  · rcases List.mem_append.mp hmsg with hmsg | hmsg
    · exact hmail msg hmsg
    · exact hfly msg hmsg
  · exact hreplies msg hmsg

/-- A call that is over stays so. -/
theorem Over.step (h : Over s id) (hid : id < s.waitings.length) (hs : step node types s a = some t) : Over t id := by
  obtain ⟨-, ho⟩ := step_outcome hs
  cases ho with
  | wait | waitNull | wake | finish | popStop | actStop => exact h
  | issue hc =>
    refine over_of (fun msg hmsg => ?_) (fun _ => h.inFlight) (fun _ => h.replies) h.2
    rcases List.mem_append.mp hmsg with hmsg | hmsg
    · exact h.mailbox hmsg
    · rw [List.mem_singleton.mp hmsg]
      exact hid.ne'
  | @pop i msg mailbox acts hi hm ha =>
    refine over_of (fun q hq => h.mailbox (by rw [hm]; exact List.mem_cons_of_mem _ hq)) (fun _ => h.inFlight)
      (fun _ => h.replies) fun j x hx => ?_
    dsimp only at hx
    by_cases hj : j = i
    · subst hj
      rw [Function.update_self] at hx
      rw [msgId_of_handle ha hx]
      exact h.mailbox (by rw [hm]; exact List.mem_cons_self)
    · rw [Function.update_of_ne hj] at hx
      exact h.2 j x hx
  | @act i x acts r hi hr =>
    have hthreads : ∀ j, ∀ y ∈ Function.update s.threads i acts j, y.msgId ≠ id :=
      fun j y hy => h.2 j y (mem_update_tail hi hy)
    cases x with
    | reset | notify | store =>
      rw [perform] at hr
      split at hr <;> cases hr
      exact over_of (fun _ => h.mailbox) (fun _ => h.inFlight) (fun _ => h.replies) hthreads
    | push msg =>
      cases hr
      refine over_of (fun _ => h.mailbox) (fun q hq => ?_) (fun _ => h.replies) hthreads
      rcases List.mem_append.mp hq with hq | hq
      · exact h.inFlight hq
      · rw [List.mem_singleton.mp hq]
        exact h.2 i (.push msg) (by rw [hi]; exact List.mem_cons_self)
  | @serve k msg data hk =>
    refine over_of (fun _ => h.mailbox) (fun q hq => h.inFlight (List.mem_of_mem_eraseIdx hq)) (fun q hq => ?_) h.2
    rcases List.mem_append.mp hq with hq | hq
    · exact h.replies hq
    · rw [List.mem_singleton.mp hq]
      have hmsg : msg ∈ s.inFlight := List.mem_of_getElem? hk
      exact (h.inFlight hmsg :)
  | @deliver k msg hk =>
    refine over_of (fun q hq => ?_) (fun _ => h.inFlight) (fun q hq => h.replies (List.mem_of_mem_eraseIdx hq)) h.2
    rcases List.mem_append.mp hq with hq | hq
    · exact h.mailbox hq
    · rw [List.mem_singleton.mp hq]
      exact h.replies (List.mem_of_getElem? hk)

/-- No call is forgotten. -/
theorem calls_of_step (hs : step node types s a = some t) : s.calls <+: t.calls := by
  obtain ⟨-, ho⟩ := step_outcome hs
  cases ho with
  | issue => exact List.prefix_append ..
  | wait | waitNull | wake | finish | pop | popStop | actStop | serve | deliver => exact List.prefix_rfl
  | act hi hr =>
    dsimp only
    rw [(perform_frame hr).1]

/-- A reply on its way was so before, or a server just made it. -/
theorem replies_of_step {r : Message β} (hs : step node types s a = some t) (hr : r ∈ t.replies) : r ∈ s.replies ∨
    ∃ k data msg, a = .serve k data ∧ s.inFlight[k]? = some msg ∧ r = { msg.createReplyMessage with data := data } := by
  obtain ⟨-, ho⟩ := step_outcome hs
  cases ho with
  | issue | wait | waitNull | wake | finish | pop | popStop | actStop => exact .inl hr
  | @act i x acts u hi hp =>
    cases x with
    | reset | notify | store =>
      rw [perform] at hp
      split at hp <;> cases hp
      exact .inl hr
    | push =>
      cases hp
      exact .inl hr
  | @serve k msg data hk =>
    rcases List.mem_append.mp hr with hr | hr
    · exact .inl hr
    · exact .inr ⟨k, data, msg, rfl, hk, List.mem_singleton.mp hr⟩
  | deliver => exact .inl (List.mem_of_mem_eraseIdx hr)

/-- Nothing of a call is counted by its waiter when it is over. -/
theorem Covers.counts_of_over (h : Covers z s) (ho : Over s id) :
    pending z id = 0 ∧ unsent z id = 0 ∧ away z id = 0 := by
  have hmsgs : ∀ {p : Message (Option β) → Bool} {msgs : List (Message β)}, (∀ m, p m = true → m.msgId = id) →
      (∀ msg ∈ msgs, msg.msgId ≠ id) → (msgs.map Message.asAdd).countP p = 0 := by
    intro p msgs hp hne
    rw [List.countP_eq_zero]
    intro m hm hpm
    obtain ⟨msg, hmsg, rfl⟩ := List.mem_map.mp hm
    exact hne msg hmsg (msgId_asAdd.symm.trans (hp _ hpm))
  have hacts : ∀ {p : Act (Option β) → Bool}, (∀ x, p x = true → x.msgId = id) → tally p z.threads = 0 := by
    intro p hp
    refine tally_eq_zero.mpr fun i x hx hpx => ?_
    rw [h.threads] at hx
    obtain ⟨y, hy, rfl⟩ := List.mem_map.mp hx
    refine ho.2 i y hy ?_
    rw [← hp _ hpx]
    cases y <;> simp [Act.asAdd, Act.msgId]
  have hreset : tally (Act.isReset id) z.threads = 0 :=
    hacts fun x hx => by cases x <;> simp_all [Act.isReset, Act.msgId]
  have hpush : tally (Act.isPush (Message.of id)) z.threads = 0 :=
    hacts fun x hx => by cases x <;> simp_all [Act.isPush, Act.msgId, Message.of]
  have hnotify : tally (Act.isNotify (Message.of id)) z.threads = 0 :=
    hacts fun x hx => by cases x <;> simp_all [Act.isNotify, Act.msgId, Message.of]
  refine ⟨?_, hpush, ?_⟩
  · rw [pending, hreset, h.mailbox, hmsgs (fun m hm => by simp_all [Message.asks]) fun _ => ho.mailbox]
  · rw [away, hnotify, h.inFlight, h.replies, h.mailbox, hmsgs (fun m hm => by simp_all [Message.of]) fun _ => ho.inFlight,
      hmsgs (fun m hm => by simp_all [Message.of]) fun _ => ho.replies,
      hmsgs (fun m hm => by simp_all [Message.answers]) fun _ => ho.mailbox]

/-- A call of which the waiter counts nothing is over. -/
theorem Covers.over_of_counts (h : Covers z s) (hinv : Inv node.asAdd types z popped)
    (hc : pending z id = 0 ∧ unsent z id = 0 ∧ away z id = 0) : Over s id := by
  obtain ⟨hpending, hunsent, haway⟩ := hc
  rw [pending] at hpending
  rw [away] at haway
  have hmsg : ∀ {p : Message (Option β) → Bool} {msgs : List (Message β)} {msg : Message β}, msg ∈ msgs →
      p msg.asAdd = true → 0 < (msgs.map Message.asAdd).countP p :=
    fun hmem hp => List.countP_pos_iff.mpr ⟨_, List.mem_map_of_mem hmem, hp⟩
  have hact : ∀ {p : Act (Option β) → Bool} {i : Fin kWorkerThreadNum} {x : Act (Option β)}, x ∈ z.threads i →
      p x = true →
      0 < tally p z.threads := fun hmem hp => tally_pos_of_mem hmem hp
  rw [h.mailbox] at hpending haway
  rw [h.inFlight, h.replies] at haway
  refine over_of (fun msg hmem heq => ?_) (fun msg hmem heq => ?_) (fun msg hmem heq => ?_) fun i x hx heq => ?_
  · by_cases hpos : 0 < msg.asAdd.type
    · have := hmsg (p := Message.asks id) hmem ((asks_eq hpos).1.mpr (msgId_asAdd.trans heq))
      omega
    · have := hmsg (p := Message.answers id) hmem (by simp [Message.answers, hpos, heq])
      omega
  · have := hmsg (p := Message.of id) hmem (by simp [Message.of, heq])
    omega
  · have := hmsg (p := Message.of id) hmem (by simp [Message.of, heq])
    omega
  · have hz : x.asAdd ∈ z.threads i := by
      rw [h.threads]
      exact List.mem_map_of_mem hx
    cases x with
    | reset id' num =>
      have := hact (p := Act.isReset id) hz (by simpa [Act.isReset, Act.asAdd, Act.msgId] using heq)
      omega
    | push msg =>
      have := hact (p := Act.isPush (Message.of id)) hz
        (by simpa [Act.isPush, Act.asAdd, Act.msgId, Message.of] using heq)
      rw [unsent] at hunsent
      omega
    | store msg =>
      have hnotify := (hinv.ordered.shape i).notify_mem hz
      have := hact (p := Act.isNotify (Message.of id)) hnotify
        (by simpa [Act.isNotify, Act.msgId, Message.of] using heq)
      omega
    | notify msg =>
      have := hact (p := Act.isNotify (Message.of id)) hz
        (by simpa [Act.isNotify, Act.asAdd, Act.msgId, Message.of] using heq)
      omega

/-! ### Runs -/

/-- Only the waiters of calls that have returned are null, and these calls are over. -/
structure Kept (s : WorkerState β D) : Prop where
  called : ∀ id, s.phases id ≠ .idle → id < s.waitings.length
  null : ∀ id, s.waitings[id]? = some none → s.phases id = .returned
  ended : ∀ id, s.phases id = .returned → Over s id

theorem kept_init : Kept (init d : WorkerState β D) where
  called _ h := absurd rfl h
  null _ h := nomatch h
  ended _ h := nomatch h

/-- The waiter that a thread sets or counts down is there. -/
theorem Kept.waiter (h : Kept s) (hcov : Covered node s) {i : Fin kWorkerThreadNum} {acts : List (Act β)}
    (hi : s.threads i = x :: acts) (hx : (∃ num, x = .reset id num) ∨ ∃ msg, x = .notify msg ∧ msg.msgId = id) :
    ∃ v, s.waitings[id]? = some (some v) := by
  obtain ⟨z, popped, hinv, hcov⟩ := hcov
  have hi' : z.threads i = x.asAdd :: acts.map Act.asAdd := by rw [hcov.threads, hi, List.map_cons]
  obtain ⟨v, hv⟩ : ∃ v, z.waitings[id]? = some (some v) := by
    refine waiter_of_act hinv hi' ?_
    rcases hx with ⟨num, rfl⟩ | ⟨msg, rfl, hid⟩
    · exact .inl ⟨num, rfl⟩
    · exact .inr ⟨_, rfl, msgId_asAdd.trans hid⟩
  have hlt : id < s.waitings.length := by
    rw [← hcov.length]
    exact (List.getElem?_eq_some_iff.mp hv).1
  obtain ⟨w, hw⟩ : ∃ w, s.waitings[id]? = some w := ⟨_, List.getElem?_eq_getElem hlt⟩
  cases w with
  | some v => exact ⟨v, hw⟩
  | none =>
    have hmem : x ∈ s.threads i := by rw [hi]; exact List.mem_cons_self
    refine absurd ?_ ((h.ended id (h.null id hw)).2 i x hmem)
    rcases hx with ⟨num, rfl⟩ | ⟨msg, rfl, hid⟩
    · rfl
    · exact hid

/-- A waiter that is set or counted down is not null. -/
theorem Kept.set {num : ℤ} {id' : ℕ} (h : Kept s) (hw : (s.waitings.set id (some num))[id']? = some none) :
    s.phases id' = .returned := by
  by_cases heq : id = id'
  · subst heq
    simp [List.getElem?_set] at hw
  · rw [List.getElem?_set_ne heq] at hw
    exact h.null id' hw

/-- A client that is still waiting has a waiter. -/
theorem Kept.phase {phase : Phase} {num : ℤ} (h : Kept s) (hw : s.waitings[id]? = some (some num))
    (hne : phase ≠ .returned) : Kept { s with phases := Function.update s.phases id phase } where
  called id' hcalled := by
    dsimp only at hcalled ⊢
    by_cases hid : id' = id
    · rw [hid]
      exact (List.getElem?_eq_some_iff.mp hw).1
    · rw [Function.update_of_ne hid] at hcalled
      exact h.called id' hcalled
  null id' hw' := by
    have hid : id' ≠ id := by
      rintro rfl
      cases hw.symm.trans hw'
    exact (Function.update_of_ne hid _ _).trans (h.null id' hw')
  ended id' hret := by
    dsimp only at hret
    by_cases hid : id' = id
    · subst hid
      rw [Function.update_self] at hret
      exact absurd hret hne
    · rw [Function.update_of_ne hid] at hret
      exact h.ended id' hret

/-- The waiter that is deleted is that of a call that is over. -/
theorem Kept.finish (h : Kept s) (hp : s.phases id = .woken) (hover : Over s id) :
    Kept { s with waitings := s.waitings.set id none, phases := Function.update s.phases id .returned } where
  called id' hcalled := by
    dsimp only at hcalled ⊢
    rw [List.length_set]
    by_cases hid : id' = id
    · rw [hid]
      exact h.called id (by simp [hp])
    · rw [Function.update_of_ne hid] at hcalled
      exact h.called id' hcalled
  null id' hw := by
    dsimp only at hw ⊢
    by_cases heq : id' = id
    · rw [heq, Function.update_self]
    · rw [Function.update_of_ne heq]
      rw [List.getElem?_set_ne (Ne.symm heq)] at hw
      exact h.null id' hw
  ended id' hret := by
    dsimp only at hret
    by_cases heq : id' = id
    · subst heq
      exact hover
    · rw [Function.update_of_ne heq] at hret
      exact h.ended id' hret

/-- What a Wait on a Get or an Add has waited for is over. -/
theorem over_of_woken (hcov : Covered node s) (hp : s.phases id = .woken) (hno : ¬ Models s id) : Over s id := by
  obtain ⟨z, popped, hinv, hcov⟩ := hcov
  have hz : z.phases id = .woken := (hcov.agree id hno).2.trans hp
  exact hcov.over_of_counts hinv (hinv.counted.done id (.inl hz))

theorem Kept.step (h : Kept s) (hcov : Covered node s) (ha : Spared s a) (hs : step node types s a = some t) :
    Kept t ∧ t.crash ≠ some .waiter := by
  obtain ⟨hcrash, ho⟩ := step_outcome hs
  have hno : s.crash ≠ some .waiter := by simp [hcrash]
  have hover : ∀ id, s.phases id = .returned → Over t id :=
    fun id hid => (h.ended id hid).step (h.called id (by simp [hid])) hs
  cases ho with
  | @issue c hc =>
    refine ⟨⟨fun id hid => ?_, fun id hw => ?_, hover⟩, hno⟩
    · have := h.called id hid
      simp only [List.length_append]
      omega
    · rcases lt_or_ge id s.waitings.length with hlt | hge
      · exact h.null id ((List.getElem?_append_left hlt).symm.trans hw)
      · rw [List.getElem?_append_right hge, List.getElem?_singleton] at hw
        split at hw <;> cases hw
  | wait hp hw => exact ⟨h.phase hw (by simp), hno⟩
  | waitNull hp hw => cases hp.symm.trans (h.null _ hw)
  | wake hp hw hle => exact ⟨h.phase hw (by simp), hno⟩
  | @finish id hp =>
    have hcall : Over s id := by
      by_cases hm : Models s id
      · exact ha hm
      · exact over_of_woken hcov hp hm
    exact ⟨h.finish hp hcall, hno⟩
  | pop hi hm ha => exact ⟨⟨h.called, h.null, hover⟩, hno⟩
  | popStop => exact ⟨⟨h.called, h.null, hover⟩, by simp⟩
  | @act i x acts r hi hr =>
    cases x with
    | reset id num =>
      rw [perform] at hr
      split at hr <;> cases hr
      exact ⟨⟨fun id' hid => (h.called id' hid).trans_eq List.length_set.symm, fun id' hw => h.set hw, hover⟩, hno⟩
    | notify msg =>
      rw [perform] at hr
      split at hr <;> cases hr
      exact ⟨⟨fun id' hid => (h.called id' hid).trans_eq List.length_set.symm, fun id' hw => h.set hw, hover⟩, hno⟩
    | push msg =>
      cases hr
      exact ⟨⟨h.called, h.null, hover⟩, hno⟩
    | store msg =>
      rw [perform] at hr
      split at hr <;> cases hr
      exact ⟨⟨h.called, h.null, hover⟩, hno⟩
  | @actStop i x acts e hi hr =>
    refine ⟨⟨h.called, h.null, hover⟩, ?_⟩
    rintro ⟨⟩
    cases x with
    | reset id num =>
      obtain ⟨v, hv⟩ := h.waiter hcov hi (.inl ⟨num, rfl⟩)
      simp [perform, hv] at hr
    | notify msg =>
      obtain ⟨v, hv⟩ := h.waiter hcov hi (.inr ⟨msg, rfl, rfl⟩)
      simp [perform, hv] at hr
    | push msg => cases hr
    | store msg =>
      rw [perform] at hr
      split at hr <;> cases hr
  | serve hk => exact ⟨⟨h.called, h.null, hover⟩, hno⟩
  | deliver hk => exact ⟨⟨h.called, h.null, hover⟩, hno⟩

/-! ### Gets go on -/

/-- What a waiter that is not run down still counts. -/
theorem not_over_of_blocked {num : ℤ} (hcov : Covered node s) (hno : ¬ Models s id) (hphase : s.phases id = .blocked)
    (hw : s.waitings[id]? = some (some num)) (hnum : ¬ num ≤ 0) : ¬ Over s id := by
  intro hover
  obtain ⟨z, popped, hinv, hcov⟩ := hcov
  obtain ⟨hpending, hunsent, haway⟩ := hcov.counts_of_over hover
  obtain ⟨hwz, hpz⟩ := hcov.agree id hno
  rw [hw] at hwz
  have hwaiter := hinv.counted.waiting id (List.getElem?_eq_some_iff.mp hwz).1
  rw [hwz, waiter, if_neg (by simp [hpz, hphase]), if_pos hpending, hunsent, haway] at hwaiter
  cases hwaiter
  exact hnum le_rfl

/-- The messages of a Get are Gets. -/
theorem get_of_inFlight {q : Message β} (hcov : Covered node s) (hq : q ∈ s.inFlight)
    (hmsg : s.calls[q.msgId]? = some msg) (hget : msg.type = .Request_Get) : q.type = .Request_Get := by
  obtain ⟨z, popped, hinv, hcov⟩ := hcov
  have hqz : q.asAdd ∈ z.inFlight := by
    rw [hcov.inFlight]
    exact List.mem_map_of_mem hq
  obtain ⟨msg', acts, hcall, ha, hpush⟩ := exists_call hinv (.inl hqz)
  rw [msgId_asAdd, hcov.calls, List.getElem?_map, hmsg, Option.map_some, Option.some.injEq] at hcall
  have hno : msg.type.isModel = false := by
    rw [hget]
    rfl
  have htype := type_of_push ha hpush
  rw [← hcall, asAdd_of_not_model hno] at htype
  cases hmodel : q.type.isModel with
  | false =>
    rw [asAdd_of_not_model hmodel] at htype
    exact htype.trans hget
  | true =>
    rw [asAdd_of_model hmodel] at htype
    have hadd := htype.trans hget
    dsimp only at hadd
    split at hadd <;> cases hadd

variable (types) in
/-- A Get whose Wait has not returned can go on, or waits for a server. -/
theorem exists_move (hcov : Covered node s) (hkept : Kept s) (hcrash : s.crash = none)
    (hlocal : ∀ r ∈ s.replies, localForward r.type = .worker) (hmsg : s.calls[id]? = some msg)
    (hget : msg.type = .Request_Get) (hret : s.phases id ≠ .returned) :
    (∃ m, (step node types s m).isSome ∧ (∀ c, m ≠ .issue c) ∧ (∀ k data, m ≠ .serve k data) ∧ Spared s m) ∨
      ∃ (k : ℕ) (q : Message β), s.inFlight[k]? = some q ∧ q.type = .Request_Get := by
  have hno : ¬ Models s id := by
    rintro ⟨msg', hmsg', hmodel⟩
    cases hmsg.symm.trans hmsg'
    rw [hget] at hmodel
    cases hmodel
  obtain ⟨num, hw⟩ : ∃ num, s.waitings[id]? = some (some num) := by
    have hlt : id < s.waitings.length := by
      rw [← hcov.length_calls]
      exact (List.getElem?_eq_some_iff.mp hmsg).1
    cases hw : s.waitings[id] with
    | none => exact absurd (hkept.null id (by rw [List.getElem?_eq_getElem hlt, hw])) hret
    | some num => exact ⟨num, by rw [List.getElem?_eq_getElem hlt, hw]⟩
  cases hphase : s.phases id with
  | returned => exact absurd hphase hret
  | idle => exact .inl ⟨.wait id, by simp [step, hcrash, hphase, hw], by simp, by simp, trivial⟩
  | woken => exact .inl ⟨.finish id, by simp [step, hcrash, hphase], by simp, by simp, fun hm => absurd hm hno⟩
  | blocked =>
    by_cases hnum : num ≤ 0
    · exact .inl ⟨.wake id, by simp [step, hcrash, hphase, hw, hnum], by simp, by simp, trivial⟩
    by_cases hthreads : ∃ i, s.threads i ≠ []
    · obtain ⟨i, hi⟩ := hthreads
      obtain ⟨x, acts, hi⟩ := List.exists_cons_of_ne_nil hi
      refine .inl ⟨.act i, ?_, by simp, by simp, trivial⟩
      rw [step, if_neg (by simp [hcrash])]
      simp only [hi]
      split <;> rfl
    have hidle : ∀ i, s.threads i = [] := fun i => by_contra fun hi => hthreads ⟨i, hi⟩
    cases hmail : s.mailbox with
    | cons q mailbox =>
      refine .inl ⟨.pop ⟨0, by decide⟩, ?_, by simp, by simp, trivial⟩
      rw [step, if_neg (by simp [hcrash])]
      simp only [hidle, hmail]
      split <;> rfl
    | nil =>
      cases hreplies : s.replies with
      | cons r replies =>
        have hr := hlocal r (by rw [hreplies]; exact List.mem_cons_self)
        exact .inl ⟨.deliver 0, by simp [step, hcrash, hreplies, hr], by simp, by simp, trivial⟩
      | nil =>
        -- the waiter counts a message that a server has not answered
        have hleft := not_over_of_blocked hcov hno hphase hw hnum
        obtain ⟨q, hq, hid⟩ : ∃ q ∈ s.inFlight, q.msgId = id := by
          by_contra hnone
          push Not at hnone
          refine hleft (over_of ?_ hnone ?_ ?_)
          · simp [hmail]
          · simp [hreplies]
          · simp [hidle]
        obtain ⟨k, hk⟩ := List.mem_iff_getElem?.mp hq
        exact .inr ⟨k, q, hk, get_of_inFlight hcov hq (hid ▸ hmsg) hget⟩

end Worker
end Hpps.Frame

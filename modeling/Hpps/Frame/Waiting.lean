import Hpps.Table.ArrayTable

/-! What a waiter counts: the messages of its request that were not yet answered and stored. -/
namespace Hpps.Frame

open TransitionSystem Tally

variable {β D : Type}

def Act.isReset (id : ℕ) : Act β → Bool
  | .reset id' _ => id' = id
  | _ => false

def Act.isPush (p : Message β → Bool) : Act β → Bool
  | .push msg => p msg
  | _ => false

def Act.isNotify (p : Message β → Bool) : Act β → Bool
  | .notify msg => p msg
  | _ => false

def Act.push? : Act β → Option (Message β)
  | .push msg => some msg
  | _ => none

/-- The message belongs to this request. -/
def Message.of (id : ℕ) (msg : Message β) : Bool := msg.msgId = id

/-- The message asks for request `id`. -/
def Message.asks (id : ℕ) (msg : Message β) : Bool := 0 < msg.type ∧ msg.msgId = id

/-- The message answers request `id`. -/
def Message.answers (id : ℕ) (msg : Message β) : Bool := ¬ 0 < msg.type ∧ msg.msgId = id

/-- The acts of a thread: those left of a request, or those left of a reply. -/
inductive Shape : List (Act β) → Prop
  | reset {id num : ℕ} {msgs : List (Message β)} : Shape (.reset id num :: msgs.map .push)
  | push {msgs : List (Message β)} : Shape (msgs.map .push)
  | store {msg : Message β} : Shape [.store msg, .notify msg]
  | notify {msg : Message β} : Shape [.notify msg]

theorem Call.type_pos (c : Call β) : 0 < c.type := by
  cases c <;> simp [Call.type, MsgType.Request_Get, MsgType.Request_Add, MsgType.Store_Model,
    MsgType.Load_Model]

theorem Shape.nil : Shape ([] : List (Act β)) := @Shape.push β []

theorem Shape.tail {x : Act β} {acts : List (Act β)} (h : Shape (x :: acts)) : Shape acts := by
  generalize hl : x :: acts = l at h
  cases h with
  | reset =>
    cases hl
    exact .push
  | @push msgs =>
    cases msgs with
    | nil => cases hl
    | cons msg msgs =>
      cases hl
      exact .push
  | store =>
    cases hl
    exact .notify
  | notify =>
    cases hl
    exact .nil

theorem Shape.eq_reset {x : Act β} {acts : List (Act β)} {id : ℕ} (h : Shape acts) (hx : x ∈ acts)
    (hr : x.isReset id) : ∃ num rest, acts = .reset id num :: rest := by
  cases h with
  | @reset id' num msgs =>
    rcases List.mem_cons.mp hx with rfl | hx
    · simp only [Act.isReset, decide_eq_true_eq] at hr
      exact ⟨num, _, by rw [hr]⟩
    · obtain ⟨msg, -, rfl⟩ := List.mem_map.mp hx
      cases hr
  | push =>
    obtain ⟨msg, -, rfl⟩ := List.mem_map.mp hx
    cases hr
  | store =>
    simp only [List.mem_cons, List.not_mem_nil, or_false] at hx
    rcases hx with rfl | rfl <;> cases hr
  | notify =>
    rw [List.mem_singleton] at hx
    subst hx
    cases hr

theorem Shape.ne_reset {x : Act β} {acts rest : List (Act β)} {id num : ℕ} (h : Shape (x :: acts)) :
    acts ≠ .reset id num :: rest := by
  rintro rfl
  generalize hl : x :: .reset id num :: rest = l at h
  cases h with
  | @reset _ _ msgs => cases msgs <;> cases hl
  | @push msgs =>
    cases msgs with
    | nil => cases hl
    | cons q msgs => cases msgs <;> cases hl
  | store => cases hl
  | notify => cases hl

theorem Shape.notify_mem {acts : List (Act β)} {msg : Message β} (h : Shape acts)
    (hx : .store msg ∈ acts) : .notify msg ∈ acts := by
  cases h with
  | reset => simp at hx
  | push => simp at hx
  | store => simpa using hx
  | notify => simp at hx

theorem countP_map_push (p : Message β → Bool) (msgs : List (Message β)) :
    (msgs.map Act.push).countP (Act.isPush p) = msgs.countP p ∧
    (∀ id, (msgs.map Act.push).countP (Act.isReset id) = 0) ∧
    (msgs.map Act.push).countP (Act.isNotify p) = 0 := by
  refine ⟨?_, fun id => ?_, ?_⟩
  · rw [List.countP_map]
    rfl
  · simp [List.countP_eq_zero, Act.isReset]
  · simp [List.countP_eq_zero, Act.isNotify]

theorem countP_of {msgs : List (Message β)} {id id' : ℕ} (h : ∀ msg ∈ msgs, msg.msgId = id') :
    msgs.countP (Message.of id) = if id = id' then msgs.length else 0 := by
  split
  · rename_i heq
    exact List.countP_eq_length.mpr fun msg hmsg => by simp [Message.of, h msg hmsg, heq]
  · rename_i hne
    exact List.countP_eq_zero.mpr fun msg hmsg => by simp [Message.of, h msg hmsg, Ne.symm hne]

/-- What a thread has left to do was there before. -/
theorem mem_update_tail {f : Fin kWorkerThreadNum → List (Act β)} {i : Fin kWorkerThreadNum}
    {x y : Act β} {acts : List (Act β)} (hi : f i = x :: acts) {j : Fin kWorkerThreadNum}
    (hy : y ∈ Function.update f i acts j) : y ∈ f j := by
  by_cases hji : j = i
  · subst hji
    rw [Function.update_self] at hy
    exact hi ▸ List.mem_cons_of_mem _ hy
  · rwa [Function.update_of_ne hji] at hy

namespace Worker

variable {node : WorkerNode β D} {types : List MsgType} {s t : WorkerState β D} {a : WorkerMove β}
  {msg : Message β} {acts : List (Act β)} {popped : List (Message β)} {id num : ℕ} {d : D}

/-- The messages to the servers that a request is split into. -/
def requests (node : WorkerNode β D) (msg : Message β) : List (Message β) :=
  match handle node msg with
  | .ok acts => acts.filterMap Act.push?
  | .error _ => []

theorem push_of_requests {q : Message β} (hq : q ∈ requests node msg) :
    ∃ acts, handle node msg = .ok acts ∧ .push q ∈ acts := by
  unfold requests at hq
  split at hq
  · rename_i acts ha
    obtain ⟨x, hx, hpush⟩ := List.mem_filterMap.mp hq
    cases x with
    | push q' =>
      cases hpush
      exact ⟨acts, ha, hx⟩
    | reset | store | notify => cases hpush
  · cases hq

theorem countP_requests {p : Message β → Bool} (h : handle node msg = .ok acts) :
    (requests node msg).countP p = acts.countP (Act.isPush p) := by
  rw [requests, h, List.countP_filterMap]
  congr 1
  funext x
  cases x <;> rfl

theorem filterMap_map_push {msgs : List (Message β)} : (msgs.map Act.push).filterMap Act.push? = msgs := by
  rw [List.filterMap_map]
  exact List.filterMap_some

/-- A Get or an Add sets its waiter before its parts are sent. -/
theorem handle_request {out : List (ℕ × List β)} (htype : msg.type = .Request_Get ∨ msg.type = .Request_Add)
    (hdata : msg.type = .Request_Add → msg.data ≠ [])
    (hp : node.table.Partition msg.data msg.type = .ok (num, out)) :
    handle node msg = .ok (.reset msg.msgId num ::
      (out.map fun it => newMsg node msg.type msg it.1 it.2).map .push) := by
  have hrequest : processRequest node msg.type msg = .ok (.reset msg.msgId num ::
      (out.map fun it => newMsg node msg.type msg it.1 it.2).map .push) := by
    rw [processRequest, hp, List.map_map]
    rfl
  rcases htype with ht | ht
  · rw [handle, if_pos ht, processGet, ← ht, hrequest]
  · have hne : ¬ msg.type = .Request_Get := by
      rw [ht]
      decide
    rw [handle, if_neg hne, if_pos ht, processAdd, if_neg (by simpa using hdata ht), ← ht, hrequest]

/-- A Get or an Add is split as Partition says. -/
theorem requests_eq {out : List (ℕ × List β)} (htype : msg.type = .Request_Get ∨ msg.type = .Request_Add)
    (hdata : msg.data ≠ []) (hp : node.table.Partition msg.data msg.type = .ok (num, out)) :
    requests node msg = out.map fun it => newMsg node msg.type msg it.1 it.2 := by
  rw [requests, handle_request htype (fun _ => hdata) hp]
  exact filterMap_map_push

/-- The acts that handle a request of a client, a checkpoint, or a reply. -/
theorem handle_cases (h : handle node msg = .ok acts) :
    ((msg.type = .Request_Get ∨ msg.type = .Request_Add) ∧ ∃ num out,
      node.table.Partition msg.data msg.type = .ok (num, out) ∧ acts = .reset msg.msgId num ::
        (out.map fun it => newMsg node msg.type msg it.1 it.2).map .push) ∨
    ((msg.type = .Load_Model ∨ msg.type = .Store_Model) ∧ ∃ file data, msg.data = file :: data ∧
      acts = ((List.range node.numServers).map fun i =>
        newMsg node msg.type msg i [node.modelFile file i]).map .push) ∨
    (msg.type < 0 ∧ (msg.type = .Reply_Get ∧ acts = [.store msg, .notify msg] ∨
      msg.type ≠ .Reply_Get ∧ acts = [.notify msg])) := by
  unfold handle at h
  have hrequest : ∀ {type : MsgType}, processRequest node type msg = .ok acts → ∃ num out,
      node.table.Partition msg.data type = .ok (num, out) ∧ acts = .reset msg.msgId num ::
        (out.map fun it => newMsg node type msg it.1 it.2).map .push := by
    intro type h
    obtain ⟨⟨num, out⟩, hp, hr⟩ := bind_eq_ok.mp h
    cases hr
    exact ⟨num, out, hp, by simp [Function.comp_def]⟩
  have hmodel : ∀ {type : MsgType}, processModel node type msg = .ok acts → ∃ file data,
      msg.data = file :: data ∧ acts = ((List.range node.numServers).map fun i =>
        newMsg node type msg i [node.modelFile file i]).map .push := by
    intro type h
    unfold processModel at h
    split at h
    · cases h
    · rename_i file data hdata
      cases h
      exact ⟨file, data, hdata, by simp [Function.comp_def]⟩
  split_ifs at h with h1 h2 h3 h4 h5 h6 h7 h8
  · exact .inl ⟨.inl h1, by rw [h1]; exact hrequest h⟩
  · unfold processAdd at h
    split_ifs at h
    exact .inl ⟨.inr h2, by rw [h2]; exact hrequest h⟩
  · cases h
    exact .inr (.inr ⟨by rw [h3]; decide, .inl ⟨h3, rfl⟩⟩)
  · cases h
    exact .inr (.inr ⟨by rw [h4]; decide, .inr ⟨h3, rfl⟩⟩)
  · exact .inr (.inl ⟨.inl h5, by rw [h5]; exact hmodel h⟩)
  · exact .inr (.inl ⟨.inr h6, by rw [h6]; exact hmodel h⟩)
  · cases h
    exact .inr (.inr ⟨by rw [h7]; decide, .inr ⟨h3, rfl⟩⟩)
  · cases h
    exact .inr (.inr ⟨by rw [h8]; decide, .inr ⟨h3, rfl⟩⟩)

/-- Requests of which the waiter was not set. -/
def pending (s : WorkerState β D) (id : ℕ) : ℕ :=
  s.mailbox.countP (Message.asks id) + tally (Act.isReset id) s.threads

def unsent (s : WorkerState β D) (id : ℕ) : ℕ := tally (Act.isPush (Message.of id)) s.threads

/-- Messages on their way, at the servers or back, up to the Notify. -/
def away (s : WorkerState β D) (id : ℕ) : ℕ :=
  s.inFlight.countP (Message.of id) + s.replies.countP (Message.of id) +
    s.mailbox.countP (Message.answers id) + tally (Act.isNotify (Message.of id)) s.threads

/-- What `waitings[id]` holds. -/
def waiter (s : WorkerState β D) (id : ℕ) : Option ℤ :=
  if s.phases id = .returned then none
  else if pending s id = 0 then some ((unsent s id + away s id : ℕ) : ℤ)
  else some 1

/-- Each waiter counts what is unsent or away. -/
structure Counted (s : WorkerState β D) : Prop where
  new : ∀ id, s.waitings.length ≤ id →
    pending s id = 0 ∧ unsent s id = 0 ∧ away s id = 0 ∧ s.phases id = .idle
  one : ∀ id, pending s id ≤ 1
  done : ∀ id, s.phases id = .woken ∨ s.phases id = .returned →
    pending s id = 0 ∧ unsent s id = 0 ∧ away s id = 0
  waiting : ∀ id, id < s.waitings.length → s.waitings[id]? = some (waiter s id)

/-- The waiter of a request is set before the first of its messages is sent. -/
structure Ordered (s : WorkerState β D) : Prop where
  shape : ∀ i, Shape (s.threads i)
  asked : ∀ msg ∈ s.mailbox, 0 < msg.type → unsent s msg.msgId = 0 ∧ away s msg.msgId = 0
  armed : ∀ i id num acts, s.threads i = .reset id num :: acts → num = unsent s id ∧ away s id = 0
  behind : ∀ i msg, .push msg ∈ s.threads i →
    pending s msg.msgId = 0 ∨ ∃ num acts, s.threads i = .reset msg.msgId num :: acts

/-- The threads of the worker actor popped the requests `popped`. -/
structure Inv (node : WorkerNode β D) (types : List MsgType) (s : WorkerState β D)
    (popped : List (Message β)) : Prop where
  calls : s.calls = popped ++ s.mailbox.filter fun msg => 0 < msg.type
  length : s.calls.length = s.waitings.length
  msgId : ∀ (id : ℕ) msg, s.calls[id]? = some msg → msg.msgId = id
  allowed : ∀ msg ∈ s.calls, msg.type ∈ types
  handled : ∀ msg ∈ popped, ∃ acts, handle node msg = .ok acts
  request : (∀ i msg, .push msg ∈ s.threads i → 0 < msg.type) ∧ ∀ msg ∈ s.inFlight, 0 < msg.type
  reply : ∀ msg ∈ s.replies, msg.type < 0
  conserved : ∀ p, tally (Act.isPush p) s.threads + s.inFlight.countP p +
    (s.replied.map Prod.fst).countP p = (popped.flatMap (requests node)).countP p
  settled : ∀ q ∈ s.replied, q.2 = { q.1.createReplyMessage with data := q.2.data } ∧
    (q.2.type = .Reply_Get → q.2 ∈ s.stored ∨ q.2 ∈ s.replies ∨ q.2 ∈ s.mailbox ∨
      ∃ i, .store q.2 ∈ s.threads i)
  past : ∀ msg ∈ s.stored, msg.msgId < s.waitings.length
  counted : Counted s
  ordered : Ordered s

theorem inv_init : Inv node types (init d : WorkerState β D) [] where
  calls := rfl
  length := rfl
  msgId := by simp [init]
  allowed := by simp [init]
  handled := by simp
  request := by simp [init]
  reply := by simp [init]
  conserved := by simp [init]
  settled := by simp [init]
  past := by simp [init]
  counted := ⟨by simp [init, pending, unsent, away], by simp [init, pending], by simp [init], by simp [init]⟩
  ordered := ⟨fun _ => .nil, by simp [init], by simp [init], by simp [init]⟩

theorem Counted.congr (h : Counted s) (hw : t.waitings = s.waitings) (hp : t.phases = s.phases)
    (hc : ∀ id, pending t id = pending s id ∧ unsent t id + away t id = unsent s id + away s id) :
    Counted t := by
  have hwaiter : ∀ id, waiter t id = waiter s id := by
    intro id
    rw [waiter, waiter, hp, (hc id).1, (hc id).2]
  refine ⟨fun id hid => ?_, fun id => ?_, fun id hid => ?_, fun id hid => ?_⟩
  · rw [hw] at hid
    obtain ⟨h1, h2, h3, h4⟩ := h.new id hid
    have := hc id
    exact ⟨by omega, by omega, by omega, by rw [hp, h4]⟩
  · rw [(hc id).1]
    exact h.one id
  · rw [hp] at hid
    obtain ⟨h1, h2, h3⟩ := h.done id hid
    have := hc id
    exact ⟨by omega, by omega, by omega⟩
  · rw [hw] at hid ⊢
    rw [hwaiter]
    exact h.waiting id hid

/-- One request moves on, and its waiter is right again. -/
theorem Counted.change (h : Counted s) (id : ℕ) (hp : t.phases = s.phases)
    (hlen : t.waitings.length = s.waitings.length)
    (hother : ∀ id', id' ≠ id → t.waitings[id']? = s.waitings[id']? ∧ pending t id' = pending s id' ∧
      unsent t id' = unsent s id' ∧ away t id' = away s id')
    (hnz : pending s id ≠ 0 ∨ unsent s id + away s id ≠ 0) (hone : pending t id ≤ 1)
    (hw : t.waitings[id]? =
      some (if pending t id = 0 then some ((unsent t id + away t id : ℕ) : ℤ) else some 1)) :
    Counted t := by
  refine ⟨fun id' hid => ?_, fun id' => ?_, fun id' hid => ?_, fun id' hid => ?_⟩
  · rw [hlen] at hid
    obtain ⟨h1, h2, h3, h4⟩ := h.new id' hid
    have hne : id' ≠ id := by
      rintro rfl
      omega
    obtain ⟨-, h5, h6, h7⟩ := hother id' hne
    exact ⟨by omega, by omega, by omega, by rw [hp, h4]⟩
  · by_cases hne : id' = id
    · subst hne; exact hone
    · rw [(hother id' hne).2.1]
      exact h.one id'
  · rw [hp] at hid
    obtain ⟨h1, h2, h3⟩ := h.done id' hid
    have hne : id' ≠ id := by
      rintro rfl
      omega
    obtain ⟨-, h5, h6, h7⟩ := hother id' hne
    exact ⟨by omega, by omega, by omega⟩
  · by_cases hne : id' = id
    · subst hne
      have hphase : t.phases id' ≠ .returned := by
        intro hret
        rw [hp] at hret
        obtain ⟨h1, h2, h3⟩ := h.done id' (.inr hret)
        omega
      rw [hw, waiter, if_neg hphase]
    · obtain ⟨h4, h5, h6, h7⟩ := hother id' hne
      rw [hlen] at hid
      rw [h4, h.waiting id' hid, waiter, waiter, hp, h5, h6, h7]

theorem Counted.waitings_of_pending (h : Counted s) (hp : pending s id ≠ 0) :
    s.waitings[id]? = some (some 1) := by
  have hlt : id < s.waitings.length := by
    by_contra hge
    have := h.new id (by omega)
    omega
  have hphase : s.phases id ≠ .returned := by
    intro hret
    have := h.done id (.inr hret)
    omega
  rw [h.waiting id hlt, waiter, if_neg hphase, if_neg hp]

theorem Counted.waitings_of_open (h : Counted s) (hp : pending s id = 0)
    (ho : unsent s id + away s id ≠ 0) :
    s.waitings[id]? = some (some ((unsent s id + away s id : ℕ) : ℤ)) := by
  have hlt : id < s.waitings.length := by
    by_contra hge
    have := h.new id (by omega)
    omega
  have hphase : s.phases id ≠ .returned := by
    intro hret
    have := h.done id (.inr hret)
    omega
  rw [h.waiting id hlt, waiter, if_neg hphase, if_pos hp]

/-- While the waiter is not set, nothing of the request was sent. -/
theorem Ordered.away_eq_zero (h : Ordered s) (hp : pending s id ≠ 0) : away s id = 0 := by
  rcases Nat.eq_zero_or_pos (s.mailbox.countP (Message.asks id)) with hm | hm
  · obtain ⟨i, x, hx, hreset⟩ : ∃ i, ∃ x ∈ s.threads i, Act.isReset id x :=
      exists_of_tally_pos (by rw [pending] at hp; omega)
    obtain ⟨num, acts, hi⟩ := (h.shape i).eq_reset hx hreset
    exact (h.armed i id num acts hi).2
  · obtain ⟨msg, hmsg, hask⟩ := List.countP_pos_iff.mp hm
    simp only [Message.asks, decide_eq_true_eq] at hask
    rw [← hask.2]
    exact (h.asked msg hmsg hask.1).2

/-- Somewhere else than in thread `i` the waiter of the request is still to be set. -/
def Guarded (s : WorkerState β D) (i : Fin kWorkerThreadNum) (id : ℕ) : Prop :=
  (∃ msg ∈ s.mailbox, 0 < msg.type ∧ msg.msgId = id) ∨
    ∃ j, j ≠ i ∧ ∃ num rest, s.threads j = .reset id num :: rest

theorem asks_eq (h : 0 < msg.type) : (msg.asks id = true ↔ msg.msgId = id) ∧ msg.answers id = false := by
  simp [Message.asks, Message.answers, h]

theorem answers_eq (h : msg.type < 0) : (msg.answers id = true ↔ msg.msgId = id) ∧ msg.asks id = false := by
  have hn : ¬ 0 < msg.type := not_lt.mpr h.le
  simp [Message.asks, Message.answers, hn]

theorem Guarded.pending_pos {i : Fin kWorkerThreadNum} (h : Guarded s i id) : 0 < pending s id := by
  unfold pending
  rcases h with ⟨msg, hmsg, hpos, hid⟩ | ⟨j, -, num, rest, hj⟩
  · have : 0 < s.mailbox.countP (Message.asks id) :=
      List.countP_pos_iff.mpr ⟨msg, hmsg, (asks_eq hpos).1.mpr hid⟩
    omega
  · have : 0 < tally (Act.isReset id) s.threads :=
      tally_pos_of_mem (i := j) (a := .reset id num) (by simp [hj]) (by simp [Act.isReset])
    omega

/-- Thread `i` has the acts `acts` from now on, and no request guarded elsewhere has moved. -/
theorem Ordered.thread {i : Fin kWorkerThreadNum} (ho : Ordered s)
    (hthreads : t.threads = Function.update s.threads i acts)
    (hmail : ∀ msg ∈ t.mailbox, 0 < msg.type → msg ∈ s.mailbox)
    (hpend : ∀ id, pending t id ≤ pending s id)
    (hsame : ∀ id, Guarded t i id → unsent t id = unsent s id ∧ away t id = away s id)
    (hshape : Shape acts)
    (harmed : ∀ id num rest, acts = .reset id num :: rest → num = unsent t id ∧ away t id = 0)
    (hbehind : ∀ msg, .push msg ∈ acts →
      pending t msg.msgId = 0 ∨ ∃ num rest, acts = .reset msg.msgId num :: rest) : Ordered t := by
  have hself : t.threads i = acts := by rw [hthreads, Function.update_self]
  have hother : ∀ j, j ≠ i → t.threads j = s.threads j := fun j hj => by
    rw [hthreads, Function.update_of_ne hj]
  refine ⟨fun j => ?_, fun msg hmsg hpos => ?_, fun j id num rest hj => ?_, fun j msg hj => ?_⟩
  · by_cases hji : j = i
    · subst hji
      rwa [hself]
    · rw [hother j hji]
      exact ho.shape j
  · obtain ⟨hu, ha⟩ := hsame msg.msgId (.inl ⟨msg, hmsg, hpos, rfl⟩)
    rw [hu, ha]
    exact ho.asked msg (hmail msg hmsg hpos) hpos
  · by_cases hji : j = i
    · subst hji
      exact harmed id num rest (hself.symm.trans hj)
    · obtain ⟨hu, ha⟩ := hsame id (.inr ⟨j, hji, num, rest, hj⟩)
      rw [hu, ha]
      exact ho.armed j id num rest ((hother j hji).symm.trans hj)
  · by_cases hji : j = i
    · subst hji
      rw [hself] at hj ⊢
      exact hbehind msg hj
    · rw [hother j hji] at hj ⊢
      have := hpend msg.msgId
      exact (ho.behind j msg hj).imp_left fun h => by omega

/-! ### A message is popped -/

section Pop

variable {i : Fin kWorkerThreadNum} {mailbox : List (Message β)}

/-- The state after thread `i` popped the message. -/
def afterPop (s : WorkerState β D) (i : Fin kWorkerThreadNum) (mailbox : List (Message β))
    (acts : List (Act β)) : WorkerState β D :=
  { s with mailbox := mailbox, threads := Function.update s.threads i acts }

theorem threads_afterPop_self : (afterPop s i mailbox acts).threads i = acts := by
  simp [afterPop]

theorem threads_afterPop_of_ne {j : Fin kWorkerThreadNum} (hj : j ≠ i) :
    (afterPop s i mailbox acts).threads j = s.threads j := by
  simp [afterPop, hj]

theorem counts_afterPop (acts : List (Act β)) (id : ℕ) (hi : s.threads i = [])
    (hm : s.mailbox = msg :: mailbox) :
    pending (afterPop s i mailbox acts) id + (if msg.asks id then 1 else 0) =
      pending s id + acts.countP (Act.isReset id) ∧
    unsent (afterPop s i mailbox acts) id = unsent s id + acts.countP (Act.isPush (Message.of id)) ∧
    away (afterPop s i mailbox acts) id + (if msg.answers id then 1 else 0) =
      away s id + acts.countP (Act.isNotify (Message.of id)) := by
  simp only [afterPop, pending, unsent, away, tally_fill hi, hm, List.countP_cons]
  exact ⟨by omega, trivial, by omega⟩

/-- The request of a message in the mailbox is the only one with its id. -/
theorem Counted.pending_of_mailbox (h : Counted s) (acts : List (Act β)) (hm : s.mailbox = msg :: mailbox)
    (hpos : 0 < msg.type) :
    pending s msg.msgId = 1 ∧ ¬ Guarded (afterPop s i mailbox acts) i msg.msgId := by
  have hone := h.one msg.msgId
  have hask : msg.asks msg.msgId = true := (asks_eq hpos).1.mpr rfl
  rw [pending, hm, List.countP_cons, if_pos hask] at hone
  refine ⟨by rw [pending, hm, List.countP_cons, if_pos hask]; omega, ?_⟩
  rintro (⟨q, hq, hqpos, hid⟩ | ⟨j, hji, num, rest, hj⟩)
  · have : 0 < mailbox.countP (Message.asks msg.msgId) :=
      List.countP_pos_iff.mpr ⟨q, hq, (asks_eq hqpos).1.mpr hid⟩
    omega
  · rw [threads_afterPop_of_ne hji] at hj
    have : 0 < tally (Act.isReset msg.msgId) s.threads :=
      tally_pos_of_mem (i := j) (a := .reset msg.msgId num) (by simp [hj]) (by simp [Act.isReset])
    omega

variable {msgs : List (Message β)}

theorem popped_request (msgs : List (Message β)) (hc : Counted s) (ho : Ordered s) (hi : s.threads i = [])
    (hm : s.mailbox = msg :: mailbox) (hpos : 0 < msg.type) (hmsgs : ∀ q ∈ msgs, q.msgId = msg.msgId) :
    Counted (afterPop s i mailbox (.reset msg.msgId msgs.length :: msgs.map .push)) ∧
    Ordered (afterPop s i mailbox (.reset msg.msgId msgs.length :: msgs.map .push)) := by
  obtain ⟨hpend, hguard⟩ :=
    hc.pending_of_mailbox (.reset msg.msgId msgs.length :: msgs.map .push) hm hpos
  obtain ⟨hunsent, haway⟩ := ho.asked msg (by simp [hm]) hpos
  set t := afterPop s i mailbox (.reset msg.msgId msgs.length :: msgs.map .push) with ht
  have hcounts : ∀ id, pending t id = pending s id ∧ away t id = away s id ∧
      unsent t id = unsent s id + if id = msg.msgId then msgs.length else 0 := by
    intro id
    have h := counts_afterPop (.reset msg.msgId msgs.length :: msgs.map .push) id hi hm
    have hpush := countP_map_push (Message.of id) msgs
    rw [countP_of hmsgs] at hpush
    simp only [List.countP_cons, hpush, (asks_eq hpos).1, (asks_eq hpos).2, Act.isReset, Act.isPush,
      Act.isNotify, decide_eq_true_eq] at h
    simp only [Bool.false_eq_true, if_false, Nat.add_zero, Nat.zero_add, ← ht] at h
    exact ⟨by omega, h.2.2, h.2.1⟩
  have hother : ∀ id, id ≠ msg.msgId → t.waitings[id]? = s.waitings[id]? ∧
      pending t id = pending s id ∧ unsent t id = unsent s id ∧ away t id = away s id := by
    intro id hid
    obtain ⟨h1, h2, h3⟩ := hcounts id
    rw [if_neg hid] at h3
    exact ⟨rfl, h1, h3, h2⟩
  obtain ⟨hp, ha, hu⟩ := hcounts msg.msgId
  rw [if_pos rfl] at hu
  constructor
  · refine hc.change msg.msgId rfl rfl hother (by omega) (by omega) ?_
    rw [if_neg (by omega)]
    exact hc.waitings_of_pending (by omega)
  · refine ho.thread (i := i) rfl (fun q hq _ => by rw [hm]; exact List.mem_cons_of_mem _ hq)
      (fun id => (hcounts id).1.le) (fun id hid => ?_) .reset (fun id num rest h => ?_) (fun q hq => ?_)
    · exact (hother id fun heq => hguard (heq ▸ hid)).2.2
    · cases h
      exact ⟨by omega, by omega⟩
    · have hq : q ∈ msgs := by simpa using hq
      exact .inr ⟨_, _, by rw [hmsgs q hq]⟩

/-- A checkpoint of one server: its waiter counts one already. -/
theorem popped_model (hc : Counted s) (ho : Ordered s) (hi : s.threads i = [])
    (hm : s.mailbox = msg :: mailbox) (hpos : 0 < msg.type) (hmsgs : ∀ q ∈ msgs, q.msgId = msg.msgId)
    (hlen : msgs.length = 1) :
    Counted (afterPop s i mailbox (msgs.map .push)) ∧ Ordered (afterPop s i mailbox (msgs.map .push)) := by
  obtain ⟨hpend, hguard⟩ := hc.pending_of_mailbox (msgs.map .push) hm hpos
  obtain ⟨hunsent, haway⟩ := ho.asked msg (by simp [hm]) hpos
  set t := afterPop s i mailbox (msgs.map .push) with ht
  have hcounts : ∀ id, pending t id + (if id = msg.msgId then 1 else 0) = pending s id ∧
      away t id = away s id ∧ unsent t id = unsent s id + if id = msg.msgId then 1 else 0 := by
    intro id
    have h := counts_afterPop (msgs.map .push) id hi hm
    have hpush := countP_map_push (Message.of id) msgs
    rw [countP_of hmsgs, hlen] at hpush
    simp only [hpush, (asks_eq hpos).1, (asks_eq hpos).2, Bool.false_eq_true, if_false, Nat.add_zero,
      ← ht, eq_comm (a := msg.msgId)] at h
    exact ⟨h.1, h.2.2, h.2.1⟩
  have hother : ∀ id, id ≠ msg.msgId → t.waitings[id]? = s.waitings[id]? ∧
      pending t id = pending s id ∧ unsent t id = unsent s id ∧ away t id = away s id := by
    intro id hid
    obtain ⟨h1, h2, h3⟩ := hcounts id
    rw [if_neg hid] at h1 h3
    exact ⟨rfl, h1, h3, h2⟩
  obtain ⟨hp, ha, hu⟩ := hcounts msg.msgId
  rw [if_pos rfl] at hp hu
  constructor
  · refine hc.change msg.msgId rfl rfl hother (by omega) (by omega) ?_
    have hwait : t.waitings[msg.msgId]? = some (some 1) := hc.waitings_of_pending (by omega)
    have hsum : unsent t msg.msgId + away t msg.msgId = 1 := by omega
    rw [if_pos (by omega), hwait, hsum]
    rfl
  · refine ho.thread (i := i) rfl (fun q hq _ => by rw [hm]; exact List.mem_cons_of_mem _ hq)
      (fun id => by have := (hcounts id).1; omega) (fun id hid => ?_) .push (fun id num rest h => ?_)
      (fun q hq => ?_)
    · exact (hother id fun heq => hguard (heq ▸ hid)).2.2
    · cases msgs <;> cases h
    · have hq : q ∈ msgs := by simpa using hq
      left
      rw [hmsgs q hq]
      omega

theorem popped_reply (hc : Counted s) (ho : Ordered s) (hi : s.threads i = [])
    (hm : s.mailbox = msg :: mailbox) (hneg : msg.type < 0)
    (hacts : acts = [.store msg, .notify msg] ∨ acts = [.notify msg]) :
    Counted (afterPop s i mailbox acts) ∧ Ordered (afterPop s i mailbox acts) := by
  have hno : ∀ x ∈ acts, x = .store msg ∨ x = .notify msg := by
    rcases hacts with rfl | rfl <;> simp
  have hcounts : ∀ id, pending (afterPop s i mailbox acts) id = pending s id ∧
      unsent (afterPop s i mailbox acts) id = unsent s id ∧
      away (afterPop s i mailbox acts) id = away s id := by
    intro id
    have h := counts_afterPop acts id hi hm
    have hreset : acts.countP (Act.isReset id) = 0 := List.countP_eq_zero.mpr fun x hx => by
      rcases hno x hx with rfl | rfl <;> simp [Act.isReset]
    have hpush : acts.countP (Act.isPush (Message.of id)) = 0 := List.countP_eq_zero.mpr fun x hx => by
      rcases hno x hx with rfl | rfl <;> simp [Act.isPush]
    have hnotify : acts.countP (Act.isNotify (Message.of id)) = if msg.answers id then 1 else 0 := by
      simp only [answers_eq hneg]
      rcases hacts with rfl | rfl <;> simp [List.countP_cons, Act.isNotify, Message.of]
    rw [hreset, hpush, hnotify, (answers_eq hneg).2] at h
    simp only [Bool.false_eq_true, if_false] at h
    exact ⟨by omega, by omega, by omega⟩
  constructor
  · refine hc.congr rfl rfl fun id => ?_
    obtain ⟨h1, h2, h3⟩ := hcounts id
    exact ⟨h1, by rw [h2, h3]⟩
  · refine ho.thread (i := i) rfl (fun q hq _ => by rw [hm]; exact List.mem_cons_of_mem _ hq)
      (fun id => (hcounts id).1.le) (fun id _ => (hcounts id).2) ?_ (fun id num rest h => ?_)
      (fun q hq => ?_)
    · rcases hacts with rfl | rfl
      · exact .store
      · exact .notify
    · rcases hacts with rfl | rfl <;> cases h
    · rcases hno _ hq with h | h <;> cases h

end Pop

/-! ### A thread does its next act -/

section Perform

variable {i : Fin kWorkerThreadNum} {x : Act β}

/-- The rest of a thread's acts, after one that moved only a request of which the waiter is set. -/
theorem Ordered.tail (ho : Ordered s) (hi : s.threads i = x :: acts)
    (hthreads : t.threads = Function.update s.threads i acts) (hmail : t.mailbox = s.mailbox)
    (hpend : ∀ id, pending t id ≤ pending s id)
    (hsame : ∀ id, pending t id ≠ 0 → unsent t id = unsent s id ∧ away t id = away s id)
    (hpush : ∀ msg, .push msg ∈ acts → pending t msg.msgId = 0) : Ordered t :=
  ho.thread hthreads (fun _ hmsg _ => hmail ▸ hmsg) hpend (fun id hid => hsame id hid.pending_pos.ne')
    (hi ▸ ho.shape i).tail (fun _ _ _ h => absurd h (hi ▸ ho.shape i).ne_reset)
    fun msg hmsg => .inl (hpush msg hmsg)

/-- What is behind an act other than a Reset belongs to requests of which the waiter is set. -/
theorem Ordered.pending_eq_zero (ho : Ordered s) (hi : s.threads i = x :: acts)
    (hx : ∀ id num, x ≠ .reset id num) (hmsg : .push msg ∈ s.threads i) : pending s msg.msgId = 0 := by
  rcases ho.behind i msg hmsg with h | ⟨num, rest, h⟩
  · exact h
  · rw [hi] at h
    cases h
    exact absurd rfl (hx _ _)

theorem performed_reset (hc : Counted s) (ho : Ordered s) (hi : s.threads i = .reset id num :: acts)
    (ht : t = { s with
      waitings := s.waitings.set id (some (num : ℤ))
      threads := Function.update s.threads i acts }) : Counted t ∧ Ordered t := by
  obtain ⟨hnum, haway⟩ := ho.armed i id num acts hi
  have hone := hc.one id
  have hcounts : ∀ id', pending t id' + (if id = id' then 1 else 0) = pending s id' ∧
      unsent t id' = unsent s id' ∧ away t id' = away s id' := by
    intro id'
    have h1 := tally_tail (p := Act.isReset id') hi
    have h2 := tally_tail (p := Act.isPush (Message.of id')) hi
    have h3 := tally_tail (p := Act.isNotify (Message.of id')) hi
    simp only [Act.isReset, Act.isPush, Act.isNotify, decide_eq_true_eq, Bool.false_eq_true, if_false,
      Nat.add_zero] at h1 h2 h3
    subst ht
    simp only [pending, unsent, away]
    exact ⟨by omega, by omega, by omega⟩
  have hset : t.waitings = s.waitings.set id (some (num : ℤ)) := by rw [ht]
  obtain ⟨h1, h2, h3⟩ := hcounts id
  rw [if_pos rfl] at h1
  have hlt : id < s.waitings.length := by
    have hw : s.waitings[id]? = some (some 1) := hc.waitings_of_pending (by omega)
    exact (List.getElem?_eq_some_iff.mp hw).1
  constructor
  · refine hc.change id (by rw [ht]) (by simp [ht]) (fun id' hid => ?_) (by omega) (by omega) ?_
    · obtain ⟨h4, h5, h6⟩ := hcounts id'
      rw [if_neg (Ne.symm hid)] at h4
      exact ⟨by rw [hset, List.getElem?_set_ne (Ne.symm hid)], h4, h5, h6⟩
    · have hsum : unsent t id + away t id = num := by omega
      rw [if_pos (by omega), hset, List.getElem?_set_self hlt, hsum]
  · refine ho.tail hi (by rw [ht]) (by rw [ht]) (fun id' => by have := (hcounts id').1; omega)
      (fun id' _ => (hcounts id').2) fun msg hmsg => ?_
    have hle := (hcounts msg.msgId).1
    rcases ho.behind i msg (by rw [hi]; exact List.mem_cons_of_mem _ hmsg) with h | ⟨num', rest, h⟩
    · omega
    · rw [hi] at h
      cases h
      omega

theorem performed_push (hc : Counted s) (ho : Ordered s) (hi : s.threads i = .push msg :: acts)
    (ht : t = { s with
      sent := s.sent ++ [msg]
      inFlight := s.inFlight ++ [msg]
      threads := Function.update s.threads i acts }) : Counted t ∧ Ordered t := by
  have hcounts : ∀ id, pending t id = pending s id ∧
      unsent t id + (if msg.msgId = id then 1 else 0) = unsent s id ∧
      away t id = away s id + if msg.msgId = id then 1 else 0 := by
    intro id
    have h1 := tally_tail (p := Act.isReset id) hi
    have h2 := tally_tail (p := Act.isPush (Message.of id)) hi
    have h3 := tally_tail (p := Act.isNotify (Message.of id)) hi
    simp only [Act.isReset, Act.isPush, Act.isNotify, Message.of, decide_eq_true_eq, Bool.false_eq_true,
      if_false, Nat.add_zero] at h1 h2 h3
    subst ht
    simp only [pending, unsent, away, List.countP_append, List.countP_singleton, Message.of,
      decide_eq_true_eq]
    exact ⟨by omega, by omega, by omega⟩
  have hzero : pending s msg.msgId = 0 :=
    ho.pending_eq_zero hi (fun _ _ h => nomatch h) (by rw [hi]; exact List.mem_cons_self)
  constructor
  · refine hc.congr (by rw [ht]) (by rw [ht]) fun id => ?_
    obtain ⟨h1, h2, h3⟩ := hcounts id
    exact ⟨h1, by omega⟩
  · refine ho.tail hi (by rw [ht]) (by rw [ht]) (fun id => (hcounts id).1.le) (fun id hid => ?_)
      fun q hq => ?_
    · obtain ⟨h1, h2, h3⟩ := hcounts id
      have hne : msg.msgId ≠ id := by
        rintro rfl
        omega
      rw [if_neg hne] at h2 h3
      exact ⟨h2, h3⟩
    · rw [(hcounts _).1]
      exact ho.pending_eq_zero hi (fun _ _ h => nomatch h) (by rw [hi]; exact List.mem_cons_of_mem _ hq)

theorem performed_store (hc : Counted s) (ho : Ordered s) (hi : s.threads i = .store msg :: acts)
    (d : D) (stored : List (Message β))
    (ht : t = { s with data := d, stored := stored, threads := Function.update s.threads i acts }) :
    Counted t ∧ Ordered t := by
  have hcounts : ∀ id, pending t id = pending s id ∧ unsent t id = unsent s id ∧ away t id = away s id := by
    intro id
    have h1 := tally_tail (p := Act.isReset id) hi
    have h2 := tally_tail (p := Act.isPush (Message.of id)) hi
    have h3 := tally_tail (p := Act.isNotify (Message.of id)) hi
    simp only [Act.isReset, Act.isPush, Act.isNotify, Bool.false_eq_true, if_false, Nat.add_zero]
      at h1 h2 h3
    subst ht
    simp only [pending, unsent, away]
    exact ⟨by omega, by omega, by omega⟩
  constructor
  · refine hc.congr (by rw [ht]) (by rw [ht]) fun id => ?_
    obtain ⟨h1, h2, h3⟩ := hcounts id
    exact ⟨h1, by rw [h2, h3]⟩
  · refine ho.tail hi (by rw [ht]) (by rw [ht]) (fun id => (hcounts id).1.le) (fun id _ => (hcounts id).2)
      fun q hq => ?_
    rw [(hcounts _).1]
    exact ho.pending_eq_zero hi (fun _ _ h => nomatch h) (by rw [hi]; exact List.mem_cons_of_mem _ hq)

theorem away_of_notify (hi : s.threads i = .notify msg :: acts) : 0 < away s msg.msgId := by
  have : 0 < tally (Act.isNotify (Message.of msg.msgId)) s.threads :=
    tally_pos_of_mem (i := i) (a := .notify msg) (by simp [hi]) (by simp [Act.isNotify, Message.of])
  unfold away
  omega

theorem performed_notify (hc : Counted s) (ho : Ordered s) (hi : s.threads i = .notify msg :: acts)
    {w : ℤ} (hw : s.waitings[msg.msgId]? = some (some w))
    (ht : t = { s with
      waitings := s.waitings.set msg.msgId (some (w - 1))
      threads := Function.update s.threads i acts }) : Counted t ∧ Ordered t := by
  have haway := away_of_notify hi
  have hzero : pending s msg.msgId = 0 := by
    by_contra hne
    have := ho.away_eq_zero hne
    omega
  have hcounts : ∀ id, pending t id = pending s id ∧ unsent t id = unsent s id ∧
      away t id + (if msg.msgId = id then 1 else 0) = away s id := by
    intro id
    have h1 := tally_tail (p := Act.isReset id) hi
    have h2 := tally_tail (p := Act.isPush (Message.of id)) hi
    have h3 := tally_tail (p := Act.isNotify (Message.of id)) hi
    simp only [Act.isReset, Act.isPush, Act.isNotify, Message.of, decide_eq_true_eq, Bool.false_eq_true,
      if_false, Nat.add_zero] at h1 h2 h3
    subst ht
    simp only [pending, unsent, away]
    exact ⟨by omega, by omega, by omega⟩
  have hset : t.waitings = s.waitings.set msg.msgId (some (w - 1)) := by rw [ht]
  have hother : ∀ id, id ≠ msg.msgId → t.waitings[id]? = s.waitings[id]? ∧
      pending t id = pending s id ∧ unsent t id = unsent s id ∧ away t id = away s id := by
    intro id hid
    obtain ⟨h4, h5, h6⟩ := hcounts id
    rw [if_neg (Ne.symm hid)] at h6
    exact ⟨by rw [hset, List.getElem?_set_ne (Ne.symm hid)], h4, h5, h6⟩
  obtain ⟨h1, h2, h3⟩ := hcounts msg.msgId
  rw [if_pos rfl] at h3
  constructor
  · refine hc.change msg.msgId (by rw [ht]) (by simp [ht]) hother (by omega) (by omega) ?_
    have hopen := hc.waitings_of_open hzero (by omega)
    rw [hw] at hopen
    have hw' : w = ((unsent s msg.msgId + away s msg.msgId : ℕ) : ℤ) := by
      simpa using hopen
    have hlt := (List.getElem?_eq_some_iff.mp hw).1
    rw [if_pos (by omega), hset, List.getElem?_set_self hlt, hw']
    congr 2
    omega
  · refine ho.tail hi (by rw [ht]) (by rw [ht]) (fun id => (hcounts id).1.le) (fun id hid => ?_)
      fun q hq => ?_
    · have hne : id ≠ msg.msgId := by
        rintro rfl
        omega
      exact (hother id hne).2.2
    · rw [(hcounts _).1]
      exact ho.pending_eq_zero hi (fun _ _ h => nomatch h) (by rw [hi]; exact List.mem_cons_of_mem _ hq)

end Perform

/-! ### Messages move -/

section Move

variable {k : ℕ} {data : List β}

theorem Ordered.frame (ho : Ordered s) (hthreads : t.threads = s.threads)
    (hmail : ∀ msg ∈ t.mailbox, 0 < msg.type → msg ∈ s.mailbox)
    (hcounts : ∀ id, pending t id = pending s id ∧ unsent t id = unsent s id ∧ away t id = away s id) :
    Ordered t := by
  refine ⟨fun i => hthreads ▸ ho.shape i, fun msg hmsg hpos => ?_, fun i id num acts hi => ?_,
    fun i msg hi => ?_⟩
  · rw [(hcounts _).2.1, (hcounts _).2.2]
    exact ho.asked msg (hmail msg hmsg hpos) hpos
  · rw [(hcounts _).2.1, (hcounts _).2.2]
    exact ho.armed i id num acts (hthreads ▸ hi)
  · rw [(hcounts _).1]
    rw [hthreads] at hi ⊢
    exact ho.behind i msg hi

theorem served (hc : Counted s) (ho : Ordered s) (hk : s.inFlight[k]? = some msg) (data : List β)
    (replied : List (Message β × Message β))
    (ht : t = { s with
      inFlight := s.inFlight.eraseIdx k
      replied := replied
      replies := s.replies ++ [{ msg.createReplyMessage with data := data }] }) :
    Counted t ∧ Ordered t := by
  have hcounts : ∀ id, pending t id = pending s id ∧ unsent t id = unsent s id ∧ away t id = away s id := by
    intro id
    have h := countP_eraseIdx (p := Message.of id) hk
    subst ht
    simp only [pending, unsent, away, List.countP_append, List.countP_singleton, Message.of,
      Message.createReplyMessage, decide_eq_true_eq] at h ⊢
    exact ⟨trivial, trivial, by omega⟩
  refine ⟨hc.congr (by rw [ht]) (by rw [ht]) fun id => ?_,
    ho.frame (by rw [ht]) (fun q hq _ => by rwa [ht] at hq) hcounts⟩
  obtain ⟨h1, h2, h3⟩ := hcounts id
  exact ⟨h1, by rw [h2, h3]⟩

theorem delivered (hc : Counted s) (ho : Ordered s) (hk : s.replies[k]? = some msg)
    (hneg : msg.type < 0)
    (ht : t = { s with mailbox := s.mailbox ++ [msg], replies := s.replies.eraseIdx k }) :
    Counted t ∧ Ordered t := by
  have hcounts : ∀ id, pending t id = pending s id ∧ unsent t id = unsent s id ∧ away t id = away s id := by
    intro id
    have h := countP_eraseIdx (p := Message.of id) hk
    subst ht
    simp only [pending, unsent, away, List.countP_append, List.countP_singleton, answers_eq hneg,
      Message.of, decide_eq_true_eq, Bool.false_eq_true, if_false] at h ⊢
    exact ⟨by omega, trivial, by omega⟩
  refine ⟨hc.congr (by rw [ht]) (by rw [ht]) fun id => ?_, ho.frame (by rw [ht]) (fun q hq hpos => ?_) hcounts⟩
  · obtain ⟨h1, h2, h3⟩ := hcounts id
    exact ⟨h1, by rw [h2, h3]⟩
  · rw [ht, List.mem_append, List.mem_singleton] at hq
    rcases hq with hq | rfl
    · exact hq
    · exact absurd hpos hneg.not_gt

theorem issued (hc : Counted s) (ho : Ordered s) (hpos : 0 < msg.type)
    (hid : msg.msgId = s.waitings.length) {calls : List (Message β)}
    (ht : t = { s with
      calls := calls
      waitings := s.waitings ++ [some 1]
      mailbox := s.mailbox ++ [msg] }) : Counted t ∧ Ordered t := by
  have hcounts : ∀ id, pending t id = pending s id + (if msg.msgId = id then 1 else 0) ∧
      unsent t id = unsent s id ∧ away t id = away s id := by
    intro id
    subst ht
    simp only [pending, unsent, away, List.countP_append, List.countP_singleton, asks_eq hpos,
      Bool.false_eq_true, if_false]
    exact ⟨by omega, trivial, by omega⟩
  obtain ⟨hp0, hu0, ha0, hphase⟩ := hc.new msg.msgId hid.ge
  have hphases : t.phases = s.phases := by rw [ht]
  have hlen : t.waitings.length = s.waitings.length + 1 := by simp [ht]
  constructor
  · refine ⟨fun id hge => ?_, fun id => ?_, fun id hdone => ?_, fun id hlt => ?_⟩
    · obtain ⟨h1, h2, h3⟩ := hcounts id
      obtain ⟨h4, h5, h6, h7⟩ := hc.new id (by omega)
      rw [if_neg (by omega)] at h1
      exact ⟨by omega, by omega, by omega, by rw [hphases, h7]⟩
    · have h1 := (hcounts id).1
      have := hc.one id
      split at h1
      · rename_i heq
        rw [← heq] at h1 ⊢
        omega
      · omega
    · obtain ⟨h1, h2, h3⟩ := hcounts id
      rw [hphases] at hdone
      obtain ⟨h4, h5, h6⟩ := hc.done id hdone
      have hne : msg.msgId ≠ id := by
        rintro rfl
        rw [hphase] at hdone
        rcases hdone with h | h <;> cases h
      rw [if_neg hne] at h1
      exact ⟨by omega, by omega, by omega⟩
    · obtain ⟨h1, h2, h3⟩ := hcounts id
      by_cases heq : msg.msgId = id
      · subst heq
        rw [if_pos rfl] at h1
        have hret : t.phases msg.msgId ≠ .returned := by
          rw [hphases, hphase]
          exact fun h => nomatch h
        rw [waiter, if_neg hret, if_neg (by omega), ht, hid]
        simp
      · rw [if_neg heq] at h1
        have hlt' : id < s.waitings.length := by omega
        rw [waiter, hphases, h1, h2, h3, ht]
        simp only [List.getElem?_append_left hlt']
        exact hc.waiting id hlt'
  · have hthreads : t.threads = s.threads := by rw [ht]
    refine ⟨fun i => hthreads ▸ ho.shape i, fun q hq hqpos => ?_, fun i id num acts hi => ?_,
      fun i q hi => ?_⟩
    · rw [(hcounts _).2.1, (hcounts _).2.2]
      rw [ht, List.mem_append, List.mem_singleton] at hq
      rcases hq with hq | rfl
      · exact ho.asked q hq hqpos
      · exact ⟨hu0, ha0⟩
    · rw [(hcounts _).2.1, (hcounts _).2.2]
      exact ho.armed i id num acts (hthreads ▸ hi)
    · rw [hthreads] at hi ⊢
      have hne : msg.msgId ≠ q.msgId := by
        intro heq
        have : 0 < unsent s q.msgId :=
          tally_pos_of_mem (i := i) (a := .push q) hi (by simp [Act.isPush, Message.of])
        rw [← heq] at this
        omega
      rw [(hcounts _).1, if_neg hne]
      exact ho.behind i q hi

/-- The client is in another phase of its Wait. -/
theorem phased {id : ℕ} {phase : Phase} (hc : Counted s) (ho : Ordered s) (hid : id < s.waitings.length)
    (hdone : phase = .woken ∨ phase = .returned → pending s id = 0 ∧ unsent s id = 0 ∧ away s id = 0)
    (hold : s.phases id ≠ .returned)
    {waitings : List (Option ℤ)} (hlen : waitings.length = s.waitings.length)
    (hother : ∀ id', id' ≠ id → waitings[id']? = s.waitings[id']?)
    (hself : waitings[id]? = if phase = .returned then some none else s.waitings[id]?)
    (ht : t = { s with waitings := waitings, phases := Function.update s.phases id phase }) :
    Counted t ∧ Ordered t := by
  have hcounts : ∀ id, pending t id = pending s id ∧ unsent t id = unsent s id ∧ away t id = away s id := by
    intro id
    subst ht
    exact ⟨rfl, rfl, rfl⟩
  have hne : ∀ id', id' ≠ id → t.phases id' = s.phases id' := by
    intro id' hid'
    rw [ht]
    exact Function.update_of_ne hid' _ _
  have heq : t.phases id = phase := by
    rw [ht]
    exact Function.update_self ..
  have hwait : t.waitings = waitings := by rw [ht]
  refine ⟨⟨fun id' hge => ?_, fun id' => ?_, fun id' h => ?_, fun id' hlt => ?_⟩,
    ho.frame (by rw [ht]) (fun q hq _ => by rwa [ht] at hq) hcounts⟩
  · rw [hwait, hlen] at hge
    rw [(hcounts _).1, (hcounts _).2.1, (hcounts _).2.2, hne id' (by omega)]
    exact hc.new id' hge
  · rw [(hcounts _).1]
    exact hc.one id'
  · rw [(hcounts _).1, (hcounts _).2.1, (hcounts _).2.2]
    by_cases hid' : id' = id
    · subst hid'
      exact hdone (heq ▸ h)
    · exact hc.done id' (hne id' hid' ▸ h)
  · rw [hwait, hlen] at hlt
    have hold' := hc.waiting id' hlt
    rw [waiter] at hold' ⊢
    rw [hwait, (hcounts _).1, (hcounts _).2.1, (hcounts _).2.2]
    by_cases hid' : id' = id
    · subst hid'
      rw [if_neg hold] at hold'
      rw [heq, hself]
      split
      · rfl
      · exact hold'
    · rw [hother id' hid', hne id' hid']
      exact hold'

end Move

/-! ### Runs -/

/-- The waiters and messages do not depend on the data. -/
theorem Inv.with_data (h : Inv node types s popped) (d : D) : Inv node types { s with data := d } popped :=
  { h with
    counted := ⟨h.counted.new, h.counted.one, h.counted.done, h.counted.waiting⟩
    ordered := ⟨h.ordered.shape, h.ordered.asked, h.ordered.armed, h.ordered.behind⟩ }

theorem Inv.crashed (h : Inv node types s popped) (e : Option Crash) :
    Inv node types { s with crash := e } popped :=
  ⟨h.calls, h.length, h.msgId, h.allowed, h.handled, h.request, h.reply, h.conserved, h.settled, h.past,
    ⟨h.counted.new, h.counted.one, h.counted.done, h.counted.waiting⟩,
    ⟨h.ordered.shape, h.ordered.asked, h.ordered.armed, h.ordered.behind⟩⟩

theorem Inv.phased {id : ℕ} {phase : Phase} {waitings : List (Option ℤ)} (h : Inv node types s popped)
    (hlen : waitings.length = s.waitings.length)
    (hc : Counted { s with waitings := waitings, phases := Function.update s.phases id phase } ∧
      Ordered { s with waitings := waitings, phases := Function.update s.phases id phase }) :
    Inv node types { s with waitings := waitings, phases := Function.update s.phases id phase } popped :=
  ⟨h.calls, h.length.trans hlen.symm, h.msgId, h.allowed, h.handled, h.request, h.reply, h.conserved,
    h.settled, fun q hq => (h.past q hq).trans_eq hlen.symm, hc.1, hc.2⟩

theorem Inv.issued {c : Call β} (h : Inv node types s popped) (hc : c.type ∈ types) :
    Inv node types { s with
      calls := s.calls ++ [c.message node.rank s.waitings.length]
      waitings := s.waitings ++ [some 1]
      mailbox := s.mailbox ++ [c.message node.rank s.waitings.length] } popped := by
  have hpos : 0 < (c.message node.rank s.waitings.length).type := c.type_pos
  obtain ⟨hcounted, hordered⟩ := Worker.issued h.counted h.ordered hpos rfl rfl
  refine ⟨?_, by simp [h.length], fun id msg hget => ?_, fun msg hmsg => ?_, h.handled, h.request, h.reply,
    h.conserved, fun q hq => ?_, fun q hq => (h.past q hq).trans_le (by simp), hcounted, hordered⟩
  · simp [h.calls, hpos, List.filter_append]
  · rcases lt_or_ge id s.calls.length with hlt | hge
    · rw [List.getElem?_append_left hlt] at hget
      exact h.msgId id msg hget
    · rw [List.getElem?_append_right hge, List.getElem?_singleton] at hget
      split at hget
      · cases hget
        have hlen := h.length
        change s.waitings.length = id
        omega
      · cases hget
  · rcases List.mem_append.mp hmsg with hmsg | hmsg
    · exact h.allowed msg hmsg
    · rw [List.mem_singleton] at hmsg
      subst hmsg
      exact hc
  · obtain ⟨h1, h2⟩ := h.settled q hq
    exact ⟨h1, fun ht => (h2 ht).imp_right (Or.imp_right (Or.imp_left (List.mem_append_left _)))⟩

/-- The parts of a request, each with the id of the request and asking a server. -/
theorem mem_requests {q : Message β} (h : handle node msg = .ok acts) (hq : .push q ∈ acts) :
    q.msgId = msg.msgId ∧ 0 < q.type := by
  rcases handle_cases h with ⟨htype, num, out, -, rfl⟩ | ⟨htype, file, data, -, rfl⟩ | ⟨-, ⟨-, rfl⟩ | ⟨-, rfl⟩⟩
  · simp only [List.mem_cons, List.mem_map, reduceCtorEq, false_or] at hq
    obtain ⟨q', ⟨it, -, rfl⟩, hq⟩ := hq
    cases hq
    exact ⟨rfl, by rcases htype with h | h <;> simp [newMsg, h, MsgType.Request_Get, MsgType.Request_Add]⟩
  · simp only [List.mem_map] at hq
    obtain ⟨q', ⟨i, -, rfl⟩, hq⟩ := hq
    cases hq
    exact ⟨rfl, by rcases htype with h | h <;> simp [newMsg, h, MsgType.Load_Model, MsgType.Store_Model]⟩
  · simp at hq
  · simp at hq

/-- Only requests have parts. -/
theorem type_pos_of_push {q : Message β} (h : handle node msg = .ok acts) (hq : .push q ∈ acts) : 0 < msg.type := by
  rcases handle_cases h with ⟨htype, -⟩ | ⟨htype, -⟩ | ⟨-, ⟨-, rfl⟩ | ⟨-, rfl⟩⟩
  · rcases htype with h | h <;> simp [h, MsgType.Request_Get, MsgType.Request_Add]
  · rcases htype with h | h <;> simp [h, MsgType.Load_Model, MsgType.Store_Model]
  · simp at hq
  · simp at hq

theorem type_pos_of_handle (h : handle node msg = .ok acts) :
    0 < msg.type ∨ msg.type < 0 := by
  rcases handle_cases h with ⟨htype, -⟩ | ⟨htype, -⟩ | ⟨htype, -⟩
  · rcases htype with h | h <;> simp [h, MsgType.Request_Get, MsgType.Request_Add]
  · rcases htype with h | h <;> simp [h, MsgType.Load_Model, MsgType.Store_Model]
  · exact .inr htype

section Pop

variable {i : Fin kWorkerThreadNum} {mailbox : List (Message β)}

/-- What a popped request leaves of the log: its parts are to be sent. -/
theorem conserved_pop (h : Inv node types s popped) (hi : s.threads i = [])
    (ha : handle node msg = .ok acts) (p : Message β → Bool) :
    tally (Act.isPush p) (Function.update s.threads i acts) + s.inFlight.countP p +
      (s.replied.map Prod.fst).countP p =
    (popped.flatMap (requests node)).countP p + (requests node msg).countP p := by
  have := h.conserved p
  rw [countP_requests ha, tally_fill hi]
  omega

theorem requests_pop (h : Inv node types s popped) (hi : s.threads i = [])
    (ha : handle node msg = .ok acts) :
    (∀ j q, .push q ∈ Function.update s.threads i acts j → 0 < q.type) ∧ ∀ q ∈ s.inFlight, 0 < q.type := by
  refine ⟨fun j q hq => ?_, h.request.2⟩
  by_cases hji : j = i
  · subst hji
    rw [Function.update_self] at hq
    exact (mem_requests ha hq).2
  · rw [Function.update_of_ne hji] at hq
    exact h.request.1 j q hq

/-- A reply that is popped is in the hands of the thread. -/
theorem settled_pop (h : Inv node types s popped) (hi : s.threads i = [])
    (hm : s.mailbox = msg :: mailbox) (hstore : msg.type = .Reply_Get → .store msg ∈ acts) :
    ∀ q ∈ s.replied, q.2 = { q.1.createReplyMessage with data := q.2.data } ∧
      (q.2.type = .Reply_Get → q.2 ∈ s.stored ∨ q.2 ∈ s.replies ∨ q.2 ∈ mailbox ∨
        ∃ j, .store q.2 ∈ Function.update s.threads i acts j) := by
  intro q hq
  obtain ⟨h1, h2⟩ := h.settled q hq
  refine ⟨h1, fun ht => (h2 ht).imp_right (Or.imp_right ?_)⟩
  rintro (hmail | ⟨j, hj⟩)
  · rw [hm, List.mem_cons] at hmail
    rcases hmail with heq | hmail
    · exact .inr ⟨i, by rw [Function.update_self, heq]; exact hstore (heq ▸ ht)⟩
    · exact .inl hmail
  · have hji : j ≠ i := by
      rintro rfl
      rw [hi] at hj
      cases hj
    exact .inr ⟨j, by rwa [Function.update_of_ne hji]⟩

theorem inv_pop (hn : ∀ type ∈ types, type = .Request_Get ∨ type = .Request_Add ∨ node.numServers = 1)
    (h : Inv node types s popped) (hi : s.threads i = []) (hm : s.mailbox = msg :: mailbox)
    (ha : handle node msg = .ok acts) : ∃ popped', Inv node types (afterPop s i mailbox acts) popped' := by
  rcases type_pos_of_handle ha with hpos | hneg
  · have hcalls : s.calls = (popped ++ [msg]) ++ mailbox.filter fun msg => 0 < msg.type := by
      rw [h.calls, hm, List.filter_cons_of_pos (by simpa using hpos), List.append_assoc,
        List.singleton_append]
    have hcount : Counted (afterPop s i mailbox acts) ∧ Ordered (afterPop s i mailbox acts) := by
      rcases handle_cases ha with ⟨-, num, out, hp, rfl⟩ | ⟨htype, file, data, -, rfl⟩ | ⟨hneg, -⟩
      · have hnum := node.table.num_eq hp
        have := popped_request (out.map fun it => newMsg node msg.type msg it.1 it.2) h.counted h.ordered
          hi hm hpos (fun q hq => (mem_requests ha (by simpa using hq)).1)
        rwa [List.length_map, ← hnum] at this
      · refine popped_model h.counted h.ordered hi hm hpos
          (fun q hq => (mem_requests ha (by simpa using hq)).1) ?_
        have hallowed := h.allowed msg (by rw [hcalls]; simp)
        rw [List.length_map, List.length_range]
        rcases hn _ hallowed with hreq | hreq | hone
        · rcases htype with h | h <;> cases hreq.symm.trans h
        · rcases htype with h | h <;> cases hreq.symm.trans h
        · exact hone
      · exact absurd hpos hneg.not_gt
    refine ⟨popped ++ [msg], hcalls, h.length, h.msgId, h.allowed, fun q hq => ?_, requests_pop h hi ha,
      h.reply, fun p => ?_, settled_pop h hi hm fun hget => ?_, h.past, hcount.1, hcount.2⟩
    · rcases List.mem_append.mp hq with hq | hq
      · exact h.handled q hq
      · rw [List.mem_singleton] at hq
        exact ⟨acts, hq ▸ ha⟩
    · rw [List.flatMap_append, List.countP_append, List.flatMap_singleton]
      exact conserved_pop h hi ha p
    · simp [hget, MsgType.Reply_Get] at hpos
  · have hacts : msg.type = .Reply_Get ∧ acts = [.store msg, .notify msg] ∨
        msg.type ≠ .Reply_Get ∧ acts = [.notify msg] := by
      rcases handle_cases ha with ⟨htype, -⟩ | ⟨htype, -⟩ | ⟨-, hacts⟩
      · rcases htype with h | h <;> simp [h, MsgType.Request_Get, MsgType.Request_Add] at hneg
      · rcases htype with h | h <;> simp [h, MsgType.Load_Model, MsgType.Store_Model] at hneg
      · exact hacts
    have hcount := popped_reply h.counted h.ordered hi hm hneg (hacts.imp And.right And.right)
    have hnone : ∀ p, (requests node msg).countP p = 0 := by
      intro p
      rw [countP_requests ha]
      rcases hacts with ⟨-, rfl⟩ | ⟨-, rfl⟩ <;> simp [Act.isPush]
    refine ⟨popped, ?_, h.length, h.msgId, h.allowed, h.handled, requests_pop h hi ha, h.reply, fun p => ?_,
      settled_pop h hi hm fun hget => ?_, h.past, hcount.1, hcount.2⟩
    · have hcalls := h.calls
      rwa [hm, List.filter_cons_of_neg (by simpa using hneg.le)] at hcalls
    · have := conserved_pop h hi ha p
      rwa [hnone, Nat.add_zero] at this
    · rcases hacts with ⟨-, rfl⟩ | ⟨hne, -⟩
      · exact List.mem_cons_self
      · exact absurd hget hne

end Pop

section Act

variable {i : Fin kWorkerThreadNum} {x : Act β}

/-- No thread meets a null waiter. -/
theorem perform_ne_waiter (h : Inv node types s popped) (hi : s.threads i = x :: acts) :
    perform node s x ≠ .error .waiter := by
  cases x with
  | reset id num =>
    have hpend : 0 < tally (Act.isReset id) s.threads :=
      tally_pos_of_mem (i := i) (a := .reset id num) (by simp [hi]) (by simp [Act.isReset])
    have hw : s.waitings[id]? = some (some 1) := h.counted.waitings_of_pending (by rw [pending]; omega)
    simp [perform, hw]
  | push msg => simp [perform]
  | store msg =>
    rw [perform]
    split <;> simp
  | notify msg =>
    have haway := away_of_notify hi
    have hzero : pending s msg.msgId = 0 := by
      by_contra hne
      have := h.ordered.away_eq_zero hne
      omega
    have hw := h.counted.waitings_of_open hzero (by omega)
    simp [perform, hw]

theorem perform_frame {r : WorkerState β D} (hr : perform node s x = .ok r) :
    r.calls = s.calls ∧ r.replied = s.replied ∧ r.crash = s.crash := by
  cases x <;> rw [perform] at hr
  · split at hr <;> cases hr
    exact ⟨rfl, rfl, rfl⟩
  · cases hr
    exact ⟨rfl, rfl, rfl⟩
  · split at hr <;> cases hr
    exact ⟨rfl, rfl, rfl⟩
  · split at hr <;> cases hr
    exact ⟨rfl, rfl, rfl⟩

theorem settled_act (h : Inv node types s popped) (hi : s.threads i = x :: acts)
    (stored : List (Message β)) (hstored : ∀ q ∈ s.stored, q ∈ stored)
    (hx : ∀ q, x = .store q → q ∈ stored) :
    ∀ q ∈ s.replied, q.2 = { q.1.createReplyMessage with data := q.2.data } ∧
      (q.2.type = .Reply_Get → q.2 ∈ stored ∨ q.2 ∈ s.replies ∨ q.2 ∈ s.mailbox ∨
        ∃ j, .store q.2 ∈ Function.update s.threads i acts j) := by
  intro q hq
  obtain ⟨h1, h2⟩ := h.settled q hq
  refine ⟨h1, fun ht => ?_⟩
  rcases h2 ht with hs | hr | hm | ⟨j, hj⟩
  · exact .inl (hstored _ hs)
  · exact .inr (.inl hr)
  · exact .inr (.inr (.inl hm))
  · by_cases hji : j = i
    · subst hji
      rw [hi, List.mem_cons] at hj
      rcases hj with heq | hj
      · exact .inl (hx _ heq.symm)
      · exact .inr (.inr (.inr ⟨j, by rwa [Function.update_self]⟩))
    · exact .inr (.inr (.inr ⟨j, by rwa [Function.update_of_ne hji]⟩))

theorem requests_act (h : Inv node types s popped) (hi : s.threads i = x :: acts) :
    ∀ j q, .push q ∈ Function.update s.threads i acts j → 0 < q.type := by
  intro j q hq
  by_cases hji : j = i
  · subst hji
    rw [Function.update_self] at hq
    exact h.request.1 j q (hi ▸ List.mem_cons_of_mem _ hq)
  · rw [Function.update_of_ne hji] at hq
    exact h.request.1 j q hq

/-- A reply that a thread is to store belongs to a request that was issued. -/
theorem Inv.lt_of_store (h : Inv node types s popped) (hmsg : .store msg ∈ s.threads i) :
    msg.msgId < s.waitings.length := by
  have hpos : 0 < tally (Act.isNotify (Message.of msg.msgId)) s.threads :=
    tally_pos_of_mem ((h.ordered.shape i).notify_mem hmsg) (by simp [Act.isNotify, Message.of])
  by_contra hge
  obtain ⟨-, -, haway, -⟩ := h.counted.new msg.msgId (not_lt.mp hge)
  rw [away] at haway
  omega

theorem inv_act {r : WorkerState β D} (h : Inv node types s popped) (hi : s.threads i = x :: acts)
    (hr : perform node s x = .ok r) :
    Inv node types { r with threads := Function.update r.threads i acts } popped := by
  have hsettled := settled_act h hi s.stored (fun _ hq => hq)
  have hrequests := requests_act h hi
  cases x with
  | reset id num =>
    rw [perform] at hr
    split at hr
    · cases hr
      have hcount := performed_reset h.counted h.ordered hi rfl
      refine ⟨h.calls, by simp [h.length], h.msgId, h.allowed, h.handled, ⟨hrequests, h.request.2⟩,
        h.reply, fun p => ?_, hsettled (fun _ heq => nomatch heq), by simpa using h.past, hcount.1, hcount.2⟩
      have htail := tally_tail (p := Act.isPush p) hi
      simp only [Act.isPush, Bool.false_eq_true, if_false, Nat.add_zero] at htail
      rw [htail]
      exact h.conserved p
    · cases hr
  | push msg =>
    cases hr
    have hcount := performed_push h.counted h.ordered hi rfl
    refine ⟨h.calls, h.length, h.msgId, h.allowed, h.handled, ⟨hrequests, fun q hq => ?_⟩,
      h.reply, fun p => ?_, hsettled (fun _ heq => nomatch heq), h.past, hcount.1, hcount.2⟩
    · rcases List.mem_append.mp hq with hq | hq
      · exact h.request.2 q hq
      · rw [List.mem_singleton] at hq
        exact h.request.1 i q (by rw [hi, hq]; exact List.mem_cons_self)
    · have htail := tally_tail (p := Act.isPush p) hi
      have := h.conserved p
      have hself : Act.isPush p (.push msg) = p msg := rfl
      rw [hself] at htail
      dsimp only
      rw [List.countP_append, List.countP_singleton]
      omega
  | store msg =>
    rw [perform] at hr
    split at hr
    · rename_i d _
      cases hr
      have hcount := performed_store h.counted h.ordered hi d (s.stored ++ [msg]) rfl
      refine ⟨h.calls, h.length, h.msgId, h.allowed, h.handled, ⟨hrequests, h.request.2⟩, h.reply,
        fun p => ?_, settled_act h hi _ (fun q hq => List.mem_append_left _ hq) (fun q heq => ?_),
        fun q hq => ?_, hcount.1, hcount.2⟩
      · have htail := tally_tail (p := Act.isPush p) hi
        simp only [Act.isPush, Bool.false_eq_true, if_false, Nat.add_zero] at htail
        rw [htail]
        exact h.conserved p
      · cases heq
        exact List.mem_append_right _ (List.mem_singleton_self msg)
      · rcases List.mem_append.mp hq with hq | hq
        · exact h.past q hq
        · rw [List.mem_singleton] at hq
          subst hq
          exact h.lt_of_store (by rw [hi]; exact List.mem_cons_self)
    · cases hr
  | notify msg =>
    rw [perform] at hr
    split at hr
    · rename_i hw
      cases hr
      have hcount := performed_notify h.counted h.ordered hi hw rfl
      refine ⟨h.calls, by simp [h.length], h.msgId, h.allowed, h.handled, ⟨hrequests, h.request.2⟩,
        h.reply, fun p => ?_, hsettled (fun _ heq => nomatch heq), by simpa using h.past, hcount.1, hcount.2⟩
      have htail := tally_tail (p := Act.isPush p) hi
      simp only [Act.isPush, Bool.false_eq_true, if_false, Nat.add_zero] at htail
      rw [htail]
      exact h.conserved p
    · cases hr

end Act

section Network

variable {k : ℕ} {data : List β}

theorem inv_serve (h : Inv node types s popped) (hk : s.inFlight[k]? = some msg) :
    Inv node types { s with
      inFlight := s.inFlight.eraseIdx k
      replied := s.replied ++ [(msg, { msg.createReplyMessage with data := data })]
      replies := s.replies ++ [{ msg.createReplyMessage with data := data }] } popped := by
  have hcount := served h.counted h.ordered hk data
    (s.replied ++ [(msg, { msg.createReplyMessage with data := data })]) rfl
  refine ⟨h.calls, h.length, h.msgId, h.allowed, h.handled,
    ⟨h.request.1, fun q hq => h.request.2 q (List.mem_of_mem_eraseIdx hq)⟩, fun q hq => ?_, fun p => ?_,
    fun q hq => ?_, h.past, hcount.1, hcount.2⟩
  · rcases List.mem_append.mp hq with hq | hq
    · exact h.reply q hq
    · rw [List.mem_singleton] at hq
      subst hq
      have hpos := h.request.2 msg (List.mem_of_getElem? hk)
      exact neg_neg_of_pos hpos
  · have herase := countP_eraseIdx (p := p) hk
    have := h.conserved p
    simp only [List.map_append, List.map_cons, List.map_nil, List.countP_append, List.countP_singleton]
    omega
  · rcases List.mem_append.mp hq with hq | hq
    · obtain ⟨h1, h2⟩ := h.settled q hq
      exact ⟨h1, fun ht => (h2 ht).imp_right (Or.imp_left (List.mem_append_left _))⟩
    · rw [List.mem_singleton] at hq
      subst hq
      exact ⟨rfl, fun _ => .inr (.inl (List.mem_append_right _ (List.mem_singleton_self _)))⟩

theorem inv_deliver (h : Inv node types s popped) (hk : s.replies[k]? = some msg) :
    Inv node types { s with mailbox := s.mailbox ++ [msg], replies := s.replies.eraseIdx k } popped := by
  have hneg := h.reply msg (List.mem_of_getElem? hk)
  have hcount := delivered h.counted h.ordered hk hneg rfl
  refine ⟨?_, h.length, h.msgId, h.allowed, h.handled, h.request,
    fun q hq => h.reply q (List.mem_of_mem_eraseIdx hq), h.conserved, fun q hq => ?_, h.past, hcount.1, hcount.2⟩
  · rw [List.filter_append, List.filter_cons_of_neg (by simpa using hneg.le), List.filter_nil,
      List.append_nil]
    exact h.calls
  · obtain ⟨h1, h2⟩ := h.settled q hq
    refine ⟨h1, fun ht => ?_⟩
    rcases h2 ht with hs | hr | hm | hi
    · exact .inl hs
    · rw [← (perm_eraseIdx hk).mem_iff, List.mem_cons] at hr
      rcases hr with heq | hr
      · exact .inr (.inr (.inl (heq ▸ List.mem_append_right _ (List.mem_singleton_self _))))
      · exact .inr (.inl hr)
    · exact .inr (.inr (.inl (List.mem_append_left _ hm)))
    · exact .inr (.inr (.inr hi))

end Network

theorem phase_lt (h : Counted s) (hp : s.phases id ≠ .idle) : id < s.waitings.length := by
  by_contra hge
  exact hp (h.new id (not_lt.mp hge)).2.2.2

theorem waiter_some {w : Option ℤ} (h : Counted s) (hp : s.phases id ≠ .returned)
    (hw : s.waitings[id]? = some w) : ∃ num, w = some num ∧ (num ≤ 0 →
      pending s id = 0 ∧ unsent s id = 0 ∧ away s id = 0) := by
  have hlt := (List.getElem?_eq_some_iff.mp hw).1
  have heq := h.waiting id hlt
  rw [hw, waiter, if_neg hp] at heq
  split at heq
  · cases heq
    exact ⟨_, rfl, fun hle => by omega⟩
  · cases heq
    exact ⟨_, rfl, fun hle => by omega⟩

/-- Every move keeps the invariant, and none meets a null waiter. -/
theorem inv_step (hn : ∀ type ∈ types, type = .Request_Get ∨ type = .Request_Add ∨ node.numServers = 1)
    (h : Inv node types s popped) (hs : step node types s a = some t) :
    (∃ popped', Inv node types t popped') ∧ t.crash ≠ some .waiter := by
  obtain ⟨hcrash, ho⟩ := step_outcome hs
  have hno : s.crash ≠ some .waiter := by simp [hcrash]
  cases ho with
  | issue hc => exact ⟨⟨_, h.issued hc⟩, hno⟩
  | @wait id num hp hw =>
    have hlt := (List.getElem?_eq_some_iff.mp hw).1
    refine ⟨⟨_, h.phased rfl (phased h.counted h.ordered hlt ?_ (by simp [hp]) rfl (fun _ _ => rfl) rfl rfl)⟩,
      hno⟩
    rintro (h | h) <;> cases h
  | @waitNull id hp hw =>
    obtain ⟨num, hnum, -⟩ := waiter_some h.counted (by simp [hp]) hw
    cases hnum
  | @wake id num hp hw hle =>
    have hlt := (List.getElem?_eq_some_iff.mp hw).1
    obtain ⟨_, hnum, hdone⟩ := waiter_some h.counted (by simp [hp]) hw
    cases hnum
    exact ⟨⟨_, h.phased rfl (phased h.counted h.ordered hlt (fun _ => hdone hle) (by simp [hp]) rfl
      (fun _ _ => rfl) rfl rfl)⟩, hno⟩
  | @finish id hp =>
    have hlt : id < s.waitings.length := phase_lt h.counted (by simp [hp])
    refine ⟨⟨_, h.phased (by simp) (phased h.counted h.ordered hlt (fun _ => h.counted.done id (.inl hp))
      (by simp [hp]) (by simp) (fun id' hid => List.getElem?_set_ne (Ne.symm hid)) ?_ rfl)⟩, hno⟩
    rw [if_pos rfl, List.getElem?_set_self hlt]
  | pop hi hm ha => exact ⟨inv_pop hn h hi hm ha, hno⟩
  | popStop => exact ⟨⟨_, h.crashed _⟩, by simp⟩
  | act hi hr =>
    refine ⟨⟨_, inv_act h hi hr⟩, ?_⟩
    rw [(perform_frame hr).2.2]
    exact hno
  | actStop hi hr =>
    refine ⟨⟨_, h.crashed _⟩, fun heq => perform_ne_waiter h hi ?_⟩
    cases heq
    exact hr
  | serve hk => exact ⟨⟨_, inv_serve h hk⟩, hno⟩
  | deliver hk => exact ⟨⟨_, inv_deliver h hk⟩, hno⟩

theorem reachable_inv (hn : ∀ type ∈ types, type = .Request_Get ∨ type = .Request_Add ∨ node.numServers = 1)
    (h : Reachable (step node types) (init d) s) :
    (∃ popped, Inv node types s popped) ∧ s.crash ≠ some .waiter :=
  h.invariant (P := fun s => (∃ popped, Inv node types s popped) ∧ s.crash ≠ some .waiter)
    ⟨⟨[], inv_init⟩, fun h => nomatch h⟩ fun _ _ _ hx hy => inv_step hn hx.1.choose_spec hy

/-- What the servers are sent, and what they answered, is part of a call. -/
theorem exists_call {q : Message β} (h : Inv node types s popped) (hq : q ∈ s.inFlight ∨ q ∈ s.replied.map Prod.fst) :
    ∃ msg acts, s.calls[q.msgId]? = some msg ∧ handle node msg = .ok acts ∧ .push q ∈ acts := by
  classical
  have hcount := h.conserved fun m => decide (m = q)
  have hpos : 0 < s.inFlight.countP (fun m => decide (m = q)) +
      (s.replied.map Prod.fst).countP fun m => decide (m = q) := by
    rcases hq with hq | hq
    · exact Nat.add_pos_left (List.countP_pos_iff.mpr ⟨q, hq, by simp⟩) _
    · exact Nat.add_pos_right _ (List.countP_pos_iff.mpr ⟨q, hq, by simp⟩)
  obtain ⟨m, hm, heq⟩ : ∃ m ∈ popped.flatMap (requests node), decide (m = q) = true :=
    List.countP_pos_iff.mp (by omega)
  simp only [decide_eq_true_eq] at heq
  subst heq
  obtain ⟨msg, hmsg, hm⟩ := List.mem_flatMap.mp hm
  obtain ⟨acts, ha, hpush⟩ := push_of_requests hm
  have hcall : msg ∈ s.calls := by
    rw [h.calls]
    exact List.mem_append_left _ hmsg
  obtain ⟨k, hk⟩ := List.mem_iff_getElem?.mp hcall
  have hid : m.msgId = k := (mem_requests ha hpush).1.trans (h.msgId k msg hk)
  exact ⟨msg, acts, hid ▸ hk, ha, hpush⟩

/-- A request of which nothing is unsent or away has all its parts answered. -/
theorem replied_of_done {q : Message β} (h : Inv node types s popped) (hmem : msg ∈ popped)
    (ha : handle node msg = .ok acts) (hq : .push q ∈ acts) (hunsent : unsent s q.msgId = 0)
    (haway : away s q.msgId = 0) : ∃ reply, (q, reply) ∈ s.replied := by
  classical
  have hpart : q ∈ requests node msg := by
    rw [requests, ha]
    exact List.mem_filterMap.mpr ⟨.push q, hq, rfl⟩
  have hcount := h.conserved fun m => decide (m = q)
  have hpos : 0 < (popped.flatMap (requests node)).countP fun m => decide (m = q) :=
    List.countP_pos_iff.mpr ⟨q, List.mem_flatMap.mpr ⟨msg, hmem, hpart⟩, by simp⟩
  have hsend : tally (Act.isPush fun m => decide (m = q)) s.threads = 0 := by
    refine tally_eq_zero.mpr fun i x hx hpush => ?_
    cases x with
    | push m =>
      simp only [Act.isPush, decide_eq_true_eq] at hpush
      subst hpush
      exact tally_eq_zero.mp hunsent i _ hx (by simp [Act.isPush, Message.of])
    | reset | store | notify => cases hpush
  have hfly : s.inFlight.countP (fun m => decide (m = q)) = 0 := by
    refine List.countP_eq_zero.mpr fun m hm heq => ?_
    simp only [decide_eq_true_eq] at heq
    subst heq
    have : 0 < s.inFlight.countP (Message.of m.msgId) :=
      List.countP_pos_iff.mpr ⟨m, hm, by simp [Message.of]⟩
    rw [away] at haway
    omega
  obtain ⟨m, hm, heq⟩ : ∃ m ∈ s.replied.map Prod.fst, decide (m = q) = true :=
    List.countP_pos_iff.mp (by omega)
  simp only [decide_eq_true_eq] at heq
  obtain ⟨⟨_, reply⟩, hreply, rfl⟩ := List.mem_map.mp hm
  exact ⟨reply, heq ▸ hreply⟩

/-- A reply of which the request has nothing away is stored. -/
theorem stored_of_done {q reply : Message β} (h : Inv node types s popped) (hreply : (q, reply) ∈ s.replied)
    (htype : q.type = .Request_Get) (haway : away s q.msgId = 0) : reply ∈ s.stored := by
  obtain ⟨heq, hplace⟩ := h.settled _ hreply
  dsimp only at heq hplace
  have hid : reply.msgId = q.msgId := by
    rw [heq]
    rfl
  have htype' : reply.type = .Reply_Get := by
    rw [heq]
    change -q.type = _
    rw [htype]
    rfl
  have hneg : reply.type < 0 := by
    rw [htype']
    decide
  have hof : reply.of q.msgId := by simp [Message.of, hid]
  rw [away] at haway
  rcases hplace htype' with hs | hr | hm | ⟨i, hi⟩
  · exact hs
  · have : 0 < s.replies.countP (Message.of q.msgId) := List.countP_pos_iff.mpr ⟨reply, hr, hof⟩
    omega
  · have : 0 < s.mailbox.countP (Message.answers q.msgId) :=
      List.countP_pos_iff.mpr ⟨reply, hm, (answers_eq hneg).1.mpr hid⟩
    omega
  · have : 0 < tally (Act.isNotify (Message.of q.msgId)) s.threads :=
      tally_pos_of_mem ((h.ordered.shape i).notify_mem hi) hof
    omega

/-- Every part of a request of which nothing is left was answered, and the answers to a Get are stored. -/
theorem answered_of_counts (h : Inv node types s popped) (hlt : id < s.calls.length)
    (hc : pending s id = 0 ∧ unsent s id = 0 ∧ away s id = 0) :
    ∃ msg acts, s.calls[id]? = some msg ∧ handle node msg = .ok acts ∧ ∀ q, .push q ∈ acts →
      ∃ reply, (q, reply) ∈ s.replied ∧ (q.type = .Request_Get → reply ∈ s.stored) := by
  obtain ⟨hpend, hunsent, haway⟩ := hc
  have hget := List.getElem?_eq_getElem hlt
  have hcall := h.msgId id _ hget
  have hin : s.calls[id] ∈ s.calls := List.getElem_mem hlt
  generalize s.calls[id] = msg at hget hcall hin
  have hmem : msg ∈ popped := by
    rw [h.calls, List.mem_append] at hin
    refine hin.resolve_right fun hmail => ?_
    simp only [List.mem_filter, decide_eq_true_eq] at hmail
    have : 0 < s.mailbox.countP (Message.asks id) :=
      List.countP_pos_iff.mpr ⟨msg, hmail.1, (asks_eq hmail.2).1.mpr hcall⟩
    rw [pending] at hpend
    omega
  obtain ⟨acts, hacts⟩ := h.handled msg hmem
  refine ⟨msg, acts, hget, hacts, fun q hq => ?_⟩
  have hqid : q.msgId = id := (mem_requests hacts hq).1.trans hcall
  obtain ⟨reply, hreply⟩ := replied_of_done h hmem hacts hq (by rw [hqid, hunsent]) (by rw [hqid, haway])
  exact ⟨reply, hreply, fun htype => stored_of_done h hreply htype (by rw [hqid, haway])⟩

/-- When Wait has returned, every part of the request was answered and the answers were stored. -/
theorem answered_of_returned (h : Inv node types s popped) (hid : s.phases id = .returned) :
    ∃ msg acts, s.calls[id]? = some msg ∧ handle node msg = .ok acts ∧ ∀ q, .push q ∈ acts →
      ∃ reply, (q, reply) ∈ s.replied ∧ (q.type = .Request_Get → reply ∈ s.stored) := by
  refine answered_of_counts h ?_ (h.counted.done id (.inr hid))
  rw [h.length]
  exact phase_lt h.counted (by simp [hid])

/-- No message of the table is on its way or in the worker actor. -/
structure Quiet (s : WorkerState β D) : Prop where
  mailbox : s.mailbox = []
  threads : ∀ i, s.threads i = []
  inFlight : s.inFlight = []
  replies : s.replies = []

theorem Quiet.counts (h : Quiet s) : (∀ p, tally p s.threads = 0) ∧
    ∀ id, pending s id = 0 ∧ unsent s id = 0 ∧ away s id = 0 := by
  have htally : ∀ p, tally p s.threads = 0 := by
    intro p
    refine tally_eq_zero.mpr fun i x hx => ?_
    rw [h.threads i] at hx
    cases hx
  refine ⟨htally, fun id => ⟨?_, htally _, ?_⟩⟩
  · simp [pending, h.mailbox, htally]
  · simp [away, h.inFlight, h.replies, h.mailbox, htally]

/-- In a quiet state each part of each call was answered once. -/
theorem replied_perm (h : Inv node types s popped) (hq : Quiet s) :
    (s.replied.map Prod.fst).Perm (s.calls.flatMap (requests node)) := by
  classical
  rw [h.calls, hq.mailbox, List.filter_nil, List.append_nil, List.perm_iff_count]
  intro q
  have hcount := h.conserved (· == q)
  rw [hq.counts.1, hq.inFlight, List.countP_nil, Nat.zero_add] at hcount
  exact hcount

theorem waiting_of_quiet (h : Inv node types s popped) (hq : Quiet s) (hid : id < s.waitings.length) :
    s.waitings[id]? = some (if s.phases id = .returned then none else some 0) := by
  obtain ⟨h1, h2, h3⟩ := hq.counts.2 id
  rw [h.counted.waiting id hid, waiter, if_pos h1, h2, h3]
  rfl

/-- An array of three elements on two servers with ranks 1 and 2. -/
def arrayOfThree : WorkerNode (Table.Blob ℤ) (List ℤ) :=
  Table.arrayNode ℤ 3 2 0 (fun i : ℕ => (i : ℤ) + 1) (fun i j h => by simpa using h) [0, 1] (.refl _)

theorem two_lt_three : 2 < 3 := by decide

theorem three_lt_int : 3 < 2 ^ 31 := by decide

open TwoParties in
/-- Both threads handle a reply while the client waits. -/
def getOfThree : List (WorkerMove (Table.Blob ℤ)) :=
  [.issue Table.ArrayWorker.getAsync, .wait 0, .pop 0, .act 0, .act 0, .act 0,
    .serve 1 [.key 1, .values [8, 9]], .serve 0 [.key 0, .values [7]], .deliver 0, .deliver 0,
    .pop 1, .pop 0, .act 0, .act 1, .act 1, .act 0, .wake 0, .finish 0]

end Worker
end Hpps.Frame

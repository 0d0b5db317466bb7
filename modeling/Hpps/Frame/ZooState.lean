import Hpps.Frame.Barrier
import Hpps.Frame.Communicator
import Hpps.Lib.Weights

/-! `Zoo::StopPS`: the nodes go through a last Barrier, and each stops its communicator when it has returned from it. -/
namespace Hpps.Frame

open TransitionSystem Weights

instance : Fintype Actor where
  elems := {.server, .worker, .controller, .zoo}
  complete actor := by cases actor <;> simp

/-- The actors that were started on each node. -/
structure Roles (N : ℕ) [NeZero N] where
  hosts : Fin N → Actor → Bool
  controller : hosts 0 .controller = true

/-- A node makes requests, waits in `Barrier`, has returned from it, has told its communicator to exit, or has joined
the communicator's threads. -/
inductive NodePhase
  | running
  | waiting
  | returned
  | exited
  | joined
  deriving DecidableEq, Repr

/-- `handled` counts what each actor has taken out of its mailbox, `outbox` holds the replies that the controller has
still to hand to its communicator, and `unanswered` counts the requests of a node that have no reply yet. -/
structure ZooState (N : ℕ) where
  comm : CommunicatorState (List ℤ) N
  handled : Fin N → Actor → ℕ
  tasks : List BarrierMsg
  outbox : List BarrierMsg
  unanswered : Fin N → ℕ
  phase : Fin N → NodePhase
  crash : Option Stop

inductive ZooMove (N : ℕ)
  | request (n : Fin N) (msg : BarrierMsg)
  | processMessage (n : Fin N)
  | communicate (n src : Fin N)
  | serve (n : Fin N)
  | notify (n : Fin N)
  | control
  | sendReply
  | enter (n : Fin N)
  | leave (n : Fin N)
  | exit (n : Fin N)
  | join (n : Fin N)

namespace ZooMove

variable {N : ℕ}

def isRequest : ZooMove N → Bool
  | .request _ _ => true
  | _ => false

end ZooMove

/-- A request of a worker to a server. -/
def Roles.Request {N : ℕ} [NeZero N] (R : Roles N) (n : Fin N) (msg : BarrierMsg) : Prop :=
  msg.src = n ∧ R.hosts n .worker = true ∧ (∃ n' : Fin N, msg.dst = n' ∧ R.hosts n' .server = true) ∧
    0 < msg.type ∧ msg.type < 32

instance {N : ℕ} [NeZero N] (R : Roles N) (n : Fin N) (msg : BarrierMsg) : Decidable (R.Request n msg) :=
  inferInstanceAs (Decidable (_ ∧ _ ∧ _ ∧ _))

namespace ZooState

variable {N : ℕ}

def new : ZooState N := ⟨.new, fun _ _ => 0, [], [], fun _ => 0, fun _ => .running, none⟩

/-- What an actor has in its mailbox. -/
def unhandled (s : ZooState N) (n : Fin N) (actor : Actor) : List BarrierMsg :=
  ((s.comm.received n actor).drop (s.handled n actor)).map Prod.snd

def pop (s : ZooState N) (n : Fin N) (actor : Actor) : ZooState N :=
  { s with handled := Function.update s.handled n (Function.update (s.handled n) actor (s.handled n actor + 1)) }

/-- A message is put into the mailbox of the communicator of node `n`. -/
def give (s : ZooState N) (n : Fin N) (msg : BarrierMsg) : ZooState N :=
  { s with comm := { s.comm with
      sent := Function.update s.comm.sent n (s.comm.sent n ++ [msg])
      mailbox := Function.update s.comm.mailbox n (s.comm.mailbox n ++ [msg]) } }

def setPhase (s : ZooState N) (n : Fin N) (phase : NodePhase) : ZooState N :=
  { s with phase := Function.update s.phase n phase }

section Step

variable [NeZero N]

/-- A client stops its node when its requests are answered. A server answers each request that it handles. The threads
of a communicator can go on until they are joined, whatever is left in its mailbox. The net keeps what was handed to
it: no node closes its sockets, which would drop what waits in them. -/
def step (R : Roles N) (s : ZooState N) (a : ZooMove N) : Option (ZooState N) :=
  if s.crash.isSome ∨ s.comm.aborted.isSome then none
  else
    match a with
    | .request n msg =>
      if s.phase n = .running ∧ R.Request n msg then
        some { s.give n msg with unanswered := Function.update s.unanswered n (s.unanswered n + 1) }
      else none
    | .processMessage n =>
      if s.phase n = .joined then none
      else (s.comm.step R.hosts (.processMessage n)).map fun comm => { s with comm }
    | .communicate n src =>
      if s.phase n = .joined then none
      else (s.comm.step R.hosts (.communicate n src)).map fun comm => { s with comm }
    | .serve n =>
      match s.unhandled n .server with
      | [] => none
      | msg :: _ => some ((s.pop n .server).give n msg.createReplyMessage)
    | .notify n =>
      match s.unhandled n .worker with
      | [] => none
      | _ :: _ => some { s.pop n .worker with unanswered := Function.update s.unanswered n (s.unanswered n - 1) }
    | .control =>
      if s.outbox = [] then
        match s.unhandled 0 .controller with
        | [] => none
        | msg :: _ =>
          if msg.type = .Control_Barrier then
            match BarrierController.control N s.tasks msg with
            | .ok (tasks, sent) => some { s.pop 0 .controller with tasks, outbox := sent }
            | .error e => some { s with crash := some e }
          else some { s with crash := some .fatal }
      else none
    | .sendReply =>
      match s.outbox with
      | [] => none
      | msg :: rest => some { s.give 0 msg with outbox := rest }
    | .enter n =>
      if s.phase n = .running ∧ s.unanswered n = 0 then some ((s.give n (Barrier.request n)).setPhase n .waiting)
      else none
    | .leave n =>
      if s.phase n = .waiting then
        match s.unhandled n .zoo with
        | [] => none
        | msg :: _ =>
          if msg.type = .Control_Reply_Barrier then some ((s.pop n .zoo).setPhase n .returned)
          else some { s with crash := some .check }
      else none
    | .exit n => -- the last message can be in the hands of the thread
      if s.phase n = .returned ∧ (s.comm.mailbox n).length ≤ 1 then some (s.setPhase n .exited) else none
    | .join n => if s.phase n = .exited then some (s.setPhase n .joined) else none

end Step

/-! ### What is in the system -/

/-- The weights of the messages in the mailboxes of the communicators, on the net, and in those of the actors. -/
def weigh (s : ZooState N) (m t u : BarrierMsg → ℕ) : ℕ :=
  total m s.comm.mailbox + onNet t s.comm.net + onNet u s.unhandled

/-- How many messages have property `p`. -/
def count (s : ZooState N) (p : BarrierMsg → Prop) [DecidablePred p] : ℕ :=
  s.weigh (fun msg => if p msg then 1 else 0) (fun msg => if p msg then 1 else 0) fun msg => if p msg then 1 else 0

variable {s s' : ZooState N} {n n' src : Fin N} {actor : Actor} {msg : BarrierMsg} {rest : List BarrierMsg}
  {p : BarrierMsg → Prop} [DecidablePred p] {m t u : BarrierMsg → ℕ}

theorem unhandled_pop (h : s.unhandled n actor = msg :: rest) : (s.pop n actor).unhandled =
    Function.update s.unhandled n (Function.update (s.unhandled n) actor rest) := by
  have hrest : (s.pop n actor).unhandled n actor = rest := by
    have hdrop : (s.pop n actor).unhandled n actor = (s.unhandled n actor).tail := by
      simp [unhandled, pop, List.tail_drop]
    rw [hdrop, h, List.tail_cons]
  funext n' actor'
  by_cases hn : n' = n
  · subst hn
    by_cases ha : actor' = actor
    · subst ha
      simpa using hrest
    · simp [unhandled, pop, ha]
  · simp [unhandled, pop, hn]

/-- What an actor receives is put behind what it has not handled. -/
theorem unhandled_receive (src : Fin N) (msg : BarrierMsg) {received : Fin N → Actor → List (Fin N × BarrierMsg)}
    (hle : s.handled n actor ≤ (s.comm.received n actor).length)
    (h : received = Function.update s.comm.received n
      (Function.update (s.comm.received n) actor (s.comm.received n actor ++ [(src, msg)]))) :
    ({ s with comm := { s.comm with received } } : ZooState N).unhandled =
      Function.update s.unhandled n (Function.update (s.unhandled n) actor (s.unhandled n actor ++ [msg])) := by
  subst h
  funext n' actor'
  by_cases hn : n' = n
  · subst hn
    by_cases ha : actor' = actor
    · subst ha
      simp [unhandled, List.drop_append_of_le_length hle]
    · simp [unhandled, ha]
  · simp [unhandled, hn]

theorem weigh_give : (s.give n msg).weigh m t u = s.weigh m t u + m msg := by
  have hbox : total m (s.give n msg).comm.mailbox = total m s.comm.mailbox + m msg := total_push
  have hrest : (s.give n msg).weigh m t u =
      total m (s.give n msg).comm.mailbox + onNet t s.comm.net + onNet u s.unhandled := rfl
  rw [hrest, hbox, weigh]
  omega

theorem weigh_pop (h : s.unhandled n actor = msg :: rest) : (s.pop n actor).weigh m t u + u msg = s.weigh m t u := by
  have hpop : onNet u (s.pop n actor).unhandled + u msg = onNet u s.unhandled := by
    rw [unhandled_pop h]
    exact onNet_pop h
  have hrest : (s.pop n actor).weigh m t u =
      total m s.comm.mailbox + onNet t s.comm.net + onNet u (s.pop n actor).unhandled := rfl
  rw [hrest, weigh]
  omega

/-- A communicator hands on a message of its mailbox or of the net, and nothing else changes. -/
inductive Forwards (s : ZooState N) : Fin N → ZooState N → Prop
  | send {n n' : Fin N} {msg : BarrierMsg} {rest : List BarrierMsg} (hbox : s.comm.mailbox n = msg :: rest)
      (hdst : msg.dst = n') : Forwards s n { s with comm := { s.comm with
        mailbox := Function.update s.comm.mailbox n rest
        net := Function.update s.comm.net n (Function.update (s.comm.net n) n' (s.comm.net n n' ++ [msg])) } }
  | keep {n : Fin N} {msg : BarrierMsg} {rest : List BarrierMsg} (hbox : s.comm.mailbox n = msg :: rest)
      (hdst : msg.dst = n) : Forwards s n { s with comm := { s.comm with
        mailbox := Function.update s.comm.mailbox n rest
        received := Function.update s.comm.received n (Function.update (s.comm.received n) (localForward msg.type)
          (s.comm.received n (localForward msg.type) ++ [(n, msg)])) } }
  | receive {n src : Fin N} {msg : BarrierMsg} {rest : List BarrierMsg} (hnet : s.comm.net src n = msg :: rest)
      (hdst : msg.dst = n) : Forwards s n { s with comm := { s.comm with
        net := Function.update s.comm.net src (Function.update (s.comm.net src) n rest)
        received := Function.update s.comm.received n (Function.update (s.comm.received n) (localForward msg.type)
          (s.comm.received n (localForward msg.type) ++ [(src, msg)])) } }

/-- The actors have not handled more than they received. -/
def Room (s : ZooState N) : Prop := ∀ n actor, s.handled n actor ≤ (s.comm.received n actor).length

theorem Room.receive {entry : Fin N × BarrierMsg} (h : s.Room) (k : Fin N) (other : Actor) : s.handled k other ≤
    (Function.update s.comm.received n (Function.update (s.comm.received n) actor
      (s.comm.received n actor ++ [entry])) k other).length := by
  have hle := h k other
  by_cases hk : k = n
  · subst hk
    by_cases ho : other = actor
    · subst ho
      simp only [Function.update_self, List.length_append]
      omega
    · simpa [ho] using hle
  · simpa [hk] using hle

theorem Forwards.weigh (h : s.Forwards n s') (hroom : s.Room) : ∃ msg,
    (s'.weigh m t u + m msg = s.weigh m t u + t msg) ∨ (s'.weigh m t u + m msg = s.weigh m t u + u msg) ∨
      (s'.weigh m t u + t msg = s.weigh m t u + u msg) := by
  cases h with
  | @send n' msg rest hbox hdst =>
    have hpop := total_pop (f := m) hbox
    have hpush := onNet_push (f := t) s.comm.net n n' msg
    refine ⟨msg, .inl ?_⟩
    simp only [ZooState.weigh, hpush]
    change _ + onNet u s.unhandled + _ = _
    omega
  | @keep msg rest hbox hdst =>
    have hpop := total_pop (f := m) hbox
    have hpush := onNet_push (f := u) s.unhandled n (localForward msg.type) msg
    rw [← unhandled_receive n msg (hroom n _) rfl] at hpush
    refine ⟨msg, .inr (.inl ?_)⟩
    simp only [ZooState.weigh]
    change _ + _ + onNet u ({ s with comm := { s.comm with received := _ } } : ZooState N).unhandled + _ = _
    omega
  | @receive src msg rest hnet hdst =>
    have hpop := onNet_pop (f := t) hnet
    have hpush := onNet_push (f := u) s.unhandled n (localForward msg.type) msg
    rw [← unhandled_receive src msg (hroom n _) rfl] at hpush
    refine ⟨msg, .inr (.inr ?_)⟩
    simp only [ZooState.weigh]
    change _ + _ + onNet u ({ s with comm := { s.comm with received := _ } } : ZooState N).unhandled + _ = _
    omega

theorem count_give : (s.give n msg).count p = s.count p + if p msg then 1 else 0 := weigh_give

theorem count_pop (h : s.unhandled n actor = msg :: rest) :
    (s.pop n actor).count p + (if p msg then 1 else 0) = s.count p := weigh_pop h

theorem Forwards.count (h : s.Forwards n s') (hroom : s.Room) : s'.count p = s.count p := by
  obtain ⟨msg, h | h | h⟩ := h.weigh hroom <;> exact Nat.add_right_cancel h

theorem count_pos_of_mailbox (h : msg ∈ s.comm.mailbox n) (hp : p msg) : 0 < s.count p := by
  have hle := le_total (f := fun msg => if p msg then 1 else 0) h
  rw [if_pos hp] at hle
  simp only [ZooState.count, ZooState.weigh]
  omega

theorem count_pos_of_net (h : msg ∈ s.comm.net n n') (hp : p msg) : 0 < s.count p := by
  have hle := le_onNet (f := fun msg => if p msg then 1 else 0) h
  rw [if_pos hp] at hle
  simp only [ZooState.count, ZooState.weigh]
  omega

theorem count_pos_of_unhandled (h : msg ∈ s.unhandled n actor) (hp : p msg) : 0 < s.count p := by
  have hle := le_onNet (f := fun msg => if p msg then 1 else 0) h
  rw [if_pos hp] at hle
  simp only [ZooState.count, ZooState.weigh]
  omega

theorem of_ite_pos (h : 0 < if p msg then 1 else 0) : p msg := by
  by_contra hno
  rw [if_neg hno] at h
  omega

theorem exists_of_count_pos (h : 0 < s.count p) : (∃ n, ∃ msg ∈ s.comm.mailbox n, p msg) ∨
    (∃ n n', ∃ msg ∈ s.comm.net n n', p msg) ∨ ∃ n actor, ∃ msg ∈ s.unhandled n actor, p msg := by
  by_cases hm : 0 < total (fun msg => if p msg then 1 else 0) s.comm.mailbox
  · obtain ⟨n, msg, hmsg, hp⟩ := exists_of_total_pos hm
    exact .inl ⟨n, msg, hmsg, of_ite_pos hp⟩
  · by_cases ht : 0 < onNet (fun msg => if p msg then 1 else 0) s.comm.net
    · obtain ⟨n, n', msg, hmsg, hp⟩ := exists_of_onNet_pos ht
      exact .inr (.inl ⟨n, n', msg, hmsg, of_ite_pos hp⟩)
    · have hu : 0 < onNet (fun msg => if p msg then 1 else 0) s.unhandled := by
        simp only [ZooState.count, ZooState.weigh] at h
        omega
      obtain ⟨n, actor, msg, hmsg, hp⟩ := exists_of_onNet_pos hu
      exact .inr (.inr ⟨n, actor, msg, hmsg, of_ite_pos hp⟩)

/-! ### Requests, and the Barrier -/

/-- The controller's reply to a node. -/
def reply (n : Fin N) : BarrierMsg := (Barrier.request n).createReplyMessage

/-- A request of node `n` or its answer. -/
def Traffic (n : Fin N) (msg : BarrierMsg) : Prop :=
  0 < msg.type ∧ msg.type < 32 ∧ msg.src = n ∨ msg.type < 0 ∧ -32 < msg.type ∧ msg.dst = n

instance (n : Fin N) : DecidablePred (Traffic n) := fun _ => inferInstanceAs (Decidable (_ ∨ _))

/-- The request of node `n` to the controller or the reply to it. -/
def Token (n : Fin N) (msg : BarrierMsg) : Prop := msg = Barrier.request n ∨ msg = reply n

instance (n : Fin N) : DecidablePred (Token n) := fun _ => inferInstanceAs (Decidable (_ ∨ _))

variable {k : Fin N} {q : BarrierMsg}

theorem cast_inj : ((n : ℕ) : ℤ) = (k : ℕ) ↔ n = k := by
  rw [Nat.cast_inj, Fin.val_inj]

theorem not_traffic_enter : ¬ Traffic k (Barrier.request n) := by
  rintro (⟨-, hlt, -⟩ | ⟨hneg, -⟩)
  · have : (32 : ℤ) > 33 := hlt
    omega
  · have : (0 : ℤ) > 33 := hneg
    omega

theorem not_traffic_reply : ¬ Traffic k (reply n) := by
  rintro (⟨hpos, -⟩ | ⟨-, hlt, -⟩)
  · have : (0 : ℤ) < -33 := hpos
    omega
  · have : (-32 : ℤ) < -33 := hlt
    omega

theorem enter_inj : Barrier.request n = Barrier.request k ↔ n = k :=
  ⟨fun h => cast_inj.mp (congrArg Message.src h), fun h => h ▸ rfl⟩

theorem reply_inj : reply n = reply k ↔ n = k :=
  ⟨fun h => cast_inj.mp (congrArg Message.dst h), fun h => h ▸ rfl⟩

theorem enter_ne_reply : Barrier.request n ≠ reply k := by
  intro h
  have : (33 : ℤ) = -33 := congrArg Message.type h
  omega

theorem token_enter : Token k (Barrier.request n) ↔ n = k := by simp [Token, enter_inj, enter_ne_reply]

theorem token_reply : Token k (reply n) ↔ n = k := by simp [Token, reply_inj, enter_ne_reply.symm]

theorem not_token_of_traffic (h : Traffic n msg) : ¬ Token k msg := by
  rintro (rfl | rfl)
  · exact not_traffic_enter h
  · exact not_traffic_reply h

theorem countP_enter (l : List (Fin N)) : (l.map Barrier.request).countP (Token n) = l.count n := by
  rw [List.countP_map, List.count]
  refine List.countP_congr fun k _ => ?_
  simp [token_enter]

theorem countP_reply (l : List (Fin N)) : (l.map reply).countP (Token n) = l.count n := by
  rw [List.countP_map, List.count]
  refine List.countP_congr fun k _ => ?_
  simp [token_reply]

theorem count_eq_zero_of_imp {p' : BarrierMsg → Prop} [DecidablePred p'] (h : s.count p = 0)
    (himp : ∀ msg, p' msg → p msg) : s.count p' = 0 := by
  by_contra hne
  rcases exists_of_count_pos (Nat.pos_of_ne_zero hne) with ⟨_, msg, hmsg, hp⟩ | ⟨_, _, msg, hmsg, hp⟩ |
    ⟨_, _, msg, hmsg, hp⟩
  · exact (count_pos_of_mailbox hmsg (himp msg hp)).ne' h
  · exact (count_pos_of_net hmsg (himp msg hp)).ne' h
  · exact (count_pos_of_unhandled hmsg (himp msg hp)).ne' h

theorem count_new : (new : ZooState N).count p = 0 := by
  by_contra hne
  rcases exists_of_count_pos (Nat.pos_of_ne_zero hne) with ⟨_, _, h, _⟩ | ⟨_, _, _, h, _⟩ | ⟨_, _, _, h, _⟩ <;> cases h

end ZooState
end Hpps.Frame

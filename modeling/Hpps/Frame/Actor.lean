import Hpps.Common.Queue
import Hpps.Frame.Message
import Hpps.Lib.Refinement

/-! `Actor`: threads that take messages from a mailbox and handle them, until `Stop` leaves the mailbox. -/
namespace Hpps.Frame

open Monitor TransitionSystem

def MsgType.Default : MsgType := 0

/-- Where a thread of an actor is in `Main`. -/
inductive ActorThread (β : Type)
  | created
  | popping
  | handling (msg : Message β)
  | returned

/-- Where the thread that calls `Stop` is: the mailbox was empty, `is_working_` was cleared, the mailbox was
left, and `n` threads were joined. -/
inductive StopPhase
  | draining
  | drained
  | cleared
  | joined (n : ℕ)
  deriving DecidableEq

/-- `none` names the threads that do not belong to the actor. -/
abbrev Mailbox (β : Type) (T : ℕ) : Type :=
  Config (Queue (Message β)) (QueueCall (Message β)) (QueueResult (Message β)) (Option (Fin T))

/-- An actor of `T` threads. The logs `handled` of the messages and their handlers, `finished` and `atExit` of what
the mailbox had received when it was left, are not read. -/
structure ActorState (β : Type) (T : ℕ) where
  mailbox : Mailbox β T
  threads : Fin T → ActorThread β
  isWorking : Bool
  stop : StopPhase
  aborted : Bool
  handled : List (Message β × MsgType)
  finished : List (Message β)
  atExit : List (Message β)

inductive ActorMove (β : Type) (T : ℕ)
  | enterMain (i : Fin T)
  | pop (i : Fin T)
  | resume (i : Fin T)
  | spurious (i : Fin T)
  | finish (i : Fin T)
  | receive (msg : Message β) (wakes : Option (Option (Fin T)))
  | empty
  | clear
  | exit
  | join

namespace ActorState

variable {β : Type} {T : ℕ} (handlers : List MsgType)

def new : ActorState β T where
  mailbox := start Queue.new
  threads _ := .created
  isWorking := false
  stop := .draining
  aborted := false
  handled := []
  finished := []
  atExit := []

/-- The handler that `Main` calls for a message. -/
def handler (type : MsgType) : Option MsgType :=
  if type ∈ handlers then some type
  else if MsgType.Default ∈ handlers then some .Default
  else none

/-- What `Main` does after a call to `Pop` in which it got the mutex: it sleeps on, or handles a message or returns. -/
def popped (s : ActorState β T) (i : Fin T) (mailbox : Mailbox β T) : ActorState β T :=
  match Queue.enter .pop s.mailbox.shared with
  | .leave _ (.item (some msg)) _ =>
    match handler handlers msg.type with
    | some type =>
      { s with
        mailbox := mailbox
        threads := Function.update s.threads i (.handling msg)
        handled := s.handled ++ [(msg, type)] }
    -- LOG_FATAL
    | none => { s with mailbox := mailbox, aborted := true }
  | .leave _ _ _ => { s with mailbox := mailbox, threads := Function.update s.threads i .returned }
  | .wait => { s with mailbox := mailbox }

def step (s : ActorState β T) (a : ActorMove β T) : Option (ActorState β T) :=
  if s.aborted then none
  else
    match a with
    | .enterMain i =>
      match s.threads i with
      | .created => some { s with isWorking := true, threads := Function.update s.threads i .popping }
      | _ => none
    | .pop i =>
      match s.threads i with
      | .popping =>
        (Monitor.step Queue.enter s.mailbox (.call (some i) .pop none)).map (s.popped handlers i)
      | _ => none
    | .resume i => (Monitor.step Queue.enter s.mailbox (.resume (some i) none)).map (s.popped handlers i)
    | .spurious i =>
      (Monitor.step Queue.enter s.mailbox (.spurious (some i))).map fun mailbox => { s with mailbox := mailbox }
    | .finish i =>
      match s.threads i with
      | .handling msg =>
        some { s with threads := Function.update s.threads i .popping, finished := s.finished ++ [msg] }
      | _ => none
    | .receive msg wakes =>
      (Monitor.step Queue.enter s.mailbox (.call none (.push msg) wakes)).map fun mailbox =>
        { s with mailbox := mailbox }
    | .empty =>
      match s.stop, Monitor.step Queue.enter s.mailbox (.call none .empty none) with
      | .draining, some mailbox =>
        some { s with
          mailbox := mailbox
          stop := if s.mailbox.shared.buffer.isEmpty then .drained else .draining }
      | _, _ => none
    | .clear => if s.stop = .drained then some { s with isWorking := false, stop := .cleared } else none
    | .exit =>
      match s.stop, Monitor.step Queue.enter s.mailbox (.call none .exit none) with
      | .cleared, some mailbox =>
        some { s with mailbox := mailbox, stop := .joined 0, atExit := Queue.pushed s.mailbox.log }
      | _, _ => none
    | .join =>
      match s.stop with
      | .joined n =>
        if h : n < T then
          match s.threads ⟨n, h⟩ with
          | .returned => some { s with stop := .joined (n + 1) }
          | _ => none
        else none
      | _ => none

variable {handlers} {s s' : ActorState β T} {a : ActorMove β T}

/-! ### What a move does -/

/-- The mailbox of an actor in a run, and the threads that are inside it. -/
structure InMailbox (s : ActorState β T) : Prop where
  reachable : Reachable (restrict (fun _ a => Move.made Queue.takes a = true) (Monitor.step Queue.enter))
    (start Queue.new) s.mailbox
  inside : ∀ i, s.mailbox.phase (some i) ≠ .outside → s.threads i = .popping
  others : s.mailbox.phase none = .outside

theorem InMailbox.eq_pop (hs : s.InMailbox) {t : Option (Fin T)} {c : QueueCall (Message β)}
    (ht : s.mailbox.phase t = .asleep c ∨ s.mailbox.phase t = .woken c) : c = .pop := by
  obtain ⟨hc, hwait⟩ := (inv_of_reachable (fun _ hc => Queue.paced hc) hs.reachable).waited t c ht
  exact Queue.eq_pop_of_wait hc hwait

/-- What each move can do. -/
inductive Outcome (handlers : List MsgType) (s : ActorState β T) : ActorMove β T → ActorState β T → Prop
  | enterMain {i : Fin T} (hi : s.threads i = .created) :
      Outcome handlers s (.enterMain i)
        { s with isWorking := true, threads := Function.update s.threads i .popping }
  | wait {i : Fin T} {a : ActorMove β T} (ha : a = .pop i ∨ a = .resume i) (hi : s.threads i = .popping)
      (hbuffer : s.mailbox.shared.buffer = []) (hexit : s.mailbox.shared.exit = false) :
      Outcome handlers s a
        { s with mailbox.phase := Function.update s.mailbox.phase (some i) (.asleep .pop) }
  | handle {i : Fin T} {a : ActorMove β T} {msg : Message β} {rest : List (Message β)} {type : MsgType}
      (ha : a = .pop i ∨ a = .resume i) (hi : s.threads i = .popping)
      (hbuffer : s.mailbox.shared.buffer = msg :: rest) (htype : handler handlers msg.type = some type) :
      Outcome handlers s a
        { s with
          mailbox := ⟨⟨rest, s.mailbox.shared.exit⟩, Function.update s.mailbox.phase (some i) .outside,
            s.mailbox.log ++ [(some i, .pop, .item (some msg))]⟩
          threads := Function.update s.threads i (.handling msg)
          handled := s.handled ++ [(msg, type)] }
  | fatal {i : Fin T} {a : ActorMove β T} {msg : Message β} {rest : List (Message β)}
      (ha : a = .pop i ∨ a = .resume i) (hi : s.threads i = .popping)
      (hbuffer : s.mailbox.shared.buffer = msg :: rest) (htype : handler handlers msg.type = none) :
      Outcome handlers s a
        { s with
          mailbox := ⟨⟨rest, s.mailbox.shared.exit⟩, Function.update s.mailbox.phase (some i) .outside,
            s.mailbox.log ++ [(some i, .pop, .item (some msg))]⟩
          aborted := true }
  | left {i : Fin T} {a : ActorMove β T} (ha : a = .pop i ∨ a = .resume i) (hi : s.threads i = .popping)
      (hbuffer : s.mailbox.shared.buffer = []) (hexit : s.mailbox.shared.exit = true) :
      Outcome handlers s a
        { s with
          mailbox := ⟨s.mailbox.shared, Function.update s.mailbox.phase (some i) .outside,
            s.mailbox.log ++ [(some i, .pop, .item none)]⟩
          threads := Function.update s.threads i .returned }
  | spurious {i : Fin T} {c : QueueCall (Message β)} (hi : s.mailbox.phase (some i) = .asleep c) :
      Outcome handlers s (.spurious i)
        { s with mailbox.phase := Function.update s.mailbox.phase (some i) (.woken c) }
  | finish {i : Fin T} {msg : Message β} (hi : s.threads i = .handling msg) :
      Outcome handlers s (.finish i)
        { s with threads := Function.update s.threads i .popping, finished := s.finished ++ [msg] }
  | receive {msg : Message β} {w : Option (Option (Fin T))}
      {phase : Option (Fin T) → Monitor.Phase (QueueCall (Message β))} (hphase : Woken s.mailbox.phase .one phase) :
      Outcome handlers s (.receive msg w)
        { s with mailbox := ⟨⟨s.mailbox.shared.buffer ++ [msg], s.mailbox.shared.exit⟩, phase,
            s.mailbox.log ++ [(none, .push msg, .unit)]⟩ }
  | empty (hstop : s.stop = .draining) :
      Outcome handlers s .empty
        { s with
          mailbox.log := s.mailbox.log ++ [(none, .empty, .flag s.mailbox.shared.buffer.isEmpty)]
          stop := if s.mailbox.shared.buffer.isEmpty then .drained else .draining }
  | clear (hstop : s.stop = .drained) :
      Outcome handlers s .clear { s with isWorking := false, stop := .cleared }
  | exit (hstop : s.stop = .cleared) :
      Outcome handlers s .exit
        { s with
          mailbox := ⟨⟨s.mailbox.shared.buffer, true⟩, fun t => (s.mailbox.phase t).wakeUp,
            s.mailbox.log ++ [(none, .exit, .unit)]⟩
          stop := .joined 0
          atExit := Queue.pushed s.mailbox.log }
  | join {n : ℕ} (hstop : s.stop = .joined n) (hn : n < T) (hreturned : s.threads ⟨n, hn⟩ = .returned) :
      Outcome handlers s .join { s with stop := .joined (n + 1) }

theorem popped_outcome {i : Fin T} {mailbox : Mailbox β T} (ha : a = .pop i ∨ a = .resume i)
    (hi : s.threads i = .popping) (h : Queue.PopOutcome s.mailbox (some i) mailbox) :
    Outcome handlers s a (s.popped handlers i mailbox) := by
  cases h with
  | wait hbuffer hexit =>
    have heq : Queue.enter .pop s.mailbox.shared = .wait := by simp [Queue.enter, hbuffer, hexit]
    simp only [popped, heq]
    exact .wait ha hi hbuffer hexit
  | @item msg rest hbuffer =>
    have heq : Queue.enter .pop s.mailbox.shared = .leave ⟨rest, s.mailbox.shared.exit⟩ (.item (some msg)) .none := by
      simp [Queue.enter, hbuffer]
    cases htype : handler handlers msg.type with
    | some type =>
      simp only [popped, heq, htype]
      exact .handle ha hi hbuffer htype
    | none =>
      simp only [popped, heq, htype]
      exact .fatal ha hi hbuffer htype
  | left hbuffer hexit =>
    have heq : Queue.enter .pop s.mailbox.shared = .leave s.mailbox.shared (.item none) .none := by
      simp [Queue.enter, hbuffer, hexit]
    simp only [popped, heq]
    exact .left ha hi hbuffer hexit

theorem step_outcome (hs : s.InMailbox) (h : step handlers s a = some s') : Outcome handlers s a s' := by
  unfold step at h
  split at h
  · cases h
  cases a with
  | enterMain i =>
    dsimp only at h
    split at h
    · rename_i hi
      cases h
      exact .enterMain hi
    · cases h
  | pop i =>
    dsimp only at h
    split at h
    · rename_i hi
      obtain ⟨mailbox, hmailbox, rfl⟩ := Option.map_eq_some_iff.mp h
      rw [Monitor.step] at hmailbox
      split at hmailbox
      · exact popped_outcome (.inl rfl) hi (Queue.pop_outcome hmailbox)
      · cases hmailbox
    · cases h
  | resume i =>
    obtain ⟨mailbox, hmailbox, rfl⟩ := Option.map_eq_some_iff.mp h
    rw [Monitor.step] at hmailbox
    split at hmailbox
    · rename_i c hc
      obtain rfl := hs.eq_pop (.inr hc)
      have hi : s.threads i = .popping := hs.inside i (by simp [hc])
      exact popped_outcome (.inr rfl) hi (Queue.pop_outcome hmailbox)
    · cases hmailbox
  | spurious i =>
    obtain ⟨mailbox, hmailbox, rfl⟩ := Option.map_eq_some_iff.mp h
    cases Monitor.step_outcome hmailbox with
    | wait ha | leave ha => simp at ha
    | spurious hc => exact .spurious hc
  | finish i =>
    dsimp only at h
    split at h
    · rename_i msg hi
      cases h
      exact .finish hi
    · cases h
  | receive msg w =>
    obtain ⟨mailbox, hmailbox, rfl⟩ := Option.map_eq_some_iff.mp h
    obtain ⟨-, phase, hphase, rfl⟩ := Monitor.call_leaves hmailbox rfl
    exact .receive hphase
  | empty =>
    dsimp only at h
    split at h
    · rename_i mailbox hstop hmailbox
      obtain ⟨-, phase, hphase, rfl⟩ := Monitor.call_leaves hmailbox rfl
      cases hphase
      cases h
      exact .empty hstop
    · cases h
  | clear =>
    dsimp only at h
    split at h
    · rename_i hstop
      cases h
      exact .clear hstop
    · cases h
  | exit =>
    dsimp only at h
    split at h
    · rename_i mailbox hstop hmailbox
      obtain ⟨-, phase, hphase, rfl⟩ := Monitor.call_leaves hmailbox rfl
      cases hphase
      cases h
      exact .exit hstop
    · cases h
  | join =>
    dsimp only at h
    split at h
    · rename_i n hstop
      split at h
      · rename_i hn
        split at h
        · rename_i hi
          cases h
          exact .join hstop hn hi
        · cases h
      · cases h
    · cases h

/-! ### The threads inside the mailbox -/

theorem inMailbox_new : (new : ActorState β T).InMailbox where
  reachable := .refl
  inside _ h := absurd rfl h
  others := rfl

/-- What each move does to the mailbox is one of its calls, or a part of one. -/
theorem step_mailbox (h : step handlers s a = some s') :
    s'.mailbox = s.mailbox ∨
      ∃ b, Move.made Queue.takes b = true ∧ Monitor.step Queue.enter s.mailbox b = some s'.mailbox := by
  have hpopped : ∀ i mailbox, (s.popped handlers i mailbox).mailbox = mailbox := by
    intro i mailbox
    unfold popped
    split
    · split <;> rfl
    · rfl
    · rfl
  unfold step at h
  split at h
  · cases h
  cases a with
  | enterMain | finish | clear | join =>
    dsimp only at h
    repeat' split at h
    all_goals cases h
    all_goals exact .inl rfl
  | pop i =>
    dsimp only at h
    split at h
    · obtain ⟨mailbox, hmailbox, rfl⟩ := Option.map_eq_some_iff.mp h
      exact .inr ⟨_, rfl, by rw [hpopped]; exact hmailbox⟩
    · cases h
  | resume i =>
    obtain ⟨mailbox, hmailbox, rfl⟩ := Option.map_eq_some_iff.mp h
    exact .inr ⟨_, rfl, by rw [hpopped]; exact hmailbox⟩
  | spurious | receive =>
    obtain ⟨mailbox, hmailbox, rfl⟩ := Option.map_eq_some_iff.mp h
    exact .inr ⟨_, rfl, hmailbox⟩
  | empty | exit =>
    dsimp only at h
    split at h
    · rename_i mailbox _ hmailbox
      cases h
      exact .inr ⟨_, rfl, hmailbox⟩
    · cases h

theorem InMailbox.step (hs : s.InMailbox) (h : step handlers s a = some s') : s'.InMailbox := by
  have hreachable : Reachable (restrict (fun _ a => Move.made Queue.takes a = true) (Monitor.step Queue.enter))
      (start Queue.new) s'.mailbox := by
    rcases step_mailbox h with heq | ⟨b, hb, hstep⟩
    · rw [heq]
      exact hs.reachable
    · exact hs.reachable.tail (restrict_eq_some.mpr ⟨hb, hstep⟩)
  refine ⟨hreachable, fun i hi => ?_, ?_⟩
  · have hinside := hs.inside i
    cases step_outcome hs h with
    | @enterMain j hj => by_cases hij : i = j <;> simp_all
    | @wait j _ _ hj => by_cases hij : i = j <;> simp_all
    | @handle j => by_cases hij : i = j <;> simp_all
    | @fatal j => by_cases hij : i = j <;> simp_all
    | @left j => by_cases hij : i = j <;> simp_all
    | @spurious j c hj => by_cases hij : i = j <;> simp_all
    | @finish j => by_cases hij : i = j <;> simp_all
    | receive hphase =>
      cases hphase with
      | nobody => exact hinside hi
      | @one u c hu => by_cases hij : some i = u <;> simp_all
    | exit =>
      refine hinside fun hout => hi ?_
      simp [hout, Monitor.Phase.wakeUp]
    | _ => exact hinside hi
  · cases step_outcome hs h with
    | receive hphase =>
      cases hphase with
      | nobody => exact hs.others
      | @one u c hu =>
        have hne : (none : Option (Fin T)) ≠ u := by
          rintro rfl
          rw [hs.others] at hu
          cases hu
        simpa [hne] using hs.others
    | exit => simp [hs.others, Monitor.Phase.wakeUp]
    | _ => simp [hs.others, Function.update_of_ne]

/-! ### What is received is handled -/

/-- The message that a thread handles. -/
def held : ActorThread β → Multiset (Message β)
  | .handling msg => {msg}
  | _ => 0

@[simp] theorem held_created : held (.created : ActorThread β) = 0 := rfl

@[simp] theorem held_popping : held (.popping : ActorThread β) = 0 := rfl

@[simp] theorem held_handling (msg : Message β) : held (.handling msg) = {msg} := rfl

@[simp] theorem held_returned : held (.returned : ActorThread β) = 0 := rfl

/-- What the logs say of each other. -/
structure Logged (handlers : List MsgType) (s : ActorState β T) : Prop where
  back : ∀ e ∈ s.mailbox.log, Queue.pushesBack e.2.1 = true
  handled : s.aborted = false → s.handled.map Prod.fst = Queue.popped s.mailbox.log
  served : ∀ e ∈ s.handled, handler handlers e.1.type = some e.2
  held : (s.finished : Multiset (Message β)) + ∑ i, held (s.threads i) = (s.handled.map Prod.fst : Multiset (Message β))
  aborted : s.aborted = true → ∃ i, s.threads i = .popping

/-- What the threads have done by the time of `Stop`. -/
structure Stopped (s : ActorState β T) : Prop where
  exited : s.mailbox.shared.exit = true ↔ ∃ n, s.stop = .joined n
  received : s.mailbox.shared.exit = true → s.atExit <+: Queue.pushed s.mailbox.log
  left : ∀ i, s.threads i = .returned → s.mailbox.shared.exit = true ∧ s.atExit <+: Queue.popped s.mailbox.log
  joined : ∀ n, s.stop = .joined n → n ≤ T ∧ ∀ i : Fin T, i.val < n → s.threads i = .returned

theorem logged_new : (new : ActorState β T).Logged handlers where
  back _ h := by cases h
  handled _ := rfl
  served _ h := by cases h
  held := by simp [new]
  aborted h := by cases h

theorem stopped_new : (new : ActorState β T).Stopped where
  exited := by simp [new, start, Queue.new]
  received h := by cases h
  left _ h := by cases h
  joined _ h := by cases h

/-- The threads hold what they held, but for the one that moves. -/
theorem held_update {threads : Fin T → ActorThread β} {i : Fin T} {old : ActorThread β} (hi : threads i = old)
    (thread : ActorThread β) :
    ∑ j, held (Function.update threads i thread j) + held old = ∑ j, held (threads j) + held thread := by
  rw [← hi]
  exact Tally.sum_update held threads i thread

theorem Logged.step (hl : s.Logged handlers) (hs : s.InMailbox) (h : step handlers s a = some s') :
    s'.Logged handlers := by
  have halive : s.aborted = false := by
    unfold ActorState.step at h
    split at h
    · cases h
    · rename_i hno
      simpa using hno
  have hdead : ∀ {P : Prop}, s.aborted = true → P := fun h => by simp [halive] at h
  cases step_outcome hs h with
  | enterMain hi =>
    have hheld := held_update hi .popping
    rw [held_created, held_popping, add_zero, add_zero] at hheld
    exact { hl with held := hheld ▸ hl.held, aborted := hdead }
  | @handle i _ msg _ _ ha hi hbuffer htype =>
    have hheld := held_update hi (.handling msg)
    rw [held_popping, held_handling, add_zero] at hheld
    refine ⟨?_, fun _ => ?_, ?_, ?_, hdead⟩
    · simpa [Queue.pushesBack, or_imp, forall_and] using hl.back
    · simp [Queue.popped, hl.handled halive]
    · simpa [or_imp, forall_and, htype] using hl.served
    · dsimp only
      rw [hheld, ← add_assoc, hl.held, List.map_append, List.map_singleton, ← Multiset.coe_add,
        Multiset.coe_singleton]
  | fatal ha hi =>
    refine ⟨?_, fun hno => ?_, hl.served, hl.held, fun _ => ⟨_, hi⟩⟩
    · simpa [Queue.pushesBack, or_imp, forall_and] using hl.back
    · cases hno
  | left ha hi hbuffer hexit =>
    have hheld := held_update hi .returned
    rw [held_popping, held_returned, add_zero, add_zero] at hheld
    refine ⟨?_, fun _ => ?_, hl.served, hheld ▸ hl.held, hdead⟩
    · simpa [Queue.pushesBack, or_imp, forall_and] using hl.back
    · simpa [Queue.popped] using hl.handled halive
  | @finish i msg hi =>
    have hheld := held_update hi .popping
    rw [held_popping, held_handling, add_zero] at hheld
    refine { hl with held := ?_, aborted := hdead }
    dsimp only
    rw [← hl.held, ← hheld, ← Multiset.coe_add, Multiset.coe_singleton, add_assoc, add_comm ({msg} : Multiset _)]
  | receive | empty | exit =>
    refine ⟨?_, fun _ => ?_, hl.served, hl.held, hdead⟩
    · simpa [Queue.pushesBack, or_imp, forall_and] using hl.back
    · simpa [Queue.popped] using hl.handled halive
  | wait | spurious | clear | join => exact ⟨hl.back, hl.handled, hl.served, hl.held, hdead⟩

theorem returned_update {threads : Fin T → ActorThread β} {i : Fin T} {old thread : ActorThread β}
    (hi : threads i = old) (hold : old ≠ .returned) (hthread : thread ≠ .returned) (j : Fin T) :
    Function.update threads i thread j = .returned ↔ threads j = .returned := by
  by_cases hij : j = i
  · subst hij
    simp [hi, hold, hthread]
  · simp [hij]

theorem Stopped.of_threads (hp : s.Stopped) (hmailbox : s'.mailbox.shared.exit = s.mailbox.shared.exit)
    (hpushed : Queue.pushed s.mailbox.log <+: Queue.pushed s'.mailbox.log)
    (hpopped : Queue.popped s.mailbox.log <+: Queue.popped s'.mailbox.log)
    (hthreads : ∀ i, s'.threads i = .returned ↔ s.threads i = .returned) (hstop : s'.stop = s.stop)
    (hatExit : s'.atExit = s.atExit) : s'.Stopped := by
  constructor
  · rw [hmailbox, hstop]
    exact hp.exited
  · intro hexit
    rw [hmailbox] at hexit
    rw [hatExit]
    exact (hp.received hexit).trans hpushed
  · intro i hi
    rw [hmailbox, hatExit]
    exact (hp.left i ((hthreads i).mp hi)).imp_right fun hle => hle.trans hpopped
  · intro n hn
    rw [hstop] at hn
    exact (hp.joined n hn).imp_right fun hall i hi => (hthreads i).mpr (hall i hi)

theorem stopped_of_draining (hexit : s.mailbox.shared.exit = false) (hthreads : ∀ i, s.threads i ≠ .returned)
    (hstop : ∀ n, s.stop ≠ .joined n) : s.Stopped where
  exited := by simp [hexit, hstop]
  received h := by simp [hexit] at h
  left i hi := absurd hi (hthreads i)
  joined n hn := absurd hn (hstop n)

theorem Stopped.step (hp : s.Stopped) (hs : s.InMailbox) (hl : s.Logged handlers) (h : step handlers s a = some s') :
    s'.Stopped := by
  cases step_outcome hs h with
  | enterMain hi =>
    exact hp.of_threads rfl List.prefix_rfl List.prefix_rfl (returned_update hi (by simp) (by simp)) rfl rfl
  | handle ha hi =>
    exact hp.of_threads rfl (by simp) (by simp) (returned_update hi (by simp) (by simp)) rfl rfl
  | fatal => exact hp.of_threads rfl (by simp) (by simp) (fun _ => .rfl) rfl rfl
  | @left i _ ha hi hbuffer hexit =>
    -- the mailbox is empty, so that all it received was taken
    have hall : Queue.popped s.mailbox.log = Queue.pushed s.mailbox.log := by
      have hfifo := (Queue.replays_perm (replays_of_reachable hs.reachable.of_restrict)).2 hl.back
      simpa [hbuffer, Queue.new] using hfifo
    have hpushed := hp.received hexit
    refine ⟨hp.exited, fun _ => by simpa [Queue.pushed] using hpushed, fun j _ => ⟨hexit, ?_⟩, fun n hn => ?_⟩
    · rw [← hall] at hpushed
      simpa using hpushed.trans (List.prefix_append _ _)
    · refine (hp.joined n hn).imp_right fun hall j hj => ?_
      by_cases hij : j = i
      · subst hij
        simp
      · simpa [hij] using hall j hj
  | finish hi =>
    exact hp.of_threads rfl List.prefix_rfl List.prefix_rfl (returned_update hi (by simp) (by simp)) rfl rfl
  | receive => exact hp.of_threads rfl (by simp) (by simp) (fun _ => .rfl) rfl rfl
  | empty hstop =>
    have hexit : s.mailbox.shared.exit = false := by simpa [hstop] using hp.exited
    refine stopped_of_draining hexit (fun i hi => ?_) fun n => ?_
    · simp [(hp.left i hi).1] at hexit
    · dsimp only
      split_ifs <;> simp
  | clear hstop =>
    have hexit : s.mailbox.shared.exit = false := by simpa [hstop] using hp.exited
    refine stopped_of_draining hexit (fun i hi => ?_) (by simp)
    simp [(hp.left i hi).1] at hexit
  | exit hstop =>
    have hexit : s.mailbox.shared.exit ≠ true := by simp [hp.exited, hstop]
    refine ⟨by simp, by simp, fun i hi => absurd (hp.left i hi).1 hexit, ?_⟩
    rintro n ⟨⟩
    exact ⟨zero_le, fun i hi => absurd hi i.val.not_lt_zero⟩
  | @join n hstop hn hreturned =>
    refine ⟨by simp [hp.exited, hstop], hp.received, hp.left, ?_⟩
    rintro m ⟨⟩
    refine ⟨hn, fun i hi => ?_⟩
    rcases Nat.lt_succ_iff_lt_or_eq.mp hi with hi | hi
    · exact (hp.joined n hstop).2 i hi
    · have heq : i = ⟨n, hn⟩ := Fin.ext hi
      rw [heq]
      exact hreturned
  | wait | spurious => exact ⟨hp.exited, hp.received, hp.left, hp.joined⟩

structure Inv (handlers : List MsgType) (s : ActorState β T) : Prop where
  inMailbox : s.InMailbox
  logged : s.Logged handlers
  stopped : s.Stopped

theorem Inv.step (hs : s.Inv handlers) (h : step handlers s a = some s') : s'.Inv handlers :=
  ⟨hs.inMailbox.step h, hs.logged.step hs.inMailbox h, hs.stopped.step hs.inMailbox hs.logged h⟩

theorem inv_of_reachable (h : Reachable (step handlers) new s) : s.Inv handlers :=
  h.invariant ⟨inMailbox_new, logged_new, stopped_new⟩ fun _ _ _ hx hstep => hx.step hstep

/-- What is taken out of the mailbox and what is still in it. -/
theorem Inv.received (hs : s.Inv handlers) :
    Queue.popped s.mailbox.log ++ s.mailbox.shared.buffer = Queue.pushed s.mailbox.log := by
  have hfifo := (Queue.replays_perm (replays_of_reachable hs.inMailbox.reachable.of_restrict)).2 hs.logged.back
  simpa [Queue.new] using hfifo

/-- Handlers are begun in the order in which the messages were received, each for the type that is registered. When
`Stop` has returned, all that was received before it left the mailbox has been handled to the end. -/
theorem stop_handles_received (h : Reachable (step handlers) new s) :
    (s.aborted = false → s.handled.map Prod.fst ++ s.mailbox.shared.buffer = Queue.pushed s.mailbox.log) ∧
      (∀ e ∈ s.handled, handler handlers e.1.type = some e.2) ∧
      (0 < T → s.stop = .joined T →
        s.atExit <+: s.handled.map Prod.fst ∧ s.finished.Perm (s.handled.map Prod.fst)) := by
  have hs := inv_of_reachable h
  refine ⟨fun halive => ?_, hs.logged.served, fun hT hstop => ?_⟩
  · rw [hs.logged.handled halive, hs.received]
  · have hreturned : ∀ i, s.threads i = .returned := fun i => (hs.stopped.joined T hstop).2 i i.isLt
    have halive : s.aborted = false := by
      by_contra hno
      obtain ⟨i, hi⟩ := hs.logged.aborted (by simpa using hno)
      simp [hreturned i] at hi
    constructor
    · rw [hs.logged.handled halive]
      exact (hs.stopped.left ⟨0, hT⟩ (hreturned _)).2
    · have hheld := hs.logged.held
      simp only [hreturned, held_returned, Finset.sum_const_zero, add_zero] at hheld
      exact Multiset.coe_eq_coe.mp hheld

open TwoParties in
/-- Two threads, a message to the one that is still asleep when the other finds the mailbox empty, and `Stop`. -/
theorem stop_handles_received_two : ∃ s : ActorState ℕ 2, s.stop = .joined 2 ∧ s.atExit.length = 1 ∧
    s.atExit <+: s.handled.map Prod.fst ∧ s.finished.Perm (s.handled.map Prod.fst) := by
  have hrun : (exec (step [.Request_Get]) (new : ActorState ℕ 2) [.enterMain 0, .pop 0, .enterMain 1,
      .receive ⟨0, 0, .Request_Get, 0, 0, []⟩ (some (some 0)), .pop 1, .resume 0, .empty, .clear, .exit, .finish 1,
      .resume 0, .pop 1, .join, .join]).isSome := by rfl
  obtain ⟨s, hs⟩ := Option.isSome_iff_exists.mp hrun
  have hstop : s.stop = .joined 2 := by
    cases hs
    rfl
  obtain ⟨-, -, hall⟩ := stop_handles_received ⟨_, hs⟩
  refine ⟨s, hstop, ?_, hall two_pos hstop⟩
  cases hs
  rfl

/-! ### Stop returns -/

/-- The moves of the threads that belong to the actor, and of the thread that joins them. -/
def own : ActorMove β T → Bool
  | .enterMain _ | .pop _ | .resume _ | .spurious _ | .finish _ | .join => true
  | _ => false

def receives : ActorMove β T → Bool
  | .receive _ _ => true
  | _ => false

/-- How many moves a thread makes before it calls `Pop` once more. -/
def toGo : ActorThread β → ℕ
  | .created => 2
  | .popping => 1
  | .handling _ => 2
  | .returned => 0

@[simp] theorem toGo_created : toGo (.created : ActorThread β) = 2 := rfl

@[simp] theorem toGo_popping : toGo (.popping : ActorThread β) = 1 := rfl

@[simp] theorem toGo_handling (msg : Message β) : toGo (.handling msg) = 2 := rfl

@[simp] theorem toGo_returned : toGo (.returned : ActorThread β) = 0 := rfl

def toJoin (T : ℕ) : StopPhase → ℕ
  | .joined n => T - n
  | _ => T

/-- A bound on the moves that are left once the mailbox was left. -/
def rank (s : ActorState β T) : ℕ :=
  2 * s.mailbox.shared.buffer.length + ∑ i, toGo (s.threads i) + toJoin T s.stop

theorem toGo_update {threads : Fin T → ActorThread β} {i : Fin T} {old : ActorThread β} (hi : threads i = old)
    (thread : ActorThread β) :
    ∑ j, toGo (Function.update threads i thread j) + toGo old = ∑ j, toGo (threads j) + toGo thread := by
  rw [← hi]
  exact Tally.sum_update toGo threads i thread

theorem own_of_pop {i : Fin T} (ha : a = .pop i ∨ a = .resume i) : own a = true ∧ receives a = false := by
  rcases ha with rfl | rfl <;> exact ⟨rfl, rfl⟩

/-- After Exit each move of the actor's own uses something up. -/
theorem rank_step (hs : s.Inv handlers) (hexit : s.mailbox.shared.exit = true) (h : step handlers s a = some s') :
    s'.mailbox.shared.exit = true ∧
      rank s' + (if own a then 1 else 0) ≤ rank s + if receives a then 2 else 0 := by
  obtain ⟨n, hjoined⟩ := hs.stopped.exited.mp hexit
  cases step_outcome hs.inMailbox h with
  | enterMain hi =>
    have hsum := toGo_update hi .popping
    refine ⟨hexit, ?_⟩
    simp only [toGo_created, toGo_popping] at hsum
    simp [rank, own, receives]
    omega
  | wait ha hi hbuffer hno => simp [hno] at hexit
  | @handle _ _ msg _ _ ha hi hbuffer htype =>
    have hsum := toGo_update hi (.handling msg)
    refine ⟨hexit, ?_⟩
    simp only [toGo_popping, toGo_handling] at hsum
    simp [rank, own_of_pop ha, hbuffer]
    omega
  | fatal ha hi hbuffer htype =>
    refine ⟨hexit, ?_⟩
    simp [rank, own_of_pop ha, hbuffer]
  | left ha hi hbuffer hno =>
    have hsum := toGo_update hi .returned
    refine ⟨hexit, ?_⟩
    simp only [toGo_popping, toGo_returned] at hsum
    simp [rank, own_of_pop ha, hbuffer]
    omega
  | @spurious i c hi =>
    obtain ⟨hno, -⟩ := Queue.sleeper_of_reachable hs.inMailbox.reachable (t := some i) (by rw [hi]; rfl)
    simp [hno] at hexit
  | finish hi =>
    have hsum := toGo_update hi .popping
    refine ⟨hexit, ?_⟩
    simp only [toGo_handling, toGo_popping] at hsum
    simp [rank, own, receives]
    omega
  | receive =>
    refine ⟨hexit, ?_⟩
    simp [rank, own, receives]
    omega
  | empty hstop | clear hstop | exit hstop =>
    rw [hjoined] at hstop
    cases hstop
  | join hstop hn =>
    refine ⟨hexit, ?_⟩
    simp [rank, own, receives, hstop, toJoin]
    omega

/-- After Exit no thread of the actor waits. -/
theorem own_enabled (hs : s.Inv handlers) (hexit : s.mailbox.shared.exit = true) (halive : s.aborted = false)
    {i : Fin T} (hi : s.threads i ≠ .returned) : ∃ a, own a = true ∧ (step handlers s a).isSome := by
  cases hthread : s.threads i with
  | created => exact ⟨.enterMain i, rfl, by simp [step, halive, hthread]⟩
  | popping =>
    obtain ⟨x, r, hx⟩ := Queue.pop_leaves (q := s.mailbox.shared) (.inr hexit)
    cases hphase : s.mailbox.phase (some i) with
    | outside => exact ⟨.pop i, rfl, by simp [step, halive, hthread, Monitor.step, hphase, critical, hx, wake]⟩
    | asleep c =>
      obtain ⟨hno, -⟩ := Queue.sleeper_of_reachable hs.inMailbox.reachable (t := some i) (by rw [hphase]; rfl)
      simp [hno] at hexit
    | woken c =>
      obtain rfl := hs.inMailbox.eq_pop (.inr hphase)
      exact ⟨.resume i, rfl, by simp [step, halive, Monitor.step, hphase, critical, hx, wake]⟩
  | handling msg => exact ⟨.finish i, rfl, by simp [step, halive, hthread]⟩
  | returned => exact absurd hthread hi

/-- After Exit the actor makes a bounded number of moves for the messages it has, and until `Stop` has joined the last
thread there is a move to make. -/
theorem stop_returns (h : Reachable (step handlers) new s) (hexit : s.mailbox.shared.exit = true) :
    (∀ as t, exec (step handlers) s as = some t → as.countP own ≤ rank s + 2 * as.countP receives) ∧
      (s.aborted = true ∨ s.stop = .joined T ∨ ∃ a, own a = true ∧ (step handlers s a).isSome) := by
  have hs := inv_of_reachable h
  constructor
  · intro as t ht
    have hle := exec_countP_le (fun s : ActorState β T => s.Inv handlers ∧ s.mailbox.shared.exit = true) rank own
      receives 2 (fun s a t hI hstep => ?_) ⟨hs, hexit⟩ ht
    · omega
    · obtain ⟨hexit, hrank⟩ := rank_step hI.1 hI.2 hstep
      exact ⟨⟨hI.1.step hstep, hexit⟩, hrank⟩
  · by_cases halive : s.aborted = true
    · exact .inl halive
    · refine .inr ?_
      obtain ⟨n, hn⟩ := hs.stopped.exited.mp hexit
      obtain ⟨hle, -⟩ := hs.stopped.joined n hn
      rcases hle.eq_or_lt with rfl | hlt
      · exact .inl hn
      · refine .inr ?_
        by_cases hi : s.threads ⟨n, hlt⟩ = .returned
        · exact ⟨.join, rfl, by simp [step, halive, hn, hlt, hi]⟩
        · exact own_enabled hs hexit (by simpa using halive) hi

open TwoParties in
/-- One thread is in a handler and one asleep when the mailbox is left. -/
theorem stop_returns_two : ∃ s : ActorState ℕ 2,
    (∀ as t, exec (step [.Request_Get]) s as = some t → as.countP own ≤ rank s + 2 * as.countP receives) ∧
      (s.aborted = true ∨ s.stop = .joined 2 ∨ ∃ a, own a = true ∧ (step [.Request_Get] s a).isSome) := by
  have hrun : (exec (step [.Request_Get]) (new : ActorState ℕ 2) [.enterMain 0, .pop 0, .enterMain 1, .pop 1,
      .receive ⟨0, 0, .Request_Get, 0, 0, []⟩ (some (some 0)), .resume 0, .empty, .clear, .exit]).isSome := by rfl
  obtain ⟨s, hs⟩ := Option.isSome_iff_exists.mp hrun
  have hexit : s.mailbox.shared.exit = true := by
    cases hs
    rfl
  exact ⟨s, stop_returns ⟨_, hs⟩ hexit⟩

end ActorState
end Hpps.Frame

import Hpps.Frame.Message
import Hpps.Lib.Channels
import Hpps.Lib.Refinement

/-! `Communicator`: messages between actors go through the communicator of their node, the net, and the communicator
of the node they are for. -/
namespace Hpps.Frame

open TransitionSystem

variable {β : Type} {N : ℕ}

/-- The nodes of a run: what is in the mailboxes of their communicators, on the net from one to the other, and what
their actors received, with the node that it came from. The logs `sent` are not read. -/
structure CommunicatorState (β : Type) (N : ℕ) where
  sent : Fin N → List (Message β)
  mailbox : Fin N → List (Message β)
  net : Fin N → Fin N → List (Message β)
  received : Fin N → Actor → List (Fin N × Message β)
  aborted : Option Stop

inductive CommunicatorMove (β : Type) (N : ℕ)
  | sendTo (n : Fin N) (msg : Message β)
  | processMessage (n : Fin N)
  | communicate (n src : Fin N)

namespace CommunicatorState

def new : CommunicatorState β N := ⟨fun _ => [], fun _ => [], fun _ _ => [], fun _ _ => [], none⟩

/-- The actors that were started on each node. The zoo has a mailbox of its own. -/
def runs (hosts : Fin N → Actor → Bool) (n : Fin N) (actor : Actor) : Bool := actor = .zoo || hosts n actor

def localForward (hosts : Fin N → Actor → Bool) (s : CommunicatorState β N) (n src : Fin N) (msg : Message β) :
    CommunicatorState β N :=
  if msg.dst ≠ n then { s with aborted := some .check }
  else
    let actor := Frame.localForward msg.type
    if runs hosts n actor then
      { s with
        received := Function.update s.received n
          (Function.update (s.received n) actor (s.received n actor ++ [(src, msg)])) }
    else { s with aborted := some .check }

/-- `net_util_->Send`: there is a sender for each rank. -/
def send (s : CommunicatorState β N) (n : Fin N) (msg : Message β) : CommunicatorState β N :=
  if h : 0 ≤ msg.dst ∧ msg.dst.toNat < N then
    let dst : Fin N := ⟨msg.dst.toNat, h.2⟩
    { s with net := Function.update s.net n (Function.update (s.net n) dst (s.net n dst ++ [msg])) }
  else { s with aborted := some .memory }

def step (hosts : Fin N → Actor → Bool) (s : CommunicatorState β N) (a : CommunicatorMove β N) :
    Option (CommunicatorState β N) :=
  if s.aborted.isSome then none
  else
    match a with
    | .sendTo n msg =>
      some { s with
        sent := Function.update s.sent n (s.sent n ++ [msg])
        mailbox := Function.update s.mailbox n (s.mailbox n ++ [msg]) }
    | .processMessage n =>
      match s.mailbox n with
      | [] => none
      | msg :: rest =>
        let s := { s with mailbox := Function.update s.mailbox n rest }
        some (if msg.dst ≠ n then s.send n msg else s.localForward hosts n n msg)
    | .communicate n src =>
      match s.net src n with
      | [] => none
      | msg :: rest =>
        let s := { s with net := Function.update s.net src (Function.update (s.net src) n rest) }
        some (s.localForward hosts n src msg)

/-- The message is for a node that runs the actor it is for. -/
def Addressed (hosts : Fin N → Actor → Bool) (msg : Message β) : Prop :=
  ∃ n : Fin N, msg.dst = n ∧ runs hosts n (Frame.localForward msg.type) = true

instance (hosts : Fin N → Actor → Bool) (msg : Message β) : Decidable (Addressed hosts msg) :=
  inferInstanceAs (Decidable (∃ n : Fin N, msg.dst = n ∧ runs hosts n (Frame.localForward msg.type) = true))

/-- The moves of a run in which actors send to actors that are there. -/
def Sends (hosts : Fin N → Actor → Bool) (_ : CommunicatorState β N) : CommunicatorMove β N → Prop
  | .sendTo _ msg => Addressed hosts msg
  | _ => True

instance (hosts : Fin N → Actor → Bool) (s : CommunicatorState β N) (a : CommunicatorMove β N) :
    Decidable (Sends hosts s a) :=
  match a with
  | .sendTo _ msg => inferInstanceAs (Decidable (Addressed hosts msg))
  | .processMessage _ | .communicate _ _ => isTrue trivial

/-- The rank and the actor that a message is for. -/
def route (msg : Message β) : ℤ × Actor := (msg.dst, Frame.localForward msg.type)

variable {hosts : Fin N → Actor → Bool} {s s' : CommunicatorState β N} {a : CommunicatorMove β N}
  {x : Channels.State (Fin N) (ℤ × Actor) (Message β)}

/-- What is under way to an actor, on the net before what is still in the mailbox. -/
def underWay (s : CommunicatorState β N) (n n' : Fin N) (actor : Actor) : List (Message β) :=
  (s.net n n' ++ s.mailbox n).filter fun msg => decide (route msg = ((n' : ℤ), actor))

/-- All that is under way can be forwarded, and a node sends nothing to itself on the net. -/
structure Clean (hosts : Fin N → Actor → Bool) (s : CommunicatorState β N) : Prop where
  alive : s.aborted = none
  addressed : ∀ n, ∀ msg ∈ s.mailbox n, Addressed hosts msg
  carried : ∀ n n', ∀ msg ∈ s.net n n', msg.dst = n' ∧ Addressed hosts msg
  own : ∀ n, s.net n n = []

/-- The nodes are channels between their actors. -/
structure Abstracts (hosts : Fin N → Actor → Bool) (s : CommunicatorState β N)
    (x : Channels.State (Fin N) (ℤ × Actor) (Message β)) : Prop where
  clean : s.Clean hosts
  sent : x.sent = s.sent
  inFlight : ∀ n (n' : Fin N) actor, x.inFlight n (n', actor) = s.underWay n n' actor
  delivered : ∀ (n : Fin N) actor, x.delivered (n, actor) = s.received n actor

theorem abstracts_new : (new : CommunicatorState β N).Abstracts hosts Channels.init where
  clean := ⟨rfl, nofun, nofun, fun _ => rfl⟩
  sent := rfl
  inFlight _ _ _ := rfl
  delivered _ _ := rfl

theorem route_ne {n n' : Fin N} {msg : Message β} {actor : Actor} (hdst : msg.dst = n) (hne : n ≠ n') :
    route msg ≠ ((n' : ℤ), actor) := by
  intro heq
  have hcast : (n : ℤ) = n' := hdst.symm.trans (Prod.mk.inj heq).1
  exact hne (Fin.ext (by exact_mod_cast hcast))

theorem localForward_of_addressed {n src : Fin N} {msg : Message β} (hdst : msg.dst = n) (h : Addressed hosts msg) :
    s.localForward hosts n src msg = { s with
      received := Function.update s.received n (Function.update (s.received n) (Frame.localForward msg.type)
        (s.received n (Frame.localForward msg.type) ++ [(src, msg)])) } := by
  obtain ⟨n', hn', hruns⟩ := h
  obtain rfl : n' = n := Fin.ext (by rw [hdst] at hn'; exact_mod_cast hn'.symm)
  simp [localForward, hdst, hruns]

theorem send_of_addressed {n n' : Fin N} {msg : Message β} (hdst : msg.dst = n') :
    s.send n msg = { s with
      net := Function.update s.net n (Function.update (s.net n) n' (s.net n n' ++ [msg])) } := by
  simp [send, hdst]

/-- What is under way once `msg`, the first from `src` to its actor, is taken out. -/
def Takes (s s' : CommunicatorState β N) (src : Fin N) (msg : Message β) : Prop :=
  ∀ n (n' : Fin N) actor, s.underWay n n' actor =
    if n = src ∧ route msg = ((n' : ℤ), actor) then msg :: s'.underWay n n' actor else s'.underWay n n' actor

theorem mem_update {ι α : Type} [DecidableEq ι] {f : ι → List α} {i j : ι} {l : List α} {a : α}
    (h : a ∈ Function.update f i l j) : j = i ∧ a ∈ l ∨ a ∈ f j := by
  by_cases hji : j = i
  · subst hji
    exact .inl ⟨rfl, by simpa using h⟩
  · exact .inr (by simpa [hji] using h)

/-- What a node can still receive once the messages from `i` to `j` are others, of which each could be carried. -/
theorem Clean.net_update (h : s.Clean hosts) {i j : Fin N} {l : List (Message β)} (hij : i ≠ j)
    (hl : ∀ msg ∈ l, msg.dst = j ∧ Addressed hosts msg) :
    (∀ n n', ∀ msg ∈ Function.update s.net i (Function.update (s.net i) j l) n n',
      msg.dst = n' ∧ Addressed hosts msg) ∧
      ∀ n, Function.update s.net i (Function.update (s.net i) j l) n n = [] := by
  constructor
  · intro n n' msg hmsg
    by_cases hn : n = i
    · subst hn
      rw [Function.update_self] at hmsg
      rcases mem_update hmsg with ⟨rfl, hmem⟩ | hmem
      · exact hl msg hmem
      · exact h.carried n n' msg hmem
    · rw [Function.update_of_ne hn] at hmsg
      exact h.carried n n' msg hmsg
  · intro n
    by_cases hn : n = i
    · subst hn
      simp [hij, h.own]
    · simp [hn, h.own]

/-- What is taken out is received. -/
theorem Abstracts.deliver {s₁ : CommunicatorState β N} {n src : Fin N} {msg : Message β} (h : s.Abstracts hosts x)
    (hclean : s₁.Clean hosts) (htakes : Takes s s₁ src msg) (hdst : msg.dst = n) (hmsg : Addressed hosts msg)
    (hsent : s₁.sent = s.sent) (hreceived : s₁.received = s.received) :
    ∃ x', TransitionSystem.Reachable (Channels.step route) x x' ∧
      (s₁.localForward hosts n src msg).Abstracts hosts x' := by
  rw [localForward_of_addressed hdst hmsg]
  set actor := Frame.localForward msg.type with hactor
  have hroute : route msg = ((n : ℤ), actor) := by rw [route, hdst]
  have hhead : x.inFlight src (n, actor) = msg :: s₁.underWay src n actor := by
    rw [h.inFlight, htakes, if_pos ⟨rfl, hroute⟩]
  refine ⟨_, .tail .refl (a := .deliver src (n, actor)) (by rw [Channels.step, hhead]), ?_, ?_, ?_, ?_⟩
  · exact ⟨hclean.alive, hclean.addressed, hclean.carried, hclean.own⟩
  · rw [h.sent]
    exact hsent.symm
  · intro m m' actor'
    have hunder := htakes m m' actor'
    rw [hroute] at hunder
    change Function.update x.inFlight src _ m ((m' : ℤ), actor') = s₁.underWay m m' actor'
    by_cases hm : m = src
    · subst hm
      by_cases hd : ((m' : ℤ), actor') = ((n : ℤ), actor)
      · rw [if_pos ⟨rfl, hd.symm⟩] at hunder
        rw [hd, Function.update_self, Function.update_self]
        obtain ⟨hm', rfl⟩ := Prod.mk.inj hd
        rw [show m' = n from Fin.ext (by exact_mod_cast hm')]
      · rw [if_neg fun hand => hd hand.2.symm] at hunder
        rw [Function.update_self, Function.update_of_ne hd, h.inFlight, hunder]
    · rw [if_neg fun hand => hm hand.1] at hunder
      rw [Function.update_of_ne hm, h.inFlight, hunder]
  · intro m actor'
    change Function.update x.delivered ((n : ℤ), actor) _ ((m : ℤ), actor') =
      Function.update s₁.received n _ m actor'
    by_cases hm : m = n
    · subst hm
      by_cases hactor' : actor' = actor
      · subst hactor'
        simp [h.delivered, hreceived]
      · simp [h.delivered, hreceived, hactor']
    · have hne : ((m : ℤ), actor') ≠ ((n : ℤ), actor) := by
        intro heq
        exact hm (Fin.ext (by exact_mod_cast (Prod.mk.inj heq).1))
      rw [Function.update_of_ne hne, Function.update_of_ne hm, h.delivered, hreceived]

theorem simulates : Simulates (restrict (Sends hosts) (step hosts)) (Channels.step route)
    (Abstracts (β := β) hosts) := by
  intro s a s' x h hstep
  obtain ⟨hsends, hstep⟩ := restrict_eq_some.mp hstep
  simp only [step, h.clean.alive, Option.isSome_none, Bool.false_eq_true, if_false] at hstep
  cases a with
  | sendTo n msg =>
    cases hstep
    refine ⟨_, .tail .refl (a := .send n msg) rfl, ⟨rfl, ?_, h.clean.carried, h.clean.own⟩, ?_, ?_, h.delivered⟩
    · intro m y hy
      rcases mem_update hy with ⟨rfl, hy⟩ | hy
      · rcases List.mem_append.mp hy with hy | hy
        · exact h.clean.addressed m y hy
        · rw [List.mem_singleton.mp hy]
          exact hsends
      · exact h.clean.addressed m y hy
    · simp [h.sent]
    · intro m m' actor
      by_cases hm : m = n
      · subst hm
        by_cases hd : ((m' : ℤ), actor) = route msg
        · have hx := h.inFlight m m' actor
          rw [hd] at hx
          simp [underWay, hd, hx]
        · simp [underWay, hd, Ne.symm hd, h.inFlight]
      · simp [underWay, hm, h.inFlight]
  | processMessage n =>
    dsimp only at hstep
    split at hstep
    · cases hstep
    · rename_i msg rest hmailbox
      have hmsg : Addressed hosts msg := h.clean.addressed n msg (by simp [hmailbox])
      have hrest : ∀ m, ∀ y ∈ Function.update s.mailbox n rest m, Addressed hosts y := by
        intro m y hy
        rcases mem_update hy with ⟨rfl, hy'⟩ | hy'
        · exact h.clean.addressed m y (by rw [hmailbox]; exact List.mem_cons_of_mem msg hy')
        · exact h.clean.addressed m y hy'
      by_cases hdst : msg.dst = n
      · rw [if_neg (by simpa using hdst)] at hstep
        cases hstep
        refine h.deliver ⟨rfl, hrest, h.clean.carried, h.clean.own⟩ ?_ hdst hmsg rfl rfl
        intro m m' actor
        by_cases hm : m = n
        · subst hm
          by_cases hd : route msg = ((m' : ℤ), actor)
          · have hm' : (m : ℤ) = m' := hdst.symm.trans (Prod.mk.inj hd).1
            obtain rfl : m = m' := Fin.ext (by exact_mod_cast hm')
            simp [underWay, hmailbox, h.clean.own, hd]
          · simp [underWay, hmailbox, hd]
        · simp [underWay, hm]
      · rw [if_pos hdst] at hstep
        obtain ⟨n', hn', hruns⟩ := id hmsg
        have hne : n' ≠ n := by
          rintro rfl
          exact hdst hn'
        rw [send_of_addressed hn'] at hstep
        cases hstep
        obtain ⟨hcarried, hown⟩ := h.clean.net_update (l := s.net n n' ++ [msg]) hne.symm (by
          simpa [or_imp, forall_and, hn', hmsg] using ⟨fun y hy => (h.clean.carried n n' y hy).1,
            fun y hy => (h.clean.carried n n' y hy).2⟩)
        refine ⟨x, .refl, ⟨rfl, hrest, hcarried, hown⟩, h.sent, ?_, h.delivered⟩
        · intro m m' actor
          rw [h.inFlight]
          by_cases hm : m = n
          · subst hm
            by_cases hm' : m' = n'
            · subst hm'
              simp [underWay, hmailbox]
            · simp [underWay, hmailbox, hm', route_ne hn' (Ne.symm hm')]
          · simp [underWay, hm]
  | communicate n src =>
    dsimp only at hstep
    split at hstep
    · cases hstep
    · rename_i msg rest hnet
      obtain ⟨hdst, hmsg⟩ := h.clean.carried src n msg (by simp [hnet])
      cases hstep
      have hne : src ≠ n := by
        rintro rfl
        simp [h.clean.own] at hnet
      obtain ⟨hcarried, hown⟩ := h.clean.net_update (l := rest) hne fun y hy =>
        h.clean.carried src n y (by simp [hnet, hy])
      refine h.deliver ⟨rfl, h.clean.addressed, hcarried, hown⟩ ?_ hdst hmsg rfl rfl
      intro m m' actor
      by_cases hm : m = src
      · subst hm
        by_cases hm' : m' = n
        · subst hm'
          by_cases hd : route msg = ((m' : ℤ), actor)
          · simp [underWay, hnet, hd]
          · simp [underWay, hnet, hd]
        · simp [underWay, hm', route_ne hdst (Ne.symm hm')]
      · simp [underWay, hm]

/-- No CHECK fails, each actor gets the messages of each node once and in the order in which they were sent, and while
one is under way a communicator can go on. -/
theorem channels_kept (h : Reachable (restrict (Sends hosts) (step hosts)) new s) :
    s.aborted = none ∧ ∀ n (n' : Fin N) actor,
      (s.sent n).filter (fun msg => decide (route msg = ((n' : ℤ), actor))) =
          Channels.receivedFrom n (s.received n' actor) ++ s.underWay n n' actor ∧
        (s.underWay n n' actor ≠ [] →
          (step hosts s (.processMessage n)).isSome ∨ (step hosts s (.communicate n' n)).isSome) := by
  obtain ⟨x, hx, habs⟩ := simulates.reachable (abstracts_new) h
  refine ⟨habs.clean.alive, fun n n' actor => ⟨?_, fun hunder => ?_⟩⟩
  · have hkept := Channels.kept_of_reachable hx n ((n' : ℤ), actor)
    rwa [habs.sent, habs.delivered, habs.inFlight] at hkept
  · cases hmailbox : s.mailbox n with
    | cons msg rest => exact .inl (by simp [step, habs.clean.alive, hmailbox])
    | nil =>
      cases hnet : s.net n n' with
      | cons msg rest => exact .inr (by simp [step, habs.clean.alive, hnet])
      | nil => exact absurd (by simp [underWay, hmailbox, hnet]) hunder

open TwoParties in
/-- Both nodes send to the controller of the first, one over the net. -/
theorem channels_kept_two : ∃ s : CommunicatorState ℕ 2, (s.received 0 .controller).length = 2 ∧
    s.aborted = none ∧ ∀ n (n' : Fin 2) actor,
      (s.sent n).filter (fun msg => decide (route msg = ((n' : ℤ), actor))) =
          Channels.receivedFrom n (s.received n' actor) ++ s.underWay n n' actor ∧
        (s.underWay n n' actor ≠ [] →
          (step (fun _ _ => true) s (.processMessage n)).isSome ∨ (step (fun _ _ => true) s (.communicate n' n)).isSome) := by
  have hrun : (exec (restrict (Sends fun _ _ => true) (step fun _ _ => true)) (new : CommunicatorState ℕ 2)
      [.sendTo 1 ⟨1, 0, .Control_Register, 0, 0, []⟩, .sendTo 0 ⟨0, 0, .Control_Register, 0, 0, []⟩,
        .processMessage 0, .processMessage 1, .communicate 0 1]).isSome := by rfl
  obtain ⟨s, hs⟩ := Option.isSome_iff_exists.mp hrun
  refine ⟨s, ?_, channels_kept ⟨_, hs⟩⟩
  cases hs
  rfl

end CommunicatorState
end Hpps.Frame

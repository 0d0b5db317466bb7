import Hpps.Frame.ZooState

/-! When a node stops its communicator nothing is left for it to send or to receive. -/
namespace Hpps.Frame
namespace ZooState

open TransitionSystem

variable {N : ℕ} [NeZero N] {R : Roles N} {s s' : ZooState N} {n n' src k : Fin N} {actor : Actor}
  {msg q : BarrierMsg} {rest : List BarrierMsg} {p : BarrierMsg → Prop} [DecidablePred p]

/-! ### The messages of a run -/

theorem forwards_of_processMessage {comm : CommunicatorState (List ℤ) N} (halive : s.comm.aborted = none)
    (haddressed : ∀ msg ∈ s.comm.mailbox n, CommunicatorState.Addressed R.hosts msg)
    (h : s.comm.step R.hosts (.processMessage n) = some comm) : s.Forwards n { s with comm } := by
  unfold CommunicatorState.step at h
  rw [if_neg (by simp [halive])] at h
  dsimp only at h
  split at h
  · cases h
  · rename_i msg rest hbox
    have hmsg := haddressed msg (by simp [hbox])
    obtain ⟨n', hn', -⟩ := id hmsg
    split at h
    · cases h
      rw [CommunicatorState.send_of_addressed hn']
      exact .send hbox hn'
    · rename_i hdst
      cases h
      rw [CommunicatorState.localForward_of_addressed (not_not.mp hdst) hmsg]
      exact .keep hbox (not_not.mp hdst)

theorem forwards_of_communicate {comm : CommunicatorState (List ℤ) N} (halive : s.comm.aborted = none)
    (haddressed : ∀ msg ∈ s.comm.net src n, msg.dst = n ∧ CommunicatorState.Addressed R.hosts msg)
    (h : s.comm.step R.hosts (.communicate n src) = some comm) : s.Forwards n { s with comm } := by
  unfold CommunicatorState.step at h
  rw [if_neg (by simp [halive])] at h
  dsimp only at h
  split at h
  · cases h
  · rename_i msg rest hnet
    obtain ⟨hdst, hmsg⟩ := haddressed msg (by simp [hnet])
    cases h
    rw [CommunicatorState.localForward_of_addressed hdst hmsg]
    exact .receive hnet hdst

/-- A request to a server, its answer, a request of a Barrier, or the reply to it. -/
inductive Legit (R : Roles N) (msg : BarrierMsg) : Prop
  | request (n : Fin N) (h : R.Request n msg)
  | answer (n : Fin N) (q : BarrierMsg) (h : R.Request n q) (hmsg : msg = q.createReplyMessage)
  | enter (n : Fin N) (hmsg : msg = Barrier.request n)
  | leave (n : Fin N) (hmsg : msg = reply n)

theorem src_reply : (reply k).src = ((0 : Fin N) : ℕ) := by
  simp [reply, Barrier.request, Message.createReplyMessage, kController]

theorem localForward_request (h : R.Request n msg) : localForward msg.type = .server :=
  if_pos h.2.2.2

theorem localForward_answer (h : R.Request n msg) : localForward msg.createReplyMessage.type = .worker := by
  have hpos : (0 : ℤ) < msg.type := h.2.2.2.1
  have hlt : (32 : ℤ) > msg.type := h.2.2.2.2
  have hno : ¬ ((0 : ℤ) < -msg.type ∧ -msg.type < (32 : ℤ)) := fun hand => by
    have := hand.1
    omega
  have hyes : (0 : ℤ) > -msg.type ∧ (-32 : ℤ) < -msg.type := ⟨by omega, by omega⟩
  exact (if_neg hno).trans (if_pos hyes)

theorem Legit.addressed (h : Legit R msg) : CommunicatorState.Addressed R.hosts msg := by
  cases h with
  | request n h =>
    obtain ⟨n', hdst, hhosts⟩ := h.2.2.1
    exact ⟨n', hdst, by simp [CommunicatorState.runs, localForward_request h, hhosts]⟩
  | answer n q h hmsg =>
    subst hmsg
    exact ⟨n, h.1, by simp [CommunicatorState.runs, localForward_answer h, h.2.1]⟩
  | enter n hmsg =>
    subst hmsg
    refine ⟨0, by simp [Barrier.request, kController], ?_⟩
    have hactor : localForward (Barrier.request n).type = .controller := rfl
    simp [CommunicatorState.runs, hactor, R.controller]
  | leave n hmsg =>
    subst hmsg
    exact ⟨n, rfl, by simp [CommunicatorState.runs, show localForward (reply n).type = .zoo from rfl]⟩

/-- Everything under way is legitimate and where it belongs. -/
structure Sound (R : Roles N) (s : ZooState N) : Prop where
  crash : s.crash = none
  aborted : s.comm.aborted = none
  room : s.Room
  legit : ∀ msg, 0 < s.count (· = msg) → Legit R msg
  own : ∀ n, ∀ msg ∈ s.comm.mailbox n, msg.src = n
  carried : ∀ n n', ∀ msg ∈ s.comm.net n n', msg.dst = n'
  routed : ∀ n actor, ∀ msg ∈ s.unhandled n actor, msg.dst = n ∧ localForward msg.type = actor

theorem sound_new : Sound R new where
  crash := rfl
  aborted := rfl
  room _ _ := le_rfl
  legit msg h := by
    rcases exists_of_count_pos h with ⟨_, _, h, _⟩ | ⟨_, _, _, h, _⟩ | ⟨_, _, _, h, _⟩ <;> cases h
  own := nofun
  carried := nofun
  routed := nofun

namespace Sound

theorem give (h : Sound R s) (hmsg : Legit R msg) (hsrc : msg.src = n) : Sound R (s.give n msg) where
  crash := h.crash
  aborted := h.aborted
  room := h.room
  legit q hq := by
    rw [count_give] at hq
    by_cases heq : msg = q
    · exact heq ▸ hmsg
    · rw [if_neg heq] at hq
      exact h.legit q hq
  own k q hq := by
    rcases CommunicatorState.mem_update hq with ⟨rfl, hq⟩ | hq
    · rcases List.mem_append.mp hq with hq | hq
      · exact h.own _ q hq
      · rw [List.mem_singleton.mp hq, hsrc]
    · exact h.own _ q hq
  carried := h.carried
  routed := h.routed

theorem pop (h : Sound R s) (hhead : s.unhandled n actor = msg :: rest) : Sound R (s.pop n actor) where
  crash := h.crash
  aborted := h.aborted
  room k other := by
    have hlt : s.handled n actor < (s.comm.received n actor).length := by
      have hlen := congrArg List.length hhead
      rw [unhandled, List.length_map, List.length_drop, List.length_cons] at hlen
      omega
    by_cases hk : k = n
    · subst hk
      by_cases ho : other = actor
      · subst ho
        simpa [ZooState.pop] using hlt
      · simpa [ZooState.pop, ho] using h.room k other
    · simpa [ZooState.pop, hk] using h.room k other
  legit q hq := h.legit q (by have := count_pop (p := (· = q)) hhead; omega)
  own := h.own
  carried := h.carried
  routed k other q hq := by
    refine h.routed k other q ?_
    rw [unhandled_pop hhead] at hq
    by_cases hk : k = n
    · subst hk
      rw [Function.update_self] at hq
      rcases CommunicatorState.mem_update hq with ⟨rfl, hmem⟩ | hmem
      · exact hhead ▸ List.mem_cons_of_mem _ hmem
      · exact hmem
    · rwa [Function.update_of_ne hk] at hq

theorem forwards (h : Sound R s) (hs : s.Forwards n s') : Sound R s' := by
  have hlegit : ∀ q, 0 < s'.count (· = q) → Legit R q := fun q hq => h.legit q (by rwa [hs.count h.room] at hq)
  have hunhandled : ∀ {k : Fin N} {q : BarrierMsg}, q.dst = k → ∀ i actor, ∀ x ∈
      Function.update s.unhandled k (Function.update (s.unhandled k) (localForward q.type)
        (s.unhandled k (localForward q.type) ++ [q])) i actor, x.dst = i ∧ localForward x.type = actor := by
    intro k q hq i actor x hx
    by_cases hi : i = k
    · subst hi
      rw [Function.update_self] at hx
      rcases CommunicatorState.mem_update hx with ⟨rfl, hmem⟩ | hmem
      · rcases List.mem_append.mp hmem with hmem | hmem
        · exact h.routed _ _ x hmem
        · rw [List.mem_singleton.mp hmem]
          exact ⟨hq, rfl⟩
      · exact h.routed _ _ x hmem
    · rw [Function.update_of_ne hi] at hx
      exact h.routed _ _ x hx
  cases hs with
  | @send n' msg rest hbox hdst =>
    refine ⟨h.crash, h.aborted, h.room, hlegit, fun k q hq => ?_, fun k k' q hq => ?_, h.routed⟩
    · rcases CommunicatorState.mem_update hq with ⟨rfl, hmem⟩ | hmem
      · exact h.own _ q (hbox ▸ List.mem_cons_of_mem _ hmem)
      · exact h.own _ q hmem
    · by_cases hk : k = n
      · subst hk
        change q ∈ Function.update s.comm.net k _ k k' at hq
        rw [Function.update_self] at hq
        rcases CommunicatorState.mem_update hq with ⟨rfl, hmem⟩ | hmem
        · rcases List.mem_append.mp hmem with hmem | hmem
          · exact h.carried _ _ q hmem
          · rw [List.mem_singleton.mp hmem, hdst]
        · exact h.carried _ _ q hmem
      · change q ∈ Function.update s.comm.net n _ k k' at hq
        rw [Function.update_of_ne hk] at hq
        exact h.carried _ _ q hq
  | @keep msg rest hbox hdst =>
    refine ⟨h.crash, h.aborted, h.room.receive, hlegit, fun k q hq => ?_, h.carried, ?_⟩
    · rcases CommunicatorState.mem_update hq with ⟨rfl, hmem⟩ | hmem
      · exact h.own _ q (hbox ▸ List.mem_cons_of_mem _ hmem)
      · exact h.own _ q hmem
    · have heq := unhandled_receive n msg (h.room n (localForward msg.type)) rfl
      have hrouted := hunhandled hdst
      rw [← heq] at hrouted
      exact hrouted
  | @receive src msg rest hnet hdst =>
    refine ⟨h.crash, h.aborted, h.room.receive, hlegit, h.own, fun k k' q hq => ?_, ?_⟩
    · by_cases hk : k = src
      · subst hk
        change q ∈ Function.update s.comm.net k _ k k' at hq
        rw [Function.update_self] at hq
        rcases CommunicatorState.mem_update hq with ⟨rfl, hmem⟩ | hmem
        · exact h.carried _ _ q (hnet ▸ List.mem_cons_of_mem _ hmem)
        · exact h.carried _ _ q hmem
      · change q ∈ Function.update s.comm.net src _ k k' at hq
        rw [Function.update_of_ne hk] at hq
        exact h.carried _ _ q hq
    · have heq := unhandled_receive src msg (h.room n (localForward msg.type)) rfl
      have hrouted := hunhandled hdst
      rw [← heq] at hrouted
      exact hrouted

end Sound

theorem traffic_request (h : R.Request n msg) : Traffic k msg ↔ n = k := by
  obtain ⟨hsrc, -, -, hpos, hlt⟩ := h
  have hneg : ¬ msg.type < 0 := not_lt.mpr hpos.le
  rw [Traffic, hsrc, cast_inj]
  simp [hpos, hlt, hneg]

theorem traffic_answer (h : R.Request n q) : Traffic k q.createReplyMessage ↔ n = k := by
  obtain ⟨hsrc, -, -, hpos, hlt⟩ := h
  have htype : q.createReplyMessage.type = -q.type := rfl
  have hdst : q.createReplyMessage.dst = q.src := rfl
  have hneg : ¬ (0 : ℤ) < -q.type := by
    have : (0 : ℤ) < q.type := hpos
    omega
  have hlo : (0 : ℤ) > -q.type ∧ (-32 : ℤ) < -q.type := by
    have : (0 : ℤ) < q.type := hpos
    have : (32 : ℤ) > q.type := hlt
    constructor <;> omega
  rw [Traffic, htype, hdst, hsrc, cast_inj]
  exact ⟨fun h => h.elim (fun h => absurd h.1 hneg) fun h => h.2.2, fun h => .inr ⟨hlo.1, hlo.2, h⟩⟩

/-- No reply was sent. -/
structure Collecting (s : ZooState N) : Prop where
  outbox : s.outbox = []
  replies : ∀ n : Fin N, s.count (· = reply n) = 0
  phase : ∀ n, s.phase n = .running ∨ s.phase n = .waiting

/-- The controller has the requests of all nodes. Its own reply is the last that its communicator is given. -/
structure Released (s : ZooState N) : Prop where
  tasks : s.tasks = []
  phase : ∀ n, s.phase n ≠ .running
  requests : ∀ n : Fin N, s.count (· = Barrier.request n) = 0
  last : ∀ msg ∈ (s.comm.mailbox 0 ++ s.outbox).getLast?, msg = reply (0 : Fin N)

structure Inv (R : Roles N) (s : ZooState N) : Prop extends Sound R s where
  traffic : ∀ n, s.count (Traffic n) = s.unanswered n
  idle : ∀ n, s.phase n ≠ .running → s.unanswered n = 0
  token : ∀ n, s.count (Token n) + s.tasks.countP (Token n) + s.outbox.countP (Token n) =
    if s.phase n = .waiting then 1 else 0
  tasks : ∃ ts : List (Fin N), s.tasks = ts.map Barrier.request ∧ ts.length < N
  replies : ∀ msg ∈ s.outbox, ∃ n : Fin N, msg = reply n
  round : s.Collecting ∨ s.Released

theorem inv_new : Inv R (new : ZooState N) where
  toSound := sound_new
  traffic _ := count_new
  idle _ _ := rfl
  token _ := by
    rw [count_new]
    rfl
  tasks := ⟨[], rfl, Nat.pos_of_ne_zero (NeZero.ne N)⟩
  replies := nofun
  round := .inl ⟨rfl, fun _ => count_new, fun _ => .inl rfl⟩

theorem last_tail {α : Type} {a b : α} {l : List α} (h : ∀ x ∈ (a :: l).getLast?, x = b) : ∀ x ∈ l.getLast?, x = b := by
  intro x hx
  refine h x ?_
  rw [Option.mem_def] at hx ⊢
  rw [List.getLast?_cons, hx]
  rfl

namespace Inv

theorem request_of_server (h : Inv R s) (hmsg : msg ∈ s.unhandled n .server) : ∃ k, R.Request k msg := by
  obtain ⟨-, hactor⟩ := h.routed n .server msg hmsg
  cases h.legit msg (count_pos_of_unhandled hmsg rfl) with
  | request k h => exact ⟨k, h⟩
  | answer k q hq heq =>
    rw [heq, localForward_answer hq] at hactor
    cases hactor
  | enter k heq =>
    rw [heq] at hactor
    cases hactor
  | leave k heq =>
    rw [heq] at hactor
    cases hactor

theorem answer_of_worker (h : Inv R s) (hmsg : msg ∈ s.unhandled n .worker) :
    ∃ q, R.Request n q ∧ msg = q.createReplyMessage := by
  obtain ⟨hdst, hactor⟩ := h.routed n .worker msg hmsg
  cases h.legit msg (count_pos_of_unhandled hmsg rfl) with
  | request k hq =>
    rw [localForward_request hq] at hactor
    cases hactor
  | answer k q hq heq =>
    subst heq
    obtain rfl : k = n := cast_inj.mp (hq.1.symm.trans hdst)
    exact ⟨q, hq, rfl⟩
  | enter k heq =>
    rw [heq] at hactor
    cases hactor
  | leave k heq =>
    rw [heq] at hactor
    cases hactor

theorem enter_of_controller (h : Inv R s) (hmsg : msg ∈ s.unhandled n .controller) :
    ∃ k : Fin N, msg = Barrier.request k := by
  obtain ⟨-, hactor⟩ := h.routed n .controller msg hmsg
  cases h.legit msg (count_pos_of_unhandled hmsg rfl) with
  | request k hq =>
    rw [localForward_request hq] at hactor
    cases hactor
  | answer k q hq heq =>
    rw [heq, localForward_answer hq] at hactor
    cases hactor
  | enter k heq => exact ⟨k, heq⟩
  | leave k heq =>
    rw [heq] at hactor
    cases hactor

theorem reply_of_zoo (h : Inv R s) (hmsg : msg ∈ s.unhandled n .zoo) : msg = reply n := by
  obtain ⟨hdst, hactor⟩ := h.routed n .zoo msg hmsg
  cases h.legit msg (count_pos_of_unhandled hmsg rfl) with
  | request k hq =>
    rw [localForward_request hq] at hactor
    cases hactor
  | answer k q hq heq =>
    rw [heq, localForward_answer hq] at hactor
    cases hactor
  | enter k heq =>
    rw [heq] at hactor
    cases hactor
  | leave k heq =>
    subst heq
    obtain rfl : k = n := cast_inj.mp hdst
    rfl

/-- A node that makes no more requests has none on its way. -/
theorem running_of_traffic (h : Inv R s) (hpos : 0 < s.count (Traffic n)) : s.phase n = .running := by
  by_contra hphase
  rw [h.traffic n, h.idle n hphase] at hpos
  omega

theorem forwards (h : Inv R s) (hs : s.Forwards n s') : Inv R s' := by
  have hcount : ∀ (p : BarrierMsg → Prop) [DecidablePred p], s'.count p = s.count p := fun p _ => hs.count h.room
  obtain ⟨htasks, houtbox, hunanswered, hphase⟩ : s'.tasks = s.tasks ∧ s'.outbox = s.outbox ∧
      s'.unanswered = s.unanswered ∧ s'.phase = s.phase := by
    cases hs <;> exact ⟨rfl, rfl, rfl, rfl⟩
  have hmailbox : s'.comm.mailbox 0 = s.comm.mailbox 0 ∨ ∃ msg, s.comm.mailbox 0 = msg :: s'.comm.mailbox 0 := by
    cases hs with
    | @send n' msg rest hbox hdst =>
      by_cases hn : 0 = n
      · subst hn
        exact .inr ⟨msg, by simpa using hbox⟩
      · exact .inl (by simp [hn])
    | @keep msg rest hbox hdst =>
      by_cases hn : 0 = n
      · subst hn
        exact .inr ⟨msg, by simpa using hbox⟩
      · exact .inl (by simp [hn])
    | receive => exact .inl rfl
  refine ⟨h.toSound.forwards hs, fun i => ?_, fun i => ?_, fun i => ?_, ?_, ?_, ?_⟩
  · rw [hcount, hunanswered, h.traffic]
  · rw [hunanswered, hphase]
    exact h.idle i
  · rw [hcount, htasks, houtbox, hphase, h.token]
  · rw [htasks]
    exact h.tasks
  · rw [houtbox]
    exact h.replies
  · rcases h.round with hr | hr
    · exact .inl ⟨houtbox.trans hr.outbox, fun i => (hcount _).trans (hr.replies i), by rw [hphase]; exact hr.phase⟩
    · refine .inr ⟨htasks.trans hr.tasks, by rw [hphase]; exact hr.phase,
        fun i => (hcount _).trans (hr.requests i), ?_⟩
      rw [houtbox]
      rcases hmailbox with heq | ⟨msg, heq⟩
      · rw [heq]
        exact hr.last
      · have hlast := hr.last
        rw [heq, List.cons_append] at hlast
        exact last_tail hlast

theorem request (h : Inv R s) (hphase : s.phase n = .running) (hmsg : R.Request n msg) :
    Inv R { s.give n msg with unanswered := Function.update s.unanswered n (s.unanswered n + 1) } := by
  have hown : Traffic n msg := (traffic_request hmsg).mpr rfl
  have hreply : ∀ i : Fin N, msg ≠ reply i := by
    rintro i rfl
    exact not_traffic_reply hown
  refine ⟨{ h.toSound.give (.request n hmsg) hmsg.1 with }, fun i => ?_, fun i hi => ?_, fun i => ?_, h.tasks,
    h.replies, ?_⟩
  · change (s.give n msg).count (Traffic i) = Function.update s.unanswered n (s.unanswered n + 1) i
    rw [count_give, h.traffic]
    by_cases hn : i = n
    · subst hn
      simp [hown]
    · simp [traffic_request hmsg, hn, Ne.symm hn]
  · have hn : i ≠ n := by
      rintro rfl
      exact hi hphase
    change Function.update s.unanswered n (s.unanswered n + 1) i = 0
    rw [Function.update_of_ne hn]
    exact h.idle i hi
  · change (s.give n msg).count (Token i) + _ + _ = _
    rw [count_give, if_neg (not_token_of_traffic hown)]
    exact h.token i
  · rcases h.round with hr | hr
    · refine .inl ⟨hr.outbox, fun i => ?_, hr.phase⟩
      change (s.give n msg).count (· = reply i) = 0
      rw [count_give, if_neg (hreply i)]
      exact hr.replies i
    · exact absurd hphase (hr.phase n)

theorem serve (h : Inv R s) (hhead : s.unhandled n .server = msg :: rest) :
    Inv R ((s.pop n .server).give n msg.createReplyMessage) := by
  have hmem : msg ∈ s.unhandled n .server := hhead ▸ List.mem_cons_self
  obtain ⟨k, hk⟩ := h.request_of_server hmem
  have hown : Traffic k msg := (traffic_request hk).mpr rfl
  have hback : Traffic k msg.createReplyMessage := (traffic_answer hk).mpr rfl
  have hcount : ∀ (p : BarrierMsg → Prop) [DecidablePred p], (p msg ↔ p msg.createReplyMessage) →
      ((s.pop n .server).give n msg.createReplyMessage).count p = s.count p := by
    intro p _ hiff
    have hpop := count_pop (p := p) hhead
    rw [count_give, ← hpop]
    simp only [hiff]
  have htoken : ∀ i : Fin N, Token i msg ↔ Token i msg.createReplyMessage := fun i =>
    iff_of_false (not_token_of_traffic hown) (not_token_of_traffic hback)
  refine ⟨(h.toSound.pop hhead).give (.answer k msg hk rfl) (h.routed n .server msg hmem).1, fun i => ?_, h.idle,
    fun i => ?_, h.tasks, h.replies, ?_⟩
  · rw [hcount _ ((traffic_request hk).trans (traffic_answer hk).symm)]
    exact h.traffic i
  · rw [hcount _ (htoken i)]
    exact h.token i
  · rcases h.round with hr | hr
    · refine .inl ⟨hr.outbox, fun i => ?_, hr.phase⟩
      rw [hcount]
      · exact hr.replies i
      · refine iff_of_false ?_ ?_
        · rintro rfl
          exact not_traffic_reply hown
        · intro heq
          exact not_traffic_reply (heq ▸ hback)
    · exact absurd (h.running_of_traffic (count_pos_of_unhandled hmem hown)) (hr.phase k)

theorem notify (h : Inv R s) (hhead : s.unhandled n .worker = msg :: rest) :
    Inv R { s.pop n .worker with unanswered := Function.update s.unanswered n (s.unanswered n - 1) } := by
  have hmem : msg ∈ s.unhandled n .worker := hhead ▸ List.mem_cons_self
  obtain ⟨q, hq, rfl⟩ := h.answer_of_worker hmem
  have hown : Traffic n q.createReplyMessage := (traffic_answer hq).mpr rfl
  have hrunning := h.running_of_traffic (count_pos_of_unhandled hmem hown)
  refine ⟨{ h.toSound.pop hhead with }, fun i => ?_, fun i hi => ?_, fun i => ?_, h.tasks, h.replies, ?_⟩
  · have hpop := count_pop (p := Traffic i) hhead
    change (s.pop n .worker).count (Traffic i) = Function.update s.unanswered n (s.unanswered n - 1) i
    rw [h.traffic] at hpop
    by_cases hn : i = n
    · subst hn
      rw [if_pos hown] at hpop
      rw [Function.update_self]
      omega
    · rw [if_neg fun ht => hn ((traffic_answer hq).mp ht).symm] at hpop
      rw [Function.update_of_ne hn]
      omega
  · have hn : i ≠ n := by
      rintro rfl
      exact hi hrunning
    change Function.update s.unanswered n (s.unanswered n - 1) i = 0
    rw [Function.update_of_ne hn]
    exact h.idle i hi
  · have hpop := count_pop (p := Token i) hhead
    rw [if_neg (not_token_of_traffic hown)] at hpop
    change (s.pop n .worker).count (Token i) + _ + _ = _
    rw [Nat.add_zero] at hpop
    rw [hpop]
    exact h.token i
  · rcases h.round with hr | hr
    · refine .inl ⟨hr.outbox, fun i => ?_, hr.phase⟩
      have hpop := count_pop (p := (· = reply i)) hhead
      rw [hr.replies i] at hpop
      change (s.pop n .worker).count (· = reply i) = 0
      omega
    · exact absurd hrunning (hr.phase n)

/-- What is under way belongs to a request, or to the Barrier. -/
theorem traffic_or_token (h : Inv R s) (hmsg : 0 < s.count (· = msg)) : ∃ n : Fin N, Traffic n msg ∨ Token n msg := by
  cases h.legit msg hmsg with
  | request k hk => exact ⟨k, .inl ((traffic_request hk).mpr rfl)⟩
  | answer k q hq heq => exact ⟨k, .inl (heq ▸ (traffic_answer hq).mpr rfl)⟩
  | enter k heq => exact ⟨k, .inr (.inl heq)⟩
  | leave k heq => exact ⟨k, .inr (.inr heq)⟩

theorem pop_enter (h : Inv R s) (hhead : s.unhandled 0 .controller = Barrier.request k :: rest) (i : Fin N) :
    (s.pop 0 .controller).count (Traffic i) = s.unanswered i ∧
      (s.pop 0 .controller).count (Token i) + (if k = i then 1 else 0) = s.count (Token i) := by
  have htraffic := count_pop (p := Traffic i) hhead
  have htoken := count_pop (p := Token i) hhead
  rw [if_neg not_traffic_enter, h.traffic] at htraffic
  simp only [token_enter] at htoken
  exact ⟨htraffic, htoken⟩

/-- The Barrier's controller takes a request, and when it has those of all nodes it answers them. -/
theorem control (h : Inv R s) (hout : s.outbox = []) (hhead : s.unhandled 0 .controller = msg :: rest) :
    msg.type = .Control_Barrier ∧ ∃ tasks sent, BarrierController.control N s.tasks msg = .ok (tasks, sent) ∧
      sent.length + tasks.length ≤ s.tasks.length + 1 ∧ (sent = [] ∨ tasks = []) ∧
      Inv R { s.pop 0 .controller with tasks, outbox := sent } := by
  have hmem : msg ∈ s.unhandled 0 .controller := hhead ▸ List.mem_cons_self
  obtain ⟨k, rfl⟩ := h.enter_of_controller hmem
  obtain ⟨ts, hts, hlt⟩ := h.tasks
  have hr : s.Collecting := h.round.resolve_right fun hr =>
    (count_pos_of_unhandled (p := (· = Barrier.request k)) hmem rfl).ne' (hr.requests k)
  have htoken : ∀ i, (s.pop 0 .controller).count (Token i) + (ts ++ [k]).count i =
      if s.phase i = .waiting then 1 else 0 := by
    intro i
    have hold := h.token i
    rw [hts, countP_enter, hout, List.countP_nil] at hold
    have hpop := (h.pop_enter hhead i).2
    rw [List.count_append, List.count_singleton]
    simp only [beq_iff_eq]
    omega
  have hnodup : (ts ++ [k]).Nodup := List.nodup_iff_count_le_one.mpr fun i => by
    have := htoken i
    split at this <;> omega
  have hmap : s.tasks ++ [Barrier.request k] = (ts ++ [k]).map Barrier.request := by simp [hts]
  refine ⟨rfl, ?_⟩
  rw [BarrierController.control, hmap, List.length_map]
  by_cases hfull : (ts ++ [k]).length = N
  · obtain ⟨ps, hps, hall, sent, myReply, hsent, heq⟩ := Barrier.control_full hfull hnodup k
    have hin : ∀ i, i ∈ ts ++ [k] := Barrier.mem_of_full hfull hnodup
    have hone : ∀ i, (s.pop 0 .controller).count (Token i) = 0 ∧ s.phase i = .waiting := by
      intro i
      have hi := htoken i
      have hcount : (ts ++ [k]).count i = 1 := List.count_eq_one_of_mem hnodup (hin i)
      split at hi
      · rename_i hphase
        exact ⟨by omega, hphase⟩
      · omega
    have hlast : myReply = reply (0 : Fin N) := by
      have hreplies := congrArg Prod.snd (hsent.symm.trans (Barrier.replies_eq (ts ++ [k])))
      obtain ⟨z, hz, hreply⟩ := Option.map_eq_some_iff.mp hreplies.symm
      have hzero : (z : ℕ) = 0 := by simpa using (List.mem_filter.mp (List.mem_of_getLast? hz)).2
      obtain rfl : z = 0 := Fin.ext (by simpa using hzero)
      exact hreply.symm
    have hbox : s.comm.mailbox 0 = [] := by
      rw [List.eq_nil_iff_forall_not_mem]
      intro q hq
      obtain ⟨i, hi | hi⟩ := h.traffic_or_token (count_pos_of_mailbox (p := (· = q)) hq rfl)
      · have hrunning := h.running_of_traffic (count_pos_of_mailbox hq hi)
        rw [(hone i).2] at hrunning
        cases hrunning
      · exact (count_pos_of_mailbox (s := s.pop 0 .controller) hq hi).ne' (hone i).1
    have houtbox : sent ++ [myReply] = ps.map reply := heq
    have hlen : ps.length = N := by
      have hcard := List.toFinset_card_of_nodup hps
      rw [Finset.eq_univ_of_forall fun i => List.mem_toFinset.mpr (hall i), Finset.card_univ, Fintype.card_fin] at hcard
      exact hcard.symm
    refine ⟨[], sent ++ [myReply], by rw [if_pos hfull, hsent], ?_, .inr rfl, { h.toSound.pop hhead with },
      fun i => (h.pop_enter hhead i).1, h.idle, fun i => ?_, ⟨[], rfl, Nat.pos_of_ne_zero (NeZero.ne N)⟩, ?_, .inr ?_⟩
    · have hfull' : ts.length + 1 = N := by simpa using hfull
      rw [houtbox, List.length_map, hlen, hts, List.length_map]
      simp [hfull']
    · change (s.pop 0 .controller).count (Token i) + ([] : List BarrierMsg).countP _ + (sent ++ [myReply]).countP _ =
        if s.phase i = .waiting then 1 else 0
      rw [houtbox, countP_reply, (hone i).1, (hone i).2, List.count_eq_one_of_mem hps (hall i)]
      rfl
    · intro q hq
      have hq' : q ∈ ps.map reply := houtbox ▸ hq
      obtain ⟨i, -, rfl⟩ := List.mem_map.mp hq'
      exact ⟨i, rfl⟩
    · refine ⟨rfl, fun i => ?_, fun i => ?_, fun q hq => ?_⟩
      · change s.phase i ≠ .running
        simp [(hone i).2]
      · exact count_eq_zero_of_imp (p := Token i) (hone i).1 fun q hq => .inl hq
      · change q ∈ (s.comm.mailbox 0 ++ (sent ++ [myReply])).getLast? at hq
        rw [hbox, List.nil_append, List.getLast?_append, Option.mem_def] at hq
        rw [← hlast]
        exact (Option.some.inj hq).symm
  · have hle : (ts ++ [k]).length ≤ N := by simpa using hnodup.length_le_card
    refine ⟨(ts ++ [k]).map Barrier.request, [], by rw [if_neg hfull], by simp [hts], .inl rfl,
      { h.toSound.pop hhead with }, fun i => (h.pop_enter hhead i).1, h.idle, fun i => ?_, ⟨ts ++ [k], rfl, by omega⟩,
      by simp, .inl ⟨rfl, fun i => ?_, hr.phase⟩⟩
    · change (s.pop 0 .controller).count (Token i) + ((ts ++ [k]).map Barrier.request).countP _ + 0 = _
      rw [countP_enter]
      exact htoken i
    · have hpop := count_pop (p := (· = reply i)) hhead
      rw [hr.replies i] at hpop
      change (s.pop 0 .controller).count (· = reply i) = 0
      omega

theorem sendReply (h : Inv R s) (hout : s.outbox = msg :: rest) : Inv R { s.give 0 msg with outbox := rest } := by
  obtain ⟨k, rfl⟩ := h.replies msg (hout ▸ List.mem_cons_self)
  have hr : s.Released := h.round.resolve_left fun hr => by
    have := hr.outbox
    rw [hout] at this
    cases this
  refine ⟨{ h.toSound.give (.leave k rfl) src_reply with }, fun i => ?_, h.idle, fun i => ?_, h.tasks,
    fun q hq => h.replies q (hout ▸ List.mem_cons_of_mem _ hq), .inr ⟨hr.tasks, hr.phase, fun i => ?_, ?_⟩⟩
  · change (s.give 0 (reply k)).count (Traffic i) = _
    rw [count_give, if_neg not_traffic_reply]
    exact h.traffic i
  · have hold := h.token i
    rw [hout, List.countP_cons] at hold
    change (s.give 0 (reply k)).count (Token i) + s.tasks.countP (Token i) + rest.countP (Token i) =
      if s.phase i = .waiting then 1 else 0
    rw [count_give, ← hold]
    simp only [decide_eq_true_eq]
    omega
  · change (s.give 0 (reply k)).count (· = Barrier.request i) = 0
    rw [count_give, if_neg enter_ne_reply.symm]
    exact hr.requests i
  · have hlast := hr.last
    rw [hout] at hlast
    simpa [ZooState.give] using hlast

theorem enter (h : Inv R s) (hphase : s.phase n = .running) (hnone : s.unanswered n = 0) :
    Inv R ((s.give n (Barrier.request n)).setPhase n .waiting) := by
  have hr : s.Collecting := h.round.resolve_right fun hr => hr.phase n hphase
  refine ⟨{ h.toSound.give (.enter n rfl) rfl with }, fun i => ?_, fun i hi => ?_, fun i => ?_, h.tasks, h.replies,
    .inl ⟨hr.outbox, fun i => ?_, fun i => ?_⟩⟩
  · change (s.give n (Barrier.request n)).count (Traffic i) = _
    rw [count_give, if_neg not_traffic_enter]
    exact h.traffic i
  · by_cases hn : i = n
    · subst hn
      exact hnone
    · change Function.update s.phase n .waiting i ≠ .running at hi
      rw [Function.update_of_ne hn] at hi
      exact h.idle i hi
  · have hold := h.token i
    change (s.give n (Barrier.request n)).count (Token i) + s.tasks.countP (Token i) + s.outbox.countP (Token i) =
      if Function.update s.phase n .waiting i = .waiting then 1 else 0
    rw [count_give]
    by_cases hn : i = n
    · subst hn
      rw [if_neg (by rw [hphase]; exact nofun)] at hold
      simp only [token_enter, Function.update_self, if_true]
      omega
    · rw [Function.update_of_ne hn, if_neg fun ht => hn (token_enter.mp ht).symm]
      exact hold
  · change (s.give n (Barrier.request n)).count (· = reply i) = 0
    rw [count_give, if_neg enter_ne_reply]
    exact hr.replies i
  · change Function.update s.phase n .waiting i = .running ∨ Function.update s.phase n .waiting i = .waiting
    by_cases hn : i = n
    · subst hn
      exact .inr (Function.update_self ..)
    · rw [Function.update_of_ne hn]
      exact hr.phase i

theorem leave (h : Inv R s) (hphase : s.phase n = .waiting) (hhead : s.unhandled n .zoo = msg :: rest) :
    msg.type = .Control_Reply_Barrier ∧ Inv R ((s.pop n .zoo).setPhase n .returned) := by
  have hmem : msg ∈ s.unhandled n .zoo := hhead ▸ List.mem_cons_self
  obtain rfl := h.reply_of_zoo hmem
  have hr : s.Released := h.round.resolve_left fun hr =>
    (count_pos_of_unhandled (p := (· = reply n)) hmem rfl).ne' (hr.replies n)
  refine ⟨rfl, { h.toSound.pop hhead with }, fun i => ?_, fun i hi => ?_, fun i => ?_, h.tasks, h.replies,
    .inr ⟨hr.tasks, fun i => ?_, fun i => ?_, hr.last⟩⟩
  · have hpop := count_pop (p := Traffic i) hhead
    rw [if_neg not_traffic_reply, Nat.add_zero] at hpop
    exact hpop.trans (h.traffic i)
  · exact h.idle i (hr.phase i)
  · have hold := h.token i
    have hpop := count_pop (p := Token i) hhead
    change (s.pop n .zoo).count (Token i) + s.tasks.countP (Token i) + s.outbox.countP (Token i) =
      if Function.update s.phase n .returned i = .waiting then 1 else 0
    by_cases hn : i = n
    · subst hn
      rw [if_pos hphase] at hold
      rw [if_pos (token_reply.mpr rfl)] at hpop
      rw [Function.update_self, if_neg nofun]
      omega
    · rw [if_neg fun ht => hn (token_reply.mp ht).symm] at hpop
      rw [Function.update_of_ne hn, ← hold]
      omega
  · change Function.update s.phase n .returned i ≠ .running
    by_cases hn : i = n
    · subst hn
      rw [Function.update_self]
      exact nofun
    · rw [Function.update_of_ne hn]
      exact hr.phase i
  · have hpop := count_pop (p := (· = Barrier.request i)) hhead
    rw [hr.requests i] at hpop
    change (s.pop n .zoo).count (· = Barrier.request i) = 0
    omega

/-- A node that has returned from the Barrier goes on. -/
theorem setPhase {phase : NodePhase} (h : Inv R s) (hfrom : s.phase n ≠ .running ∧ s.phase n ≠ .waiting)
    (hto : phase ≠ .running ∧ phase ≠ .waiting) : Inv R (s.setPhase n phase) := by
  have hr : s.Released := h.round.resolve_left fun hr => (hr.phase n).elim hfrom.1 hfrom.2
  refine ⟨{ h.toSound with }, h.traffic, fun i hi => h.idle i (hr.phase i), fun i => ?_, h.tasks, h.replies,
    .inr ⟨hr.tasks, fun i => ?_, hr.requests, hr.last⟩⟩
  · have hold := h.token i
    change s.count (Token i) + s.tasks.countP (Token i) + s.outbox.countP (Token i) =
      if Function.update s.phase n phase i = .waiting then 1 else 0
    by_cases hn : i = n
    · subst hn
      rw [if_neg hfrom.2] at hold
      rw [Function.update_self, if_neg hto.2]
      exact hold
    · rw [Function.update_of_ne hn]
      exact hold
  · by_cases hn : i = n
    · subst hn
      simpa [ZooState.setPhase] using hto.1
    · simpa [ZooState.setPhase, hn] using hr.phase i

end Inv

/-- What a move does. -/
inductive Moves (R : Roles N) (s : ZooState N) : ZooMove N → ZooState N → Prop
  | request {n : Fin N} {msg : BarrierMsg} (hphase : s.phase n = .running) (hmsg : R.Request n msg) :
      Moves R s (.request n msg)
        { s.give n msg with unanswered := Function.update s.unanswered n (s.unanswered n + 1) }
  | forward {a : ZooMove N} {n : Fin N} {s' : ZooState N} (h : s.Forwards n s') (ha : a.isRequest = false) :
      Moves R s a s'
  | serve {n : Fin N} {msg : BarrierMsg} {rest : List BarrierMsg} (hhead : s.unhandled n .server = msg :: rest) :
      Moves R s (.serve n) ((s.pop n .server).give n msg.createReplyMessage)
  | notify {n : Fin N} {msg : BarrierMsg} {rest : List BarrierMsg} (hhead : s.unhandled n .worker = msg :: rest) :
      Moves R s (.notify n)
        { s.pop n .worker with unanswered := Function.update s.unanswered n (s.unanswered n - 1) }
  | control {msg : BarrierMsg} {rest tasks sent : List BarrierMsg} (hout : s.outbox = [])
      (hhead : s.unhandled 0 .controller = msg :: rest)
      (hcontrol : BarrierController.control N s.tasks msg = .ok (tasks, sent)) :
      Moves R s .control { s.pop 0 .controller with tasks, outbox := sent }
  | sendReply {msg : BarrierMsg} {rest : List BarrierMsg} (hout : s.outbox = msg :: rest) :
      Moves R s .sendReply { s.give 0 msg with outbox := rest }
  | enter {n : Fin N} (hphase : s.phase n = .running) (hnone : s.unanswered n = 0) :
      Moves R s (.enter n) ((s.give n (Barrier.request n)).setPhase n .waiting)
  | leave {n : Fin N} {msg : BarrierMsg} {rest : List BarrierMsg} (hphase : s.phase n = .waiting)
      (hhead : s.unhandled n .zoo = msg :: rest) : Moves R s (.leave n) ((s.pop n .zoo).setPhase n .returned)
  | exit {n : Fin N} (hphase : s.phase n = .returned) : Moves R s (.exit n) (s.setPhase n .exited)
  | join {n : Fin N} (hphase : s.phase n = .exited) : Moves R s (.join n) (s.setPhase n .joined)

theorem step_moves {a : ZooMove N} (h : Inv R s) (hstep : step R s a = some s') : Moves R s a s' := by
  unfold step at hstep
  rw [if_neg (by simp [h.crash, h.aborted])] at hstep
  cases a with
  | request n msg =>
    dsimp only at hstep
    split at hstep
    · rename_i hand
      cases hstep
      exact .request hand.1 hand.2
    · cases hstep
  | processMessage n =>
    dsimp only at hstep
    split at hstep
    · cases hstep
    · obtain ⟨comm, hcomm, rfl⟩ := Option.map_eq_some_iff.mp hstep
      exact .forward (forwards_of_processMessage h.aborted
        (fun msg hmsg => (h.legit msg (count_pos_of_mailbox hmsg rfl)).addressed) hcomm) rfl
  | communicate n src =>
    dsimp only at hstep
    split at hstep
    · cases hstep
    · obtain ⟨comm, hcomm, rfl⟩ := Option.map_eq_some_iff.mp hstep
      exact .forward (forwards_of_communicate h.aborted (fun msg hmsg =>
        ⟨h.carried src n msg hmsg, (h.legit msg (count_pos_of_net hmsg rfl)).addressed⟩) hcomm) rfl
  | serve n =>
    dsimp only at hstep
    split at hstep
    · cases hstep
    · rename_i hhead
      cases hstep
      exact .serve hhead
  | notify n =>
    dsimp only at hstep
    split at hstep
    · cases hstep
    · rename_i hhead
      cases hstep
      exact .notify hhead
  | control =>
    dsimp only at hstep
    split at hstep
    · rename_i hout
      split at hstep
      · cases hstep
      · rename_i hhead
        obtain ⟨htype, tasks, sent, hcontrol, -⟩ := h.control hout hhead
        rw [if_pos htype, hcontrol] at hstep
        cases hstep
        exact .control hout hhead hcontrol
    · cases hstep
  | sendReply =>
    dsimp only at hstep
    split at hstep
    · cases hstep
    · rename_i hout
      cases hstep
      exact .sendReply hout
  | enter n =>
    dsimp only at hstep
    split at hstep
    · rename_i hand
      cases hstep
      exact .enter hand.1 hand.2
    · cases hstep
  | leave n =>
    dsimp only at hstep
    split at hstep
    · rename_i hphase
      split at hstep
      · cases hstep
      · rename_i hhead
        rw [if_pos (h.leave hphase hhead).1] at hstep
        cases hstep
        exact .leave hphase hhead
    · cases hstep
  | exit n =>
    dsimp only at hstep
    split at hstep
    · rename_i hand
      cases hstep
      exact .exit hand.1
    · cases hstep
  | join n =>
    dsimp only at hstep
    split at hstep
    · rename_i hphase
      cases hstep
      exact .join hphase
    · cases hstep

theorem Moves.inv {a : ZooMove N} (hmove : Moves R s a s') (h : Inv R s) : Inv R s' := by
  cases hmove with
  | request hphase hmsg => exact h.request hphase hmsg
  | forward hs => exact h.forwards hs
  | serve hhead => exact h.serve hhead
  | notify hhead => exact h.notify hhead
  | control hout hhead hcontrol =>
    obtain ⟨-, tasks, sent, heq, -, -, hinv⟩ := h.control hout hhead
    cases hcontrol.symm.trans heq
    exact hinv
  | sendReply hout => exact h.sendReply hout
  | enter hphase hnone => exact h.enter hphase hnone
  | leave hphase hhead => exact (h.leave hphase hhead).2
  | exit hphase => exact h.setPhase ⟨by simp [hphase], by simp [hphase]⟩ ⟨nofun, nofun⟩
  | join hphase => exact h.setPhase ⟨by simp [hphase], by simp [hphase]⟩ ⟨nofun, nofun⟩

theorem inv_of_reachable (h : Reachable (step R) new s) : Inv R s :=
  h.invariant inv_new fun _ _ _ hinv hstep => (step_moves hinv hstep).inv hinv

/-! ### The end of a run -/

theorem Inv.waiting_of_token (h : Inv R s) (hpos : 0 < s.count (Token n)) : s.phase n = .waiting := by
  have htoken := h.token n
  split at htoken
  · assumption
  · omega

/-- When a node has returned, what is under way are replies to nodes that wait. -/
theorem Inv.reply_of_released (h : Inv R s) (hr : s.Released) (hmsg : 0 < s.count (· = msg)) :
    ∃ i : Fin N, msg = reply i ∧ s.phase i = .waiting := by
  obtain ⟨i, hi | hi⟩ := h.traffic_or_token hmsg
  · have hpos : 0 < s.count (Traffic i) := by
      by_contra hzero
      exact hmsg.ne' (count_eq_zero_of_imp (by omega) fun q hq => hq ▸ hi)
    exact absurd (h.running_of_traffic hpos) (hr.phase i)
  · have hpos : 0 < s.count (Token i) := by
      by_contra hzero
      exact hmsg.ne' (count_eq_zero_of_imp (by omega) fun q hq => hq ▸ hi)
    rcases hi with rfl | rfl
    · exact absurd (hr.requests i) hmsg.ne'
    · exact ⟨i, rfl, h.waiting_of_token hpos⟩

/-- The reply to the controller's own node is the last, so that when the node has it the others are on the net. -/
theorem Inv.left (h : Inv R s) (hr : s.Released) (hphase : s.phase 0 ≠ .waiting) :
    s.comm.mailbox 0 = [] ∧ s.outbox = [] := by
  have hzero : s.count (Token (0 : Fin N)) + s.tasks.countP (Token (0 : Fin N)) +
      s.outbox.countP (Token (0 : Fin N)) = 0 := by rw [h.token 0, if_neg hphase]
  have hall : s.comm.mailbox 0 ++ s.outbox = [] := by
    rw [← List.getLast?_eq_none_iff]
    by_contra hne
    obtain ⟨q, hq⟩ := Option.ne_none_iff_exists'.mp hne
    obtain rfl := hr.last q hq
    rcases List.mem_append.mp (List.mem_of_getLast? hq) with hmem | hmem
    · have := count_pos_of_mailbox (p := Token (0 : Fin N)) hmem (.inr rfl)
      omega
    · have : 0 < s.outbox.countP (Token (0 : Fin N)) := List.countP_pos_iff.mpr ⟨_, hmem, by simp [token_reply]⟩
      omega
  exact List.append_eq_nil_iff.mp hall

theorem Inv.drained (h : Inv R s) (hrun : s.phase n ≠ .running) (hwait : s.phase n ≠ .waiting) :
    s.comm.mailbox n = [] ∧ (∀ src, s.comm.net src n = []) ∧ (∀ actor, s.unhandled n actor = []) ∧
      (n = 0 → s.tasks = [] ∧ s.outbox = []) := by
  have hr : s.Released := h.round.resolve_left fun hr => (hr.phase n).elim hrun hwait
  have hto : ∀ msg, 0 < s.count (· = msg) → msg.dst ≠ n := by
    intro msg hmsg hdst
    obtain ⟨i, rfl, hi⟩ := h.reply_of_released hr hmsg
    obtain rfl : i = n := cast_inj.mp hdst
    exact hwait hi
  refine ⟨?_, fun src => ?_, fun actor => ?_, ?_⟩
  · by_cases hn : n = 0
    · subst hn
      exact (h.left hr hwait).1
    · rw [List.eq_nil_iff_forall_not_mem]
      intro msg hmsg
      obtain ⟨i, rfl, -⟩ := h.reply_of_released hr (count_pos_of_mailbox (p := (· = msg)) hmsg rfl)
      exact hn (cast_inj.mp ((h.own n _ hmsg).symm.trans src_reply))
  · rw [List.eq_nil_iff_forall_not_mem]
    intro msg hmsg
    exact hto msg (count_pos_of_net hmsg rfl) (h.carried src n msg hmsg)
  · rw [List.eq_nil_iff_forall_not_mem]
    intro msg hmsg
    exact hto msg (count_pos_of_unhandled hmsg rfl) (h.routed n actor msg hmsg).1
  · rintro rfl
    exact ⟨hr.tasks, (h.left hr hwait).2⟩

/-- No CHECK fails, and when a node stops its communicator no message is lost: none is left in its mailboxes, none is
on the net to it, and its controller has no more to send. -/
theorem drained_of_returned (h : Reachable (step R) new s) : s.crash = none ∧ s.comm.aborted = none ∧
    ∀ n, s.phase n ≠ .running → s.phase n ≠ .waiting →
      s.comm.mailbox n = [] ∧ (∀ src, s.comm.net src n = []) ∧ (∀ actor, s.unhandled n actor = []) ∧
        (n = 0 → s.tasks = [] ∧ s.outbox = []) :=
  have hinv := inv_of_reachable h
  ⟨hinv.crash, hinv.aborted, fun _ => hinv.drained⟩

/-- Two nodes that run a server and a worker each. -/
def pair : Roles 2 := ⟨fun _ _ => true, rfl⟩

open TwoParties in
/-- The second node gets what it asks of the first. Then both stop. -/
def pairMoves : List (ZooMove 2) :=
  [.request 1 ⟨1, 0, .Request_Get, 0, 0, []⟩, .processMessage 1, .communicate 0 1, .enter 0, .serve 0,
    .processMessage 0, .control, .processMessage 0, .communicate 1 0, .notify 1, .enter 1, .processMessage 1,
    .communicate 0 1, .control, .sendReply, .processMessage 0, .sendReply, .processMessage 0, .leave 0, .exit 0,
    .join 0, .communicate 1 0, .leave 1, .exit 1, .join 1]

open TwoParties in
theorem drained_of_returned_two : ∃ s : ZooState 2, (s.phase 0 = .joined ∧ s.phase 1 = .joined) ∧ s.crash = none ∧
    s.comm.aborted = none ∧ ∀ n, s.phase n ≠ .running → s.phase n ≠ .waiting →
      s.comm.mailbox n = [] ∧ (∀ src, s.comm.net src n = []) ∧ (∀ actor, s.unhandled n actor = []) ∧
        (n = 0 → s.tasks = [] ∧ s.outbox = []) := by
  have hrun : (exec (step pair) new pairMoves).isSome := by rfl
  obtain ⟨s, hs⟩ := Option.isSome_iff_exists.mp hrun
  refine ⟨s, ?_, drained_of_returned ⟨pairMoves, hs⟩⟩
  cases hs
  exact ⟨rfl, rfl⟩

end ZooState
end Hpps.Frame

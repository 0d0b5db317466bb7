import Hpps.Frame.Shutdown

/-! The nodes that stop all come to the end of it: none waits for another forever. -/
namespace Hpps.Frame
namespace ZooState

open TransitionSystem Weights

variable {N : ℕ} {s s' : ZooState N} {n n' : Fin N} {actor : Actor} {msg : BarrierMsg} {rest : List BarrierMsg}

/-! ### What is left to do -/

/-- The moves that a message brings about once its actor has it. -/
def work (msg : BarrierMsg) : ℕ :=
  match localForward msg.type with
  | .server => 3
  | .controller => 5
  | .worker | .zoo => 0

def phaseWork : NodePhase → ℕ
  | .running => 12
  | .waiting => 3
  | .returned => 2
  | .exited => 1
  | .joined => 0

/-- A bound on the moves to come while no request is made. -/
def rank (s : ZooState N) : ℕ :=
  s.weigh (work · + 3) (work · + 2) (work · + 1) + 5 * s.tasks.length + 4 * s.outbox.length + ∑ n, phaseWork (s.phase n)

theorem work_enter : work (Barrier.request n) = 5 := rfl

theorem work_reply : work (reply n) = 0 := rfl

theorem rank_give : (s.give n msg).rank = s.rank + work msg + 3 := by
  have hweigh : (s.give n msg).weigh (work · + 3) (work · + 2) (work · + 1) = _ := weigh_give
  have hrest : (s.give n msg).rank = (s.give n msg).weigh (work · + 3) (work · + 2) (work · + 1) +
    5 * s.tasks.length + 4 * s.outbox.length + ∑ n, phaseWork (s.phase n) := rfl
  rw [hrest, hweigh, rank]
  omega

theorem rank_pop (h : s.unhandled n actor = msg :: rest) : (s.pop n actor).rank + work msg + 1 = s.rank := by
  have hweigh : (s.pop n actor).weigh (work · + 3) (work · + 2) (work · + 1) + (work msg + 1) = _ := weigh_pop h
  have hrest : (s.pop n actor).rank = (s.pop n actor).weigh (work · + 3) (work · + 2) (work · + 1) +
    5 * s.tasks.length + 4 * s.outbox.length + ∑ n, phaseWork (s.phase n) := rfl
  rw [hrest, rank]
  omega

theorem rank_setPhase {phase : NodePhase} :
    (s.setPhase n phase).rank + phaseWork (s.phase n) = s.rank + phaseWork phase := by
  have hsum := Tally.sum_update phaseWork s.phase n phase
  have hrest : (s.setPhase n phase).rank = s.weigh (work · + 3) (work · + 2) (work · + 1) +
    5 * s.tasks.length + 4 * s.outbox.length + ∑ i, phaseWork (Function.update s.phase n phase i) := rfl
  rw [hrest, rank]
  omega

theorem Forwards.rank (h : s.Forwards n s') (hroom : s.Room) : s'.rank + 1 ≤ s.rank := by
  obtain ⟨htasks, houtbox, hphase⟩ : s'.tasks = s.tasks ∧ s'.outbox = s.outbox ∧ s'.phase = s.phase := by
    cases h <;> exact ⟨rfl, rfl, rfl⟩
  rw [ZooState.rank, ZooState.rank, htasks, houtbox, hphase]
  obtain ⟨msg, hw | hw | hw⟩ := h.weigh (m := (work · + 3)) (t := (work · + 2)) (u := (work · + 1)) hroom <;> omega

theorem rank_new : (new : ZooState N).rank = 12 * N := by
  have hrest : (new : ZooState N).rank = ZooState.weigh (new : ZooState N) (work · + 3) (work · + 2) (work · + 1) +
    5 * 0 + 4 * 0 + ∑ _ : Fin N, 12 := rfl
  have hweigh : ZooState.weigh (new : ZooState N) (work · + 3) (work · + 2) (work · + 1) = 0 := by
    simp [ZooState.weigh, new, CommunicatorState.new, total, onNet, unhandled]
  rw [hrest, hweigh]
  simp [mul_comm]

/-! ### Every run comes to its end -/

variable [NeZero N] {R : Roles N} {p : BarrierMsg → Prop} [DecidablePred p]

theorem work_request (h : R.Request n msg) : work msg = 3 := by rw [work, localForward_request h]

theorem work_answer (h : R.Request n msg) : work msg.createReplyMessage = 0 := by rw [work, localForward_answer h]

theorem Moves.rank {a : ZooMove N} (hmove : Moves R s a s') (h : Inv R s) :
    s'.rank + (if !a.isRequest then 1 else 0) ≤ s.rank + if a.isRequest then 6 else 0 := by
  cases hmove with
  | @request n msg hphase hmsg =>
    have hgive : (s.give n msg).rank = _ := rank_give
    rw [work_request hmsg] at hgive
    change (s.give n msg).rank + 0 ≤ s.rank + 6
    omega
  | forward hs ha =>
    have hlt := hs.rank h.room
    rw [ha]
    change s'.rank + 1 ≤ s.rank + 0
    omega
  | @serve n msg rest hhead =>
    obtain ⟨k, hk⟩ := h.request_of_server (hhead ▸ List.mem_cons_self)
    have hpop := rank_pop hhead
    rw [work_request hk] at hpop
    rw [rank_give, work_answer hk]
    change _ + 1 ≤ s.rank + 0
    omega
  | @notify n msg rest hhead =>
    have hpop := rank_pop hhead
    change (s.pop n .worker).rank + 1 ≤ s.rank + 0
    omega
  | @control msg rest tasks sent hout hhead hcontrol =>
    obtain ⟨-, tasks', sent', heq, hle, hone, -⟩ := h.control hout hhead
    cases hcontrol.symm.trans heq
    obtain ⟨k, rfl⟩ := h.enter_of_controller (hhead ▸ List.mem_cons_self)
    have hpop := rank_pop hhead
    have hbefore : (s.pop 0 .controller).rank = (s.pop 0 .controller).weigh (work · + 3) (work · + 2) (work · + 1) +
      5 * s.tasks.length + 4 * s.outbox.length + ∑ n, phaseWork (s.phase n) := rfl
    have hafter : ZooState.rank { s.pop 0 .controller with tasks, outbox := sent } =
      (s.pop 0 .controller).weigh (work · + 3) (work · + 2) (work · + 1) +
      5 * tasks.length + 4 * sent.length + ∑ n, phaseWork (s.phase n) := rfl
    rw [work_enter] at hpop
    rw [hafter]
    change _ + 1 ≤ s.rank + 0
    rcases hone with rfl | rfl <;> simp only [List.length_nil] at * <;> omega
  | @sendReply msg rest hout =>
    obtain ⟨k, rfl⟩ := h.replies msg (hout ▸ List.mem_cons_self)
    have hgive : (s.give 0 (reply k)).rank = _ := rank_give
    have hbefore : (s.give 0 (reply k)).rank = (s.give 0 (reply k)).weigh (work · + 3) (work · + 2) (work · + 1) +
      5 * s.tasks.length + 4 * s.outbox.length + ∑ n, phaseWork (s.phase n) := rfl
    have hafter : ZooState.rank { s.give 0 (reply k) with outbox := rest } =
      (s.give 0 (reply k)).weigh (work · + 3) (work · + 2) (work · + 1) +
      5 * s.tasks.length + 4 * rest.length + ∑ n, phaseWork (s.phase n) := rfl
    rw [work_reply] at hgive
    rw [hout, List.length_cons] at hbefore
    rw [hafter]
    change _ + 1 ≤ s.rank + 0
    omega
  | @enter n hphase hnone =>
    have hset : ((s.give n (Barrier.request n)).setPhase n .waiting).rank + _ = _ := rank_setPhase
    have hphase' : (s.give n (Barrier.request n)).phase n = .running := hphase
    rw [rank_give, work_enter, hphase'] at hset
    change _ + 12 = _ + 3 at hset
    change _ + 1 ≤ s.rank + 0
    omega
  | @leave n msg rest hphase hhead =>
    have hset : ((s.pop n .zoo).setPhase n .returned).rank + _ = _ := rank_setPhase
    have hpop := rank_pop hhead
    have hphase' : (s.pop n .zoo).phase n = .waiting := hphase
    rw [hphase'] at hset
    change _ + 3 = _ + 2 at hset
    change _ + 1 ≤ s.rank + 0
    omega
  | @exit n hphase =>
    have hset : (s.setPhase n .exited).rank + _ = _ := rank_setPhase
    rw [hphase] at hset
    change _ + 2 = _ + 1 at hset
    change _ + 1 ≤ s.rank + 0
    omega
  | @join n hphase =>
    have hset : (s.setPhase n .joined).rank + _ = _ := rank_setPhase
    rw [hphase] at hset
    change _ + 1 = _ + 0 at hset
    change _ + 1 ≤ s.rank + 0
    omega

theorem Inv.not_joined (h : Inv R s) (hbusy : ¬ (s.comm.mailbox n = [] ∧ (∀ src, s.comm.net src n = []) ∧
    ∀ actor, s.unhandled n actor = [])) : s.phase n ≠ .joined := by
  intro hphase
  obtain ⟨hbox, hnet, hunhandled, -⟩ := h.drained (n := n) (by simp [hphase]) (by simp [hphase])
  exact hbusy ⟨hbox, hnet, hunhandled⟩

/-- The controller, and the zoo of a node, take what they are sent. -/
theorem Inv.moves_of_unhandled (h : Inv R s) (hmsg : msg ∈ s.unhandled n actor) :
    ∃ a : ZooMove N, a.isRequest = false ∧ (step R s a).isSome := by
  obtain ⟨q, rest, hhead⟩ := List.exists_cons_of_ne_nil (List.ne_nil_of_mem hmsg)
  have hq : q ∈ s.unhandled n actor := hhead ▸ List.mem_cons_self
  cases actor with
  | server => exact ⟨.serve n, rfl, by simp [step, h.crash, h.aborted, hhead]⟩
  | worker => exact ⟨.notify n, rfl, by simp [step, h.crash, h.aborted, hhead]⟩
  | controller =>
    by_cases hout : s.outbox = []
    · obtain ⟨k, rfl⟩ := h.enter_of_controller hq
      obtain rfl : (0 : Fin N) = n :=
        Fin.ext (by simpa [Barrier.request, kController, eq_comm] using (h.routed n .controller _ hq).1)
      obtain ⟨htype, tasks, sent, hcontrol, -⟩ := h.control hout hhead
      exact ⟨.control, rfl, by simp [step, h.crash, h.aborted, hhead, hout, htype, hcontrol]⟩
    · obtain ⟨reply, rest, hout⟩ := List.exists_cons_of_ne_nil hout
      exact ⟨.sendReply, rfl, by simp [step, h.crash, h.aborted, hout]⟩
  | zoo =>
    obtain rfl := h.reply_of_zoo hq
    have hphase := h.waiting_of_token (count_pos_of_unhandled hq (.inr rfl))
    have htype := (h.leave hphase hhead).1
    exact ⟨.leave n, rfl, by simp [step, h.crash, h.aborted, hhead, hphase, htype]⟩

theorem Inv.moves_of_count (h : Inv R s) (hpos : 0 < s.count p) :
    ∃ a : ZooMove N, a.isRequest = false ∧ (step R s a).isSome := by
  rcases exists_of_count_pos hpos with ⟨n, msg, hmsg, -⟩ | ⟨src, n, msg, hmsg, -⟩ | ⟨n, actor, msg, hmsg, -⟩
  · obtain ⟨q, rest, hbox⟩ := List.exists_cons_of_ne_nil (List.ne_nil_of_mem hmsg)
    have hphase := h.not_joined (n := n) (by simp [hbox])
    exact ⟨.processMessage n, rfl, by simp [step, CommunicatorState.step, h.crash, h.aborted, hbox, hphase]⟩
  · obtain ⟨q, rest, hnet⟩ := List.exists_cons_of_ne_nil (List.ne_nil_of_mem hmsg)
    have hphase := h.not_joined (n := n) fun hand => by simp [hand.2.1 src] at hnet
    exact ⟨.communicate n src, rfl, by simp [step, CommunicatorState.step, h.crash, h.aborted, hnet, hphase]⟩
  · exact h.moves_of_unhandled hmsg

/-- While nodes wait, their requests or the replies to them are under way. -/
theorem Inv.moves_of_waiting (h : Inv R s) (hno : ∀ i, s.phase i ≠ .running) (hphase : s.phase n = .waiting) :
    ∃ a : ZooMove N, a.isRequest = false ∧ (step R s a).isSome := by
  by_cases hout : s.outbox = []
  · rcases h.round with hr | hr
    · obtain ⟨ts, hts, hlt⟩ := h.tasks
      have hmissing : ∃ i, i ∉ ts := by
        by_contra hall
        push Not at hall
        have hcard : (Finset.univ : Finset (Fin N)).card ≤ ts.toFinset.card :=
          Finset.card_le_card fun i _ => List.mem_toFinset.mpr (hall i)
        rw [Finset.card_univ, Fintype.card_fin] at hcard
        have := ts.toFinset_card_le
        omega
      obtain ⟨i, hi⟩ := hmissing
      have htoken := h.token i
      rw [hts, countP_enter, List.count_eq_zero_of_not_mem hi, hout, List.countP_nil,
        if_pos ((hr.phase i).resolve_left (hno i))] at htoken
      exact h.moves_of_count (p := Token i) (by omega)
    · have htoken := h.token n
      rw [hr.tasks, hout, if_pos hphase, List.countP_nil] at htoken
      exact h.moves_of_count (p := Token n) (by omega)
  · obtain ⟨reply, rest, hout⟩ := List.exists_cons_of_ne_nil hout
    exact ⟨.sendReply, rfl, by simp [step, h.crash, h.aborted, hout]⟩

theorem Inv.moves (h : Inv R s) (hn : s.phase n ≠ .joined) :
    ∃ a : ZooMove N, a.isRequest = false ∧ (step R s a).isSome := by
  by_cases hno : ∀ i, s.phase i ≠ .running
  · cases hphase : s.phase n with
    | running => exact absurd hphase (hno n)
    | waiting => exact h.moves_of_waiting hno hphase
    | returned =>
      have hbox := (h.drained (n := n) (by simp [hphase]) (by simp [hphase])).1
      exact ⟨.exit n, rfl, by simp [step, h.crash, h.aborted, hphase, hbox]⟩
    | exited => exact ⟨.join n, rfl, by simp [step, h.crash, h.aborted, hphase]⟩
    | joined => exact absurd hphase hn
  · push Not at hno
    obtain ⟨i, hi⟩ := hno
    by_cases hnone : s.unanswered i = 0
    · exact ⟨.enter i, rfl, by simp [step, h.crash, h.aborted, hi, hnone]⟩
    · exact h.moves_of_count (p := Traffic i) (by rw [h.traffic]; omega)

/-- No node waits forever: besides the requests a run has only so many moves, and until the communicators of all nodes
are joined there is one more. -/
theorem joins_all {as : List (ZooMove N)} (h : exec (step R) new as = some s) :
    as.countP (fun a => !a.isRequest) ≤ 12 * N + 6 * as.countP ZooMove.isRequest ∧
      ((∀ n, s.phase n = .joined) ∨ ∃ a : ZooMove N, a.isRequest = false ∧ (step R s a).isSome) := by
  refine ⟨?_, ?_⟩
  · have hle := exec_countP_le (Inv R) rank (fun a => !a.isRequest) ZooMove.isRequest 6
      (fun s a t hinv hstep => ⟨(step_moves hinv hstep).inv hinv, (step_moves hinv hstep).rank hinv⟩) inv_new h
    rw [rank_new] at hle
    omega
  · by_cases hall : ∀ n, s.phase n = .joined
    · exact .inl hall
    · push Not at hall
      obtain ⟨n, hn⟩ := hall
      exact .inr ((inv_of_reachable ⟨as, h⟩).moves hn)

open TwoParties in
/-- Both wait, and the replies are under way. -/
theorem joins_all_two : ∃ s : ZooState 2, exec (step pair) new (pairMoves.take 16) = some s ∧ s.phase 0 = .waiting ∧
    (pairMoves.take 16).countP (fun a => !a.isRequest) ≤ 12 * 2 + 6 * (pairMoves.take 16).countP ZooMove.isRequest ∧
      ((∀ n, s.phase n = .joined) ∨ ∃ a : ZooMove 2, a.isRequest = false ∧ (step pair s a).isSome) := by
  have hrun : (exec (step pair) new (pairMoves.take 16)).isSome := by rfl
  obtain ⟨s, hs⟩ := Option.isSome_iff_exists.mp hrun
  refine ⟨s, hs, ?_, joins_all hs⟩
  cases hs
  rfl

end ZooState
end Hpps.Frame

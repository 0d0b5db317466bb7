import Hpps.Frame.Waiting

/-! The order in which the messages to a server are handed to the communicator. -/
namespace Hpps.Frame.Worker

open TransitionSystem Tally

variable {β D : Type} {node : WorkerNode β D} {types : List MsgType} {s t : WorkerState β D} {d : D}
  {msg : Message β} {acts : List (Act β)} {popped : List (Message β)} {a : WorkerMove β} {r : ℤ}
  {i : Fin kWorkerThreadNum}

/-- The messages to the server with rank `r`, in the order of the calls. -/
def expected (node : WorkerNode β D) (calls : List (Message β)) (r : ℤ) : List (Message β) :=
  (calls.flatMap (requests node)).filter fun msg => msg.dst = r

def sentTo (s : WorkerState β D) (r : ℤ) : List (Message β) := s.sent.filter fun msg => msg.dst = r

/-- Each server is sent its messages in the order of the calls. -/
def InOrder (node : WorkerNode β D) (s : WorkerState β D) : Prop :=
  ∀ r, sentTo s r <+: expected node s.calls r

/-- No message to the same server that belongs to an earlier call is still in the hands of a thread
when thread `i` sends its next one. -/
def Clear (s : WorkerState β D) (i : Fin kWorkerThreadNum) : Prop :=
  ∀ msg acts, s.threads i = .push msg :: acts →
    ∀ j q, .push q ∈ s.threads j → q.dst = msg.dst → msg.msgId ≤ q.msgId

theorem singleton_prefix_iff {α : Type} {key : α → ℕ} {l : List α} {m : α}
    (hs : l.Pairwise fun x y => key x < key y) (hm : m ∈ l) : [m] <+: l ↔ ∀ x ∈ l, key m ≤ key x := by
  cases l with
  | nil => cases hm
  | cons y l =>
    obtain ⟨hlt, -⟩ := List.pairwise_cons.mp hs
    rw [List.cons_prefix_cons]
    constructor
    · rintro ⟨rfl, -⟩ x hx
      rcases List.mem_cons.mp hx with rfl | hx
      · exact le_rfl
      · exact (hlt x hx).le
    · intro hall
      rcases List.mem_cons.mp hm with rfl | hm
      · exact ⟨rfl, List.nil_prefix⟩
      · have := hall y List.mem_cons_self
        have := hlt m hm
        omega

/-- A request has at most one message for each server. -/
theorem requests_pairwise : (requests node msg).Pairwise fun x y => x.dst ≠ y.dst := by
  unfold requests
  split
  · rename_i acts hacts
    rcases handle_cases hacts with ⟨-, num, out, hp, rfl⟩ | ⟨-, file, data, -, rfl⟩ | ⟨-, ⟨-, rfl⟩ | ⟨-, rfl⟩⟩
    · have hnodup := node.table.nodup hp
      change (((out.map _).map Act.push).filterMap Act.push?).Pairwise _
      rw [filterMap_map_push, List.pairwise_map]
      exact (List.pairwise_map.mp hnodup).imp fun hne heq => hne (node.injective heq)
    · rw [filterMap_map_push, List.pairwise_map]
      exact List.nodup_range.imp fun hne heq => hne (node.injective heq)
    · exact List.Pairwise.nil
    · exact List.Pairwise.nil
  · exact List.Pairwise.nil

theorem msgId_of_mem_requests {q : Message β} (hq : q ∈ requests node msg) : q.msgId = msg.msgId := by
  unfold requests at hq
  split at hq
  · rename_i acts hacts
    obtain ⟨x, hx, heq⟩ := List.mem_filterMap.mp hq
    cases x with
    | push q' =>
      cases heq
      exact (mem_requests hacts hx).1
    | reset | store | notify => cases heq
  · cases hq

theorem expected_pairwise (h : Inv node types s popped) :
    (expected node s.calls r).Pairwise fun x y => x.msgId < y.msgId := by
  unfold expected
  rw [List.pairwise_filter, List.pairwise_flatMap]
  constructor
  · intro msg _
    refine requests_pairwise.imp fun hne hx hy => ?_
    simp only [decide_eq_true_eq] at hx hy
    exact absurd (hx.trans hy.symm) hne
  · rw [List.pairwise_iff_getElem]
    intro i j hi hj hij x hx y hy _ _
    rw [msgId_of_mem_requests hx, msgId_of_mem_requests hy, h.msgId i _ (List.getElem?_eq_getElem hi),
      h.msgId j _ (List.getElem?_eq_getElem hj)]
    exact hij

/-- What was handed to the communicator is on its way or answered. -/
def SentKept (s : WorkerState β D) : Prop :=
  ∀ p, s.sent.countP p = s.inFlight.countP p + (s.replied.map Prod.fst).countP p

theorem sentKept_step (h : SentKept s) (hs : step node types s a = some t) : SentKept t := by
  obtain ⟨-, ho⟩ := step_outcome hs
  cases ho with
  | issue | wait | waitNull | wake | finish | pop | popStop | actStop | deliver => exact h
  | @act i x acts r hi hr =>
    cases x with
    | push msg =>
      cases hr
      intro p
      have := h p
      simp only [List.countP_append]
      omega
    | reset id num =>
      rw [perform] at hr
      split at hr <;> cases hr
      exact h
    | store msg =>
      rw [perform] at hr
      split at hr <;> cases hr
      exact h
    | notify msg =>
      rw [perform] at hr
      split at hr <;> cases hr
      exact h
  | @serve k msg data hk =>
    intro p
    have := h p
    have := countP_eraseIdx (p := p) hk
    simp only [List.map_append, List.map_cons, List.map_nil, List.countP_append, List.countP_singleton]
    omega

theorem reachable_sentKept (h : Reachable (step node types) (init d) s) : SentKept s :=
  h.invariant (P := SentKept) (fun _ => rfl) fun _ _ _ hx hy => sentKept_step hx hy

theorem expected_append {calls rest : List (Message β)} :
    expected node (calls ++ rest) r = expected node calls r ++ expected node rest r := by
  simp [expected, List.flatMap_append]

/-- What is sent next to a server stands next in the order of the calls if and only if it is the
oldest of what is left for that server. -/
theorem push_prefix_iff (h : Inv node types s popped) (hk : SentKept s)
    (ho : sentTo s r <+: expected node s.calls r) (hi : s.threads i = .push msg :: acts)
    (hr : msg.dst = r) : sentTo s r ++ [msg] <+: expected node s.calls r ↔
      ∀ j q, .push q ∈ s.threads j → q.dst = r → msg.msgId ≤ q.msgId := by
  classical
  have hpair := expected_pairwise (r := r) h
  obtain ⟨left, hleft⟩ := ho
  rw [h.calls, expected_append] at hleft hpair ⊢
  set unpopped := expected node (s.mailbox.filter fun msg => 0 < msg.type) r
  have hcount : ∀ p : Message β → Bool, tally (Act.isPush fun m => decide (m.dst = r) && p m) s.threads +
      (sentTo s r).countP p = (expected node popped r).countP p := by
    intro p
    have h1 := h.conserved fun m => decide (m.dst = r) && p m
    have h2 := hk fun m => decide (m.dst = r) && p m
    rw [sentTo, expected, List.countP_filter, List.countP_filter]
    simp only [Bool.and_comm] at h1 h2 ⊢
    omega
  obtain ⟨rest, hrest⟩ : sentTo s r <+: expected node popped r := by
    refine List.prefix_of_prefix_length_le ⟨left, hleft⟩ (List.prefix_append _ _) ?_
    have := hcount fun _ => true
    simp only [List.countP_true] at this
    omega
  have hmem : ∀ q, q ∈ rest ↔ ∃ j, .push q ∈ s.threads j ∧ q.dst = r := by
    intro q
    have hq := hcount fun m => decide (m = q)
    rw [← hrest, List.countP_append] at hq
    constructor
    · intro hin
      have : 0 < rest.countP fun m => decide (m = q) := List.countP_pos_iff.mpr ⟨q, hin, by simp⟩
      obtain ⟨j, x, hx, hpush⟩ := exists_of_tally_pos
        (p := Act.isPush fun m => decide (m.dst = r) && decide (m = q)) (f := s.threads) (by omega)
      cases x with
      | push m =>
        simp only [Act.isPush, Bool.and_eq_true, decide_eq_true_eq] at hpush
        obtain ⟨hdst, rfl⟩ := hpush
        exact ⟨j, hx, hdst⟩
      | reset | store | notify => cases hpush
    · rintro ⟨j, hj, hdst⟩
      have : 0 < tally (Act.isPush fun m => decide (m.dst = r) && decide (m = q)) s.threads :=
        tally_pos_of_mem hj (by simp [Act.isPush, hdst])
      obtain ⟨m, hm, heq⟩ := List.countP_pos_iff.mp (show 0 < rest.countP fun m => decide (m = q) by omega)
      simp only [decide_eq_true_eq] at heq
      exact heq ▸ hm
  have hnext : msg ∈ rest := (hmem msg).mpr ⟨i, by rw [hi]; exact List.mem_cons_self, hr⟩
  rw [← hrest, List.append_assoc, List.pairwise_append] at hpair
  rw [← hrest, List.append_assoc, List.prefix_append_right_inj,
    singleton_prefix_iff hpair.2.1 (List.mem_append_left _ hnext)]
  constructor
  · exact fun hall j q hj hdst => hall q (List.mem_append_left _ ((hmem q).mpr ⟨j, hj, hdst⟩))
  · intro hall q hq
    rcases List.mem_append.mp hq with hq | hq
    · obtain ⟨j, hj, hdst⟩ := (hmem q).mp hq
      exact hall j q hj hdst
    · exact ((List.pairwise_append.mp hpair.2.1).2.2 msg hnext q hq).le

/-- Only a message that overtakes one of an earlier call breaks the order. -/
theorem inOrder_step (h : Inv node types s popped) (hk : SentKept s) (ho : InOrder node s)
    (hs : step node types s a = some t) : InOrder node t ↔ ∀ i, a = .act i → Clear s i := by
  obtain ⟨-, hout⟩ := step_outcome hs
  have hsame : t.sent = s.sent → s.calls <+: t.calls → InOrder node t := by
    rintro hsent ⟨rest, hcalls⟩ r
    rw [sentTo, hsent, ← hcalls, expected_append]
    exact (ho r).trans (List.prefix_append _ _)
  cases hout with
  | issue => exact ⟨fun _ _ heq => (nomatch heq), fun _ => hsame rfl (List.prefix_append _ _)⟩
  | wait | waitNull | wake | finish | pop | popStop | serve | deliver =>
    exact ⟨fun _ _ heq => (nomatch heq), fun _ => hsame rfl (List.prefix_refl _)⟩
  | @act i x acts r hi hr =>
    cases x with
    | push msg =>
      cases hr
      constructor
      · intro hin i' heq msg' acts' hi' j q hj hdst
        cases heq
        rw [hi] at hi'
        cases hi'
        refine (push_prefix_iff h hk (ho msg.dst) hi rfl).mp ?_ j q hj hdst
        have := hin msg.dst
        simpa [sentTo, List.filter_append] using this
      · intro hclear r
        have hpush := (push_prefix_iff h hk (ho r) hi)
        by_cases hr : msg.dst = r
        · have := (hpush hr).mpr fun j q hj hdst =>
            hclear i rfl msg acts hi j q hj (hdst.trans hr.symm)
          simpa [sentTo, List.filter_append, hr] using this
        · have := ho r
          simpa [sentTo, List.filter_append, hr] using this
    | reset id num =>
      rw [perform] at hr
      split at hr <;> cases hr
      refine ⟨fun _ i' heq msg acts hi' => ?_, fun _ => hsame rfl (List.prefix_refl _)⟩
      cases heq
      cases hi.symm.trans hi'
    | store msg =>
      rw [perform] at hr
      split at hr <;> cases hr
      refine ⟨fun _ i' heq msg acts hi' => ?_, fun _ => hsame rfl (List.prefix_refl _)⟩
      cases heq
      cases hi.symm.trans hi'
    | notify msg =>
      rw [perform] at hr
      split at hr <;> cases hr
      refine ⟨fun _ i' heq msg acts hi' => ?_, fun _ => hsame rfl (List.prefix_refl _)⟩
      cases heq
      cases hi.symm.trans hi'
  | @actStop i x acts e hi hr =>
    refine ⟨fun _ i' heq msg acts hi' => ?_, fun _ => hsame rfl (List.prefix_refl _)⟩
    cases heq
    cases hi.symm.trans hi'
    cases hr

/-- In a run of Gets and Adds each state has each server's messages in order if and only if no message
is sent while one of an earlier call to the same server is in the hands of a thread. -/
theorem in_order_iff_clear {as : List (WorkerMove β)}
    (h : exec (step node [.Request_Get, .Request_Add]) (init d) as = some s) :
    (∀ bs t, bs <+: as → exec (step node [.Request_Get, .Request_Add]) (init d) bs = some t →
      InOrder node t) ↔
    ∀ bs i t, bs ++ [.act i] <+: as →
      exec (step node [.Request_Get, .Request_Add]) (init d) bs = some t → Clear t i := by
  induction as using List.reverseRecOn generalizing s with
  | nil =>
    constructor
    · intro _ bs i t hbs
      simp at hbs
    · intro _ bs t hbs ht
      rw [List.prefix_nil] at hbs
      subst hbs
      cases ht
      exact fun r => List.nil_prefix
  | append_singleton as a ih =>
    obtain ⟨u, hu, hs⟩ := exec_append.mp h
    have hstep : step node [.Request_Get, .Request_Add] u a = some s := by
      obtain ⟨v, hv, hnil⟩ := exec_cons.mp hs
      cases hnil
      exact hv
    have hreach : Reachable (step node [.Request_Get, .Request_Add]) (init d) u := ⟨as, hu⟩
    obtain ⟨⟨popped, hinv⟩, -⟩ := reachable_inv (by simp +contextual) hreach
    have hiff : InOrder node u → (InOrder node s ↔ ∀ i, a = .act i → Clear u i) :=
      fun ho => inOrder_step hinv (reachable_sentKept hreach) ho hstep
    have ih := ih hu
    constructor
    · intro hall bs i t hbs ht
      have hbefore : ∀ bs t, bs <+: as → exec (step node [.Request_Get, .Request_Add]) (init d) bs = some t →
          InOrder node t := fun bs t hbs => hall bs t (hbs.trans (List.prefix_append _ _))
      rcases List.prefix_concat_iff.mp hbs with heq | hbs
      · obtain ⟨rfl, ha⟩ := List.append_inj' heq rfl
        cases ha
        rw [hu] at ht
        cases ht
        exact (hiff (hbefore bs _ (List.prefix_refl _) hu)).mp (hall _ s (List.prefix_refl _) h) i rfl
      · exact ih.mp hbefore bs i t hbs ht
    · intro hall bs t hbs ht
      have hbefore := ih.mpr fun bs i t hbs => hall bs i t (hbs.trans (List.prefix_append _ _))
      rcases List.prefix_concat_iff.mp hbs with rfl | hbs
      · rw [h] at ht
        cases ht
        exact (hiff (hbefore as u (List.prefix_refl _) hu)).mpr fun i heq => by
          subst heq
          exact hall as i u (List.prefix_refl _) hu
      · exact hbefore bs t hbs ht

open TwoParties in
/-- The first thread pops the Add, and the second one pops and sends the Get that was issued after it. -/
def getOvertakesAdd : List (WorkerMove (Table.Blob ℤ)) :=
  [.issue (.addAsync (.key (-1)) (.values [1, 1, 1]) none), .issue Table.ArrayWorker.getAsync,
    .pop 0, .pop 1, .act 1, .act 1]

theorem get_overtakes_add : ∃ s : WorkerState (Table.Blob ℤ) (List ℤ),
    Reachable (step arrayOfThree [.Request_Get, .Request_Add]) (init [0, 0, 0]) s ∧
    s.calls.map Message.type = [.Request_Add, .Request_Get] ∧
    (sentTo s 1).map Message.type = [.Request_Get] ∧ ¬ InOrder arrayOfThree s := by
  have h : Reachable (step arrayOfThree [.Request_Get, .Request_Add]) (init [0, 0, 0])
      ((exec (step arrayOfThree [.Request_Get, .Request_Add]) (init [0, 0, 0]) getOvertakesAdd).getD
        (init [0, 0, 0])) := ⟨getOvertakesAdd, rfl⟩
  refine ⟨_, h, by decide +kernel, by decide +kernel, fun hin => ?_⟩
  have := hin 1
  revert this
  decide +kernel

theorem in_order_iff_clear_overtaken :
    exec (step arrayOfThree [.Request_Get, .Request_Add]) (init [0, 0, 0]) getOvertakesAdd ≠ none ∧
    ¬ ∀ bs i t, bs ++ [.act i] <+: getOvertakesAdd →
      exec (step arrayOfThree [.Request_Get, .Request_Add]) (init [0, 0, 0]) bs = some t → Clear t i := by
  have h : exec (step arrayOfThree [.Request_Get, .Request_Add]) (init [0, 0, 0]) getOvertakesAdd =
      some ((exec (step arrayOfThree [.Request_Get, .Request_Add]) (init [0, 0, 0]) getOvertakesAdd).getD
        (init [0, 0, 0])) := rfl
  refine ⟨by rw [h]; simp, fun hclear => ?_⟩
  have := (in_order_iff_clear h).mpr hclear _ _ (List.prefix_refl _) h 1
  revert this
  decide +kernel

end Hpps.Frame.Worker

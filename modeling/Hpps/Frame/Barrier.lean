import Hpps.Frame.Message
import Hpps.Lib.TransitionSystem

/-! `Zoo::Barrier`: nodes that wait for the controller, which only counts the messages it is sent. -/
namespace Hpps.Frame

open TransitionSystem

abbrev BarrierMsg := Message (List ℤ)

namespace BarrierController

/-- The loop over `tasks_`: the replies that are sent in it, and `my_reply`. -/
def replies (tasks : List BarrierMsg) : List BarrierMsg × Option BarrierMsg :=
  tasks.foldl (fun p task =>
    let reply := task.createReplyMessage
    if reply.dst ≠ kController then (p.1 ++ [reply], p.2) else (p.1, some reply)) ([], none)

/-- The new `tasks_` and the messages that are sent. A null `my_reply` would be dereferenced. -/
def control (size : ℕ) (tasks : List BarrierMsg) (msg : BarrierMsg) :
    Except Stop (List BarrierMsg × List BarrierMsg) :=
  let tasks := tasks ++ [msg]
  if tasks.length = size then
    match replies tasks with
    | (sent, some myReply) => .ok ([], sent ++ [myReply])
    | (_, none) => .error .memory
  else .ok (tasks, [])

end BarrierController

/-- The nodes with the Barriers they entered and returned from, the messages on their way, and the
controller's `tasks_`. -/
structure BarrierState (n : ℕ) where
  entered : Fin n → ℕ
  returned : Fin n → ℕ
  requests : List BarrierMsg
  tasks : List BarrierMsg
  replies : List BarrierMsg
  stop : Option Stop

/-- A node enters, the controller handles the `k`-th request on its way, or the `k`-th reply reaches
its node. -/
inductive BarrierMove (n : ℕ)
  | enter (i : Fin n)
  | handle (k : ℕ)
  | deliver (i : Fin n) (k : ℕ)

namespace Barrier

variable {n R : ℕ} {rounds : Fin n → ℕ} {s t : BarrierState n} {a : BarrierMove n} {i j : Fin n}
  {qs ts ps : List (Fin n)}

def request (i : Fin n) : BarrierMsg where
  src := (i : ℤ)
  dst := kController
  type := .Control_Barrier

def init (n : ℕ) : BarrierState n := ⟨fun _ => 0, fun _ => 0, [], [], [], none⟩

/-- A node that entered a Barrier blocks until it returns; it calls Barrier `rounds` times. -/
def step (rounds : Fin n → ℕ) (s : BarrierState n) (a : BarrierMove n) : Option (BarrierState n) :=
  if s.stop ≠ none then none
  else
    match a with
    | .enter i =>
      if s.entered i = s.returned i ∧ s.entered i < rounds i then
        some { s with
          entered := Function.update s.entered i (s.entered i + 1)
          requests := s.requests ++ [request i] }
      else none
    | .handle k => s.requests[k]?.bind fun msg =>
      if localForward msg.type = .controller then
        match BarrierController.control n s.tasks msg with
        | .ok (tasks, sent) => some { s with
            requests := s.requests.eraseIdx k
            tasks := tasks
            replies := s.replies ++ sent }
        | .error e => some { s with stop := some e }
      else none
    | .deliver i k => s.replies[k]?.bind fun msg =>
      if msg.dst = (i : ℤ) ∧ localForward msg.type = .zoo then
        if msg.type = .Control_Reply_Barrier then
          some { s with
            returned := Function.update s.returned i (s.returned i + 1)
            replies := s.replies.eraseIdx k }
        else some { s with stop := some .check }
      else none

/-- In round `R` the nodes in `qs` have a request on its way, those in `ts` are pending, those in
`ps` have a reply to the round before on its way. -/
structure Inv (rounds : Fin n → ℕ) (s : BarrierState n) (R : ℕ) (qs ts ps : List (Fin n)) : Prop where
  stop : s.stop = none
  requests : s.requests = qs.map request
  tasks : s.tasks = ts.map request
  replies : s.replies = ps.map fun i => (request i).createReplyMessage
  nodup : (qs ++ ts ++ ps).Nodup
  length_lt : ts ≠ [] → ts.length < n
  le_rounds : ∀ i, s.entered i ≤ rounds i
  waiting : ∀ i, i ∈ qs ∨ i ∈ ts → s.entered i = R + 1 ∧ s.returned i = R
  leaving : ∀ i ∈ ps, s.entered i = R ∧ s.returned i + 1 = R
  idle : ∀ i, i ∉ qs ++ ts ++ ps → s.entered i = R ∧ s.returned i = R

theorem inv_init : Inv rounds (init n) 0 [] [] [] :=
  ⟨rfl, rfl, rfl, rfl, List.nodup_nil, fun h => absurd rfl h, fun _ => Nat.zero_le _, by simp, by simp,
    fun _ _ => ⟨rfl, rfl⟩⟩

/-- The loop over `tasks_` answers the others and keeps the controller's own reply. -/
theorem replies_eq (ts : List (Fin n)) : BarrierController.replies (ts.map request) =
    ((ts.filter fun i : Fin n => (i : ℕ) ≠ 0).map fun i => (request i).createReplyMessage,
      (ts.filter fun i : Fin n => (i : ℕ) = 0).getLast?.map fun i => (request i).createReplyMessage) := by
  unfold BarrierController.replies
  induction ts using List.reverseRecOn with
  | nil => rfl
  | append_singleton ts i ih =>
    rw [List.map_append, List.foldl_append, ih, List.map_cons, List.map_nil, List.foldl_cons,
      List.foldl_nil, List.filter_append, List.filter_append]
    have hdst : (request i).createReplyMessage.dst = (i : ℤ) := rfl
    dsimp only
    rw [hdst, kController]
    by_cases hi : (i : ℕ) = 0
    · simp [hi]
    · have hi' : (i : ℤ) ≠ 0 := by omega
      simp [hi]

theorem step_enter (h : Inv rounds s R qs ts ps) (hs : step rounds s (.enter i) = some t) :
    Inv rounds t R (qs ++ [i]) ts ps := by
  unfold step at hs
  rw [if_neg (not_not.mpr h.stop)] at hs
  dsimp only at hs
  split at hs
  · rename_i hi
    cases hs
    have hnot : i ∉ qs ++ ts ++ ps := by
      intro hmem
      rw [List.mem_append, List.mem_append] at hmem
      rcases hmem with hmem | hmem
      · have := h.waiting i hmem
        omega
      · have := h.leaving i hmem
        omega
    have hidle := h.idle i hnot
    have hperm : (qs ++ [i] ++ ts ++ ps).Perm (i :: (qs ++ ts ++ ps)) := by
      rw [List.append_assoc, List.append_assoc, List.append_assoc]
      exact List.perm_middle
    refine ⟨h.stop, by simp [h.requests], h.tasks, h.replies,
      hperm.nodup_iff.mpr (List.nodup_cons.mpr ⟨hnot, h.nodup⟩), h.length_lt, fun j => ?_,
      fun j hj => ?_, fun j hj => ?_, fun j hj => ?_⟩
    · by_cases hji : j = i
      · subst hji; simpa using hi.2
      · simpa [hji] using h.le_rounds j
    · by_cases hji : j = i
      · subst hji; simp [hidle]
      · simp only [List.mem_append, List.mem_singleton, hji, or_false] at hj
        simpa [hji] using h.waiting j hj
    · have hji : j ≠ i := by
        rintro rfl
        exact hnot (List.mem_append_right _ hj)
      simpa [hji] using h.leaving j hj
    · rw [hperm.mem_iff, List.mem_cons, not_or] at hj
      simpa [hj.1] using h.idle j hj.2
  · cases hs

theorem exists_of_getElem? {β : Type} {f : Fin n → β} {k : ℕ} {b : β} {l : List (Fin n)}
    (h : (l.map f)[k]? = some b) : ∃ i, l[k]? = some i ∧ f i = b ∧
      (l.map f).eraseIdx k = (l.eraseIdx k).map f ∧ l.Perm (i :: l.eraseIdx k) := by
  rw [List.getElem?_map, Option.map_eq_some_iff] at h
  obtain ⟨i, hi, rfl⟩ := h
  obtain ⟨hk, hget⟩ := List.getElem?_eq_some_iff.mp hi
  refine ⟨i, hi, rfl, (List.eraseIdx_map f l k), ?_⟩
  rw [← hget]
  exact (List.getElem_cons_eraseIdx_perm hk).symm

theorem step_deliver {k : ℕ} (h : Inv rounds s R qs ts ps)
    (hs : step rounds s (.deliver i k) = some t) : Inv rounds t R qs ts (ps.eraseIdx k) := by
  unfold step at hs
  rw [if_neg (not_not.mpr h.stop)] at hs
  obtain ⟨msg, hmsg, hs⟩ := Option.bind_eq_some_iff.mp hs
  rw [h.replies] at hmsg
  obtain ⟨j, hj, rfl, herase, hperm⟩ := exists_of_getElem? hmsg
  have hall : (qs ++ ts ++ ps).Perm (j :: (qs ++ ts ++ ps.eraseIdx k)) :=
    (hperm.append_left _).trans List.perm_middle
  have hnodup := List.nodup_cons.mp (hall.nodup_iff.mp h.nodup)
  have hleave := h.leaving j (List.mem_of_getElem? hj)
  split at hs
  · rename_i hdst
    have hij : j = i := by
      have hdst : (j : ℤ) = (i : ℤ) := hdst.1
      omega
    subst hij
    have htype : (request j).createReplyMessage.type = .Control_Reply_Barrier := rfl
    rw [if_pos htype] at hs
    cases hs
    refine ⟨h.stop, h.requests, h.tasks, by simp only [h.replies, herase], hnodup.2, h.length_lt,
      h.le_rounds, fun i hi => ?_, fun i hi => ?_, fun i hi => ?_⟩
    · have hij : i ≠ j := by
        rintro rfl
        exact hnodup.1 (List.mem_append_left _ (List.mem_append.mpr hi))
      simpa [hij] using h.waiting i hi
    · have hij : i ≠ j := by
        rintro rfl
        exact hnodup.1 (List.mem_append_right _ hi)
      simpa [hij] using h.leaving i (hperm.mem_iff.mpr (List.mem_cons_of_mem _ hi))
    · by_cases hij : i = j
      · subst hij; simpa using hleave
      · have hi' : i ∉ qs ++ ts ++ ps := by
          rw [hall.mem_iff, List.mem_cons, not_or]
          exact ⟨hij, hi⟩
        simpa [hij] using h.idle i hi'
  · cases hs

theorem mem_of_full {l : List (Fin n)} (hn : l.length = n) (hnodup : l.Nodup) (j : Fin n) : j ∈ l := by
  have hcard : l.toFinset = Finset.univ := by
    rw [← Finset.card_eq_iff_eq_univ, List.toFinset_card_of_nodup hnodup, hn, Fintype.card_fin]
  rw [← List.mem_toFinset, hcard]
  exact Finset.mem_univ j

/-- When all nodes are pending, all of them are answered and the next round begins. -/
theorem control_full {ts : List (Fin n)} (hn : ts.length = n) (hnodup : ts.Nodup) (i : Fin n) :
    ∃ ps : List (Fin n), ps.Nodup ∧ (∀ j, j ∈ ps) ∧ ∃ sent myReply,
      BarrierController.replies (ts.map request) = (sent, some myReply) ∧
      sent ++ [myReply] = ps.map fun i => (request i).createReplyMessage := by
  have hall : ∀ j, j ∈ ts := mem_of_full hn hnodup
  have hpos : 0 < n := i.pos
  have hzero : (⟨0, hpos⟩ : Fin n) ∈ ts.filter fun i : Fin n => (i : ℕ) = 0 :=
    List.mem_filter.mpr ⟨hall _, by simp⟩
  obtain ⟨z, hz⟩ : ∃ z, (ts.filter fun i : Fin n => (i : ℕ) = 0).getLast? = some z := by
    rw [← Option.ne_none_iff_exists', Ne, List.getLast?_eq_none_iff]
    exact List.ne_nil_of_mem hzero
  have hz0 : (z : ℕ) = 0 := by simpa using (List.mem_filter.mp (List.mem_of_getLast? hz)).2
  refine ⟨(ts.filter fun i : Fin n => (i : ℕ) ≠ 0) ++ [z], ?_, fun j => ?_, _, _,
    (replies_eq ts).trans (by rw [hz]; rfl), by simp⟩
  · rw [List.nodup_append]
    refine ⟨hnodup.filter _, List.nodup_singleton z, fun a ha b hb hab => ?_⟩
    rw [List.mem_singleton] at hb
    subst hb hab
    simp [hz0] at ha
  · by_cases hj : (j : ℕ) = 0
    · have : j = z := Fin.ext (hj.trans hz0.symm)
      simp [this]
    · simp [hall j, hj]

theorem step_handle {k : ℕ} (h : Inv rounds s R qs ts ps) (hs : step rounds s (.handle k) = some t) :
    ∃ R qs ts ps, Inv rounds t R qs ts ps := by
  unfold step at hs
  rw [if_neg (not_not.mpr h.stop)] at hs
  obtain ⟨msg, hmsg, hs⟩ := Option.bind_eq_some_iff.mp hs
  rw [h.requests] at hmsg
  obtain ⟨i, hi, rfl, herase, hperm⟩ := exists_of_getElem? hmsg
  have hall : (qs ++ ts ++ ps).Perm (qs.eraseIdx k ++ (ts ++ [i]) ++ ps) := by
    refine List.Perm.append_right _ ?_
    refine (hperm.append_right ts).trans ?_
    rw [← List.append_assoc]
    exact (List.perm_append_singleton i _).symm
  have hnodup := hall.nodup_iff.mp h.nodup
  have hwait : ∀ j, j ∈ qs.eraseIdx k ∨ j ∈ ts ++ [i] → s.entered j = R + 1 ∧ s.returned j = R := by
    intro j hj
    refine h.waiting j ?_
    rw [hperm.mem_iff, List.mem_cons]
    rw [List.mem_append, List.mem_singleton] at hj
    tauto
  have hroute : localForward (request i).type = .controller := rfl
  have hmap : ts.map request ++ [request i] = (ts ++ [i]).map request := by simp
  rw [if_pos hroute, BarrierController.control, h.tasks, hmap, List.length_map] at hs
  have hts : (ts ++ [i]).Nodup := (List.nodup_append.mp (List.nodup_append.mp hnodup).1).2.1
  by_cases hfull : (ts ++ [i]).length = n
  · obtain ⟨ps', hps', hmem, sent, myReply, hsent, heq⟩ := control_full hfull hts i
    have hin : ∀ j, j ∈ ts ++ [i] := mem_of_full hfull hts
    have hqs : qs.eraseIdx k = [] := List.eq_nil_iff_forall_not_mem.mpr fun j hj =>
      (List.nodup_append.mp (List.nodup_append.mp hnodup).1).2.2 j hj j (hin j) rfl
    have hps : ps = [] := List.eq_nil_iff_forall_not_mem.mpr fun j hj =>
      (List.nodup_append.mp hnodup).2.2 j (List.mem_append_right _ (hin j)) j hj rfl
    rw [if_pos hfull, hsent] at hs
    cases hs
    refine ⟨R + 1, [], [], ps', h.stop, by simp only [h.requests, herase, hqs], rfl,
      by simp only [h.replies, hps, List.map_nil, List.nil_append, heq], by simpa using hps',
      fun hne => absurd rfl hne, h.le_rounds, by simp, fun j _ => ?_, fun j hj => ?_⟩
    · have := hwait j (.inr (hin j))
      exact ⟨this.1, by rw [this.2]⟩
    · exact absurd (List.mem_append_right _ (hmem j)) hj
  · rw [if_neg hfull] at hs
    cases hs
    have hle : (ts ++ [i]).length ≤ n := by simpa using hts.length_le_card
    refine ⟨R, qs.eraseIdx k, ts ++ [i], ps, h.stop, by simp only [h.requests, herase], rfl,
      by simp only [h.replies, List.append_nil], hnodup, fun _ => by omega, h.le_rounds, hwait,
      h.leaving, fun j hj => h.idle j fun hmem => hj (hall.mem_iff.mp hmem)⟩

theorem reachable_inv (h : Reachable (step rounds) (init n) s) :
    ∃ R qs ts ps, Inv rounds s R qs ts ps := by
  refine h.invariant (P := fun s => ∃ R qs ts ps, Inv rounds s R qs ts ps) ⟨_, _, _, _, inv_init⟩ ?_
  rintro x a y ⟨R, qs, ts, ps, hx⟩ hy
  cases a with
  | enter i => exact ⟨_, _, _, _, step_enter hx hy⟩
  | handle k => exact step_handle hx hy
  | deliver i k => exact ⟨_, _, _, _, step_deliver hx hy⟩

theorem countP_map_src {l : List (Fin n)} :
    (l.map request).countP (fun m => m.src = (i : ℤ)) = l.count i := by
  rw [List.countP_map, List.count]
  congr 1
  funext j
  have hsrc : (request j).src = (j : ℤ) := rfl
  simp only [Function.comp_apply, hsrc, Nat.cast_inj, Fin.val_inj]
  rfl

theorem countP_map_dst {l : List (Fin n)} :
    (l.map fun j => (request j).createReplyMessage).countP (fun m => m.dst = (i : ℤ)) = l.count i := by
  rw [List.countP_map, List.count]
  congr 1
  funext j
  have hdst : (request j).createReplyMessage.dst = (j : ℤ) := rfl
  simp only [Function.comp_apply, hdst, Nat.cast_inj, Fin.val_inj]
  rfl

theorem Inv.phase (h : Inv rounds s R qs ts ps) (i : Fin n) :
    s.returned i ≤ R ∧ R ≤ s.entered i ∧ (i ∉ ps → s.returned i = R) ∧
      qs.count i + ts.count i + ps.count i + s.returned i = s.entered i := by
  have hcount : qs.count i + ts.count i + ps.count i = if i ∈ qs ++ ts ++ ps then 1 else 0 := by
    rw [← h.nodup.count, List.count_append, List.count_append]
  by_cases hps : i ∈ ps
  · obtain ⟨he, hr⟩ := h.leaving i hps
    rw [if_pos (List.mem_append_right _ hps)] at hcount
    exact ⟨by omega, he.ge, fun hn => absurd hps hn, by omega⟩
  · by_cases hmem : i ∈ qs ++ ts
    · obtain ⟨he, hr⟩ := h.waiting i (List.mem_append.mp hmem)
      rw [if_pos (List.mem_append_left _ hmem)] at hcount
      exact ⟨hr.le, by omega, fun _ => hr, by omega⟩
    · have hnot : i ∉ qs ++ ts ++ ps := fun hi => (List.mem_append.mp hi).elim hmem hps
      obtain ⟨he, hr⟩ := h.idle i hnot
      rw [if_neg hnot] at hcount
      exact ⟨hr.le, he.ge, fun _ => hr, by omega⟩

/-- When nothing can move, all messages are pending and some node does not wait. -/
theorem exists_idle (h : Inv rounds s R qs ts ps) (hh : Halted (step rounds) s) (i : Fin n) :
    ps = [] ∧ ∃ j, rounds j = R := by
  have hqs : qs = [] := by
    rw [List.eq_nil_iff_forall_not_mem]
    intro j hj
    obtain ⟨q, qs, rfl⟩ := List.exists_cons_of_ne_nil (List.ne_nil_of_mem hj)
    have := hh (.handle 0)
    have hroute : localForward (request q).type = .controller := rfl
    rw [step, if_neg (not_not.mpr h.stop)] at this
    rw [h.requests, List.map_cons, List.getElem?_cons_zero, Option.bind_some, if_pos hroute] at this
    split at this <;> cases this
  have hps : ps = [] := by
    rw [List.eq_nil_iff_forall_not_mem]
    intro j hj
    obtain ⟨p, ps, rfl⟩ := List.exists_cons_of_ne_nil (List.ne_nil_of_mem hj)
    have := hh (.deliver p 0)
    have hroute : (request p).createReplyMessage.dst = (p : ℤ) ∧
      localForward (request p).createReplyMessage.type = .zoo := ⟨rfl, rfl⟩
    rw [step, if_neg (not_not.mpr h.stop)] at this
    rw [h.replies, List.map_cons, List.getElem?_cons_zero, Option.bind_some, if_pos hroute] at this
    split at this <;> cases this
  obtain ⟨j, hj⟩ : ∃ j, j ∉ ts := by
    by_contra hall
    have hall : ∀ j, j ∈ ts := fun j => not_not.mp (not_exists.mp hall j)
    have hlt := h.length_lt (List.ne_nil_of_mem (hall i))
    have hcard : ts.toFinset = Finset.univ := Finset.eq_univ_of_forall fun j => List.mem_toFinset.mpr (hall j)
    have := ts.toFinset_card_le
    rw [hcard, Finset.card_univ, Fintype.card_fin] at this
    omega
  have hidle := h.idle j (by simp [hqs, hps, hj])
  have hle := h.le_rounds j
  refine ⟨hps, j, ?_⟩
  have := hh (.enter j)
  rw [step, if_neg (not_not.mpr h.stop)] at this
  split at this
  · cases this
  · omega

/-- No node leaves a round that another has not entered, and every request is answered once. -/
theorem barrier_separates_rounds (h : Reachable (step rounds) (init n) s) :
    s.stop = none ∧
    (∀ i j k, k ≤ s.returned i → k ≤ s.entered j) ∧
    (∀ i : Fin n, s.requests.countP (fun m => m.src = (i : ℤ)) + s.tasks.countP (fun m => m.src = (i : ℤ)) +
      s.replies.countP (fun m => m.dst = (i : ℤ)) + s.returned i = s.entered i) ∧
    ((s.tasks.map Message.src).Nodup ∧ ∀ m ∈ s.tasks, ∃ i, m = request i ∧
      ∀ j, request j ∈ s.tasks → s.entered j = s.entered i) ∧
    (Halted (step rounds) s → ∀ i, (∀ j, s.returned i ≤ rounds j) ∧ ∃ j, rounds j = s.returned i) := by
  obtain ⟨R, qs, ts, ps, hi⟩ := reachable_inv h
  have hinj : Function.Injective fun i : Fin n => (request i).src := by
    intro i j hij
    have hij : (i : ℤ) = (j : ℤ) := hij
    omega
  have htask : ∀ j, request j ∈ s.tasks → s.entered j = R + 1 := by
    intro j hj
    rw [hi.tasks, List.mem_map] at hj
    obtain ⟨j', hj', heq⟩ := hj
    have : j' = j := hinj (congrArg Message.src heq)
    subst this
    exact (hi.waiting j' (.inr hj')).1
  refine ⟨hi.stop, fun i j k hk => ?_, fun i => ?_, ⟨?_, fun m hm => ?_⟩, fun hh i => ?_⟩
  · have := (hi.phase i).1
    have := (hi.phase j).2.1
    omega
  · rw [hi.requests, hi.tasks, hi.replies, countP_map_src, countP_map_src, countP_map_dst]
    exact (hi.phase i).2.2.2
  · rw [hi.tasks, List.map_map]
    exact List.Nodup.map hinj (List.nodup_append.mp (List.nodup_append.mp hi.nodup).1).2.1
  · have hm' := hm
    rw [hi.tasks, List.mem_map] at hm'
    obtain ⟨i, -, rfl⟩ := hm'
    exact ⟨i, rfl, fun j hj => (htask j hj).trans (htask i hm).symm⟩
  · obtain ⟨hps, j, hj⟩ := exists_idle hi hh i
    have hret := (hi.phase i).2.2.1 (by simp [hps])
    refine ⟨fun j' => ?_, j, by rw [hj, hret]⟩
    have := (hi.phase j').2.1
    have := hi.le_rounds j'
    omega

theorem barrier_separates_rounds_two : ∃ s : BarrierState 2,
    Reachable (step fun _ => 2) (init 2) s ∧ s.tasks ≠ [] ∧ ∀ i j k, k ≤ s.returned i → k ≤ s.entered j := by
  have h : Reachable (step fun _ => 2) (init 2) (((exec (step fun _ => 2) (init 2)
      [.enter 1, .handle 0, .enter 0, .handle 0, .deliver 1 0, .enter 1, .handle 0]).getD (init 2))) :=
    ⟨[.enter 1, .handle 0, .enter 0, .handle 0, .deliver 1 0, .enter 1, .handle 0], rfl⟩
  exact ⟨_, h, by decide, (barrier_separates_rounds h).2.1⟩

end Barrier
end Hpps.Frame

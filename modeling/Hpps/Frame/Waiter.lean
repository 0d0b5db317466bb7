import Hpps.Frame.Waiting

/-! `Waiter`: a client that finds the count positive sleeps until a Notify. -/
namespace Hpps.Frame.Waiter

open TransitionSystem Worker

/-- A worker node, and the requests whose client sleeps in `cv_.wait`. -/
structure State (β D : Type) where
  worker : WorkerState β D
  asleep : ℕ → Bool

/-- Besides the moves of the node, a client falls asleep, or is woken up without a Notify. -/
inductive Move (β : Type)
  | node (a : WorkerMove β)
  | sleep (id : ℕ)
  | spurious (id : ℕ)

variable {β D : Type} (node : WorkerNode β D) (s : State β D)

def init (d : D) : State β D := ⟨Worker.init d, fun _ => false⟩

/-- A client that sleeps does not check the count. -/
def awake : WorkerMove β → Bool
  | .wake id => !s.asleep id
  | _ => true

/-- The request whose waiter the next act notifies. -/
def notified : WorkerMove β → Option ℕ
  | .act t =>
    match s.worker.threads t with
    | .notify msg :: _ => some msg.msgId
    | _ => none
  | _ => none

/-- `Waiter::Notify` ends with `cv_.notify_all()`, `Waiter::Reset` does not. -/
def notifyAll (a : WorkerMove β) (id : ℕ) : Bool := s.asleep id && decide (notified s a ≠ some id)

/-- The clients call `Get` and `Add`. The check of the count and the sleep are one move, as `cv_.wait`
releases the lock. -/
def step : Move β → Option (State β D)
  | .node a =>
    if awake s a then
      (Worker.step node [.Request_Get, .Request_Add] s.worker a).map fun w => ⟨w, notifyAll s a⟩
    else none
  | .sleep id =>
    match s.worker.phases id, s.worker.waitings[id]? with
    | .blocked, some (some num) =>
      if s.worker.crash = none ∧ s.asleep id = false ∧ 0 < num then
        some { s with asleep := Function.update s.asleep id true }
      else none
    | _, _ => none
  | .spurious id =>
    if s.worker.crash = none ∧ s.asleep id = true then
      some { s with asleep := Function.update s.asleep id false }
    else none

/-- What can still lead to a Notify of the request. -/
def outstanding (w : WorkerState β D) (id : ℕ) : ℕ := pending w id + unsent w id + away w id

/-- The client of the request sleeps, has nothing to wait for, and nobody will wake it. -/
def Missed (id : ℕ) : Prop :=
  s.asleep id = true ∧ (∃ num ≤ 0, s.worker.waitings[id]? = some (some num)) ∧ outstanding s.worker id = 0

/-- No Reset is for a request of the kind `silent` while its client sleeps. -/
def Signalled (silent : Message β → Prop) : Move β → Prop
  | .node (.act t) => ∀ id num acts msg, s.worker.threads t = .reset id num :: acts →
      s.worker.calls[id]? = some msg → silent msg → s.asleep id = false
  | _ => True

/-- The sleepers are inside of Wait, and a thread resets a waiter to what Partition returned. -/
structure Inv : Prop where
  worker : ∃ popped, Worker.Inv node [.Request_Get, .Request_Add] s.worker popped
  blocked : ∀ id, s.asleep id = true → s.worker.phases id = .blocked
  armed : ∀ i id num acts, s.worker.threads i = .reset id num :: acts → ∃ msg out,
    s.worker.calls[id]? = some msg ∧ node.table.Partition msg.data msg.type = .ok (num, out)

variable {node s} {t : State β D} {a : Move β} {d : D} {id : ℕ}

theorem inv_init : Inv node (init d : State β D) where
  worker := ⟨[], Worker.inv_init⟩
  blocked := by simp [init]
  armed := by simp [init, Worker.init]

theorem step_sleep (h : step node s (.sleep id) = some t) :
    s.worker.phases id = .blocked ∧ (∃ num, s.worker.waitings[id]? = some (some num) ∧ 0 < num) ∧
      t = { s with asleep := Function.update s.asleep id true } := by
  unfold step at h
  dsimp only at h
  split at h
  · rename_i num hp hw
    split at h
    · rename_i hc
      cases h
      exact ⟨hp, ⟨num, hw, hc.2.2⟩, rfl⟩
    · cases h
  · cases h

theorem step_spurious (h : step node s (.spurious id) = some t) :
    t = { s with asleep := Function.update s.asleep id false } := by
  unfold step at h
  dsimp only at h
  split at h
  · cases h
    rfl
  · cases h

theorem step_node {a : WorkerMove β} (h : step node s (.node a) = some t) :
    awake s a = true ∧ Worker.step node [.Request_Get, .Request_Add] s.worker a = some t.worker ∧
      t.asleep = notifyAll s a := by
  unfold step at h
  dsimp only at h
  split at h
  · rename_i hawake
    obtain ⟨w, hw, rfl⟩ := Option.map_eq_some_iff.mp h
    exact ⟨hawake, hw, rfl⟩
  · cases h

/-- A handled request starts with the Reset of its waiter. -/
theorem reset_of_handle {msg : Message β} {num : ℕ} {acts : List (Act β)}
    (h : Worker.handle node msg = .ok (.reset id num :: acts)) :
    id = msg.msgId ∧ 0 < msg.type ∧ ∃ out, node.table.Partition msg.data msg.type = .ok (num, out) := by
  rcases handle_cases h with ⟨htype, n, out, hp, heq⟩ | ⟨-, file, data, -, heq⟩ | ⟨-, heq⟩
  · obtain ⟨hreset, -⟩ := List.cons.inj heq
    cases hreset
    refine ⟨rfl, ?_, out, hp⟩
    rcases htype with htype | htype <;> rw [htype] <;> decide
  · cases h : List.range node.numServers with
    | nil => simp [h] at heq
    | cons i is => simp [h] at heq
  · rcases heq with ⟨-, heq⟩ | ⟨-, heq⟩ <;> cases heq

theorem perform_keeps {w r : WorkerState β D} {x : Act β} (hr : perform node w x = .ok r) :
    r.calls = w.calls ∧ r.threads = w.threads ∧ r.phases = w.phases := by
  cases x <;> rw [perform] at hr
  · split at hr <;> cases hr
    exact ⟨rfl, rfl, rfl⟩
  · cases hr
    exact ⟨rfl, rfl, rfl⟩
  · split at hr <;> cases hr
    exact ⟨rfl, rfl, rfl⟩
  · split at hr <;> cases hr
    exact ⟨rfl, rfl, rfl⟩

theorem inv_step (h : Inv node s) (hs : step node s a = some t) : Inv node t := by
  obtain ⟨popped, hinv⟩ := h.worker
  cases a with
  | sleep id =>
    obtain ⟨hp, -, rfl⟩ := step_sleep hs
    refine ⟨h.worker, fun id' hid => ?_, h.armed⟩
    by_cases heq : id' = id
    · exact heq ▸ hp
    · simp only [Function.update_of_ne heq] at hid
      exact h.blocked id' hid
  | spurious id =>
    obtain rfl := step_spurious hs
    refine ⟨h.worker, fun id' hid => h.blocked id' ?_, h.armed⟩
    by_cases heq : id' = id
    · simp [heq] at hid
    · simpa only [Function.update_of_ne heq] using hid
  | node a =>
    obtain ⟨hawake, hw, hasleep⟩ := step_node hs
    obtain ⟨w, asleep⟩ := t
    subst hasleep
    have hworker := (Worker.inv_step (by simp +contextual) hinv hw).1
    obtain ⟨hcrash, ho⟩ := step_outcome hw
    have hblocked : ∀ id, notifyAll s a id = true → s.worker.phases id = .blocked := fun id hid =>
      h.blocked id (Bool.and_eq_true_iff.mp hid).1
    dsimp only at hworker ho
    cases ho with
    | issue hc =>
      refine ⟨hworker, hblocked, fun i id num acts hi => ?_⟩
      obtain ⟨msg, out, hmsg, hp⟩ := h.armed i id num acts hi
      exact ⟨msg, out, List.getElem?_append_left (List.getElem?_eq_some_iff.mp hmsg).1 ▸ hmsg, hp⟩
    | @wait id num hp hw =>
      refine ⟨hworker, fun id' hid => ?_, h.armed⟩
      by_cases heq : id' = id
      · simp [heq]
      · simpa [heq] using hblocked id' hid
    | waitNull hp hw => exact ⟨hworker, hblocked, h.armed⟩
    | @wake id num hp hw hn =>
      refine ⟨hworker, fun id' hid => ?_, h.armed⟩
      by_cases heq : id' = id
      · subst heq
        have := (Bool.and_eq_true_iff.mp hid).1
        simp [awake, this] at hawake
      · simpa [heq] using hblocked id' hid
    | @finish id hp =>
      refine ⟨hworker, fun id' hid => ?_, h.armed⟩
      by_cases heq : id' = id
      · have := hblocked id' hid
        rw [heq, hp] at this
        cases this
      · simpa [heq] using hblocked id' hid
    | @pop i msg mailbox acts hi hm ha =>
      refine ⟨hworker, hblocked, fun j id num rest hj => ?_⟩
      by_cases heq : j = i
      · subst heq
        dsimp only at hj
        rw [Function.update_self] at hj
        subst hj
        obtain ⟨rfl, hpos, out, hp⟩ := reset_of_handle ha
        have hmem : msg ∈ s.worker.calls := by
          rw [hinv.calls, hm]
          exact List.mem_append_right _ (List.mem_filter.mpr ⟨List.mem_cons_self, by simpa using hpos⟩)
        obtain ⟨k, hk⟩ := List.mem_iff_getElem?.mp hmem
        exact ⟨msg, out, hinv.msgId k msg hk ▸ hk, hp⟩
      · dsimp only at hj
        rw [Function.update_of_ne heq] at hj
        exact h.armed j id num rest hj
    | popStop => exact ⟨hworker, hblocked, h.armed⟩
    | @act i x acts r hi hr =>
      obtain ⟨hcalls, hthreads, hphases⟩ := perform_keeps hr
      refine ⟨hworker, fun id hid => ?_, fun j id num rest hj => ?_⟩
      · dsimp only
        rw [hphases]
        exact hblocked id hid
      · dsimp only at hj ⊢
        rw [hcalls]
        rw [hthreads] at hj
        by_cases heq : j = i
        · subst heq
          rw [Function.update_self] at hj
          exact absurd hj (hi ▸ hinv.ordered.shape j).ne_reset
        · rw [Function.update_of_ne heq] at hj
          exact h.armed j id num rest hj
    | actStop hi hr => exact ⟨hworker, hblocked, h.armed⟩
    | serve hk => exact ⟨hworker, hblocked, h.armed⟩
    | deliver hk => exact ⟨hworker, hblocked, h.armed⟩

/-- A client that sleeps has something to wait for, unless it missed its wake-up. -/
theorem not_missed_iff (h : Inv node s) : (∀ id, ¬ Missed s id) ↔ ∀ id, s.asleep id = true →
    ∃ num, s.worker.waitings[id]? = some (some num) ∧ 0 < num := by
  obtain ⟨popped, hinv⟩ := h.worker
  constructor
  · intro hno id hid
    have hp := h.blocked id hid
    have hlt : id < s.worker.waitings.length := phase_lt hinv.counted (by simp [hp])
    obtain ⟨num, hnum, hdone⟩ := waiter_some hinv.counted (by simp [hp]) (List.getElem?_eq_getElem hlt)
    rw [List.getElem?_eq_getElem hlt, hnum]
    refine ⟨num, rfl, ?_⟩
    by_contra hle
    obtain ⟨h1, h2, h3⟩ := hdone (not_lt.mp hle)
    refine hno id ⟨hid, ⟨num, not_lt.mp hle, ?_⟩, ?_⟩
    · rw [List.getElem?_eq_getElem hlt, hnum]
    · rw [outstanding, h1, h2, h3]
  · rintro hall id ⟨hid, ⟨num, hle, hnum⟩, -⟩
    obtain ⟨num', hnum', hpos⟩ := hall id hid
    rw [hnum] at hnum'
    cases hnum'
    omega

/-- A waiter that is neither set nor counted down is as before. -/
theorem perform_waitings {w r : WorkerState β D} {x : Act β} {num : ℤ} (hr : perform node w x = .ok r)
    (hreset : ∀ n, x ≠ .reset id n) (hnotify : ∀ msg, x = .notify msg → msg.msgId ≠ id)
    (hw : w.waitings[id]? = some (some num)) : r.waitings[id]? = some (some num) := by
  cases x with
  | reset id' n =>
    rw [perform] at hr
    split at hr <;> cases hr
    dsimp only
    rw [List.getElem?_set_ne fun heq => hreset n (by rw [heq]), hw]
  | push msg =>
    cases hr
    exact hw
  | store msg =>
    rw [perform] at hr
    split at hr <;> cases hr
    exact hw
  | notify msg =>
    rw [perform] at hr
    split at hr <;> cases hr
    dsimp only
    rw [List.getElem?_set_ne (hnotify msg rfl), hw]

theorem reset_waitings {w r : WorkerState β D} {num : ℕ} (hr : perform node w (.reset id num) = .ok r) :
    r.waitings[id]? = some (some (num : ℤ)) := by
  rw [perform] at hr
  split at hr
  · rename_i h
    cases hr
    exact List.getElem?_set_self (List.getElem?_eq_some_iff.mp h).1
  · cases hr

section Step

variable {silent : Message β → Prop} (hsilent : ∀ msg num out,
  node.table.Partition msg.data msg.type = .ok (num, out) → (silent msg ↔ num = 0))
include hsilent

/-- A Reset to zero while the client sleeps is a missed wake-up. -/
theorem signalled_of_not_missed (h : Inv node s) (hs : step node s a = some t)
    (hno : ∀ id, ¬ Missed t id) : Signalled s silent a := by
  obtain ⟨popped, hinv⟩ := h.worker
  cases a with
  | sleep id => trivial
  | spurious id => trivial
  | node a =>
    cases a with
    | act i =>
      intro id num acts msg hi hmsg hsil
      by_contra hne
      obtain ⟨-, hw, hasleep⟩ := step_node hs
      obtain ⟨msg', out, hmsg', hp⟩ := h.armed i id num acts hi
      cases hmsg.symm.trans hmsg'
      obtain rfl := (hsilent msg num out hp).mp hsil
      obtain ⟨num, hnum, hpos⟩ := (not_missed_iff (inv_step h hs)).mp hno id (by
        rw [hasleep]
        simp [notifyAll, notified, hi, hne])
      obtain ⟨w, asleep⟩ := t
      obtain ⟨-, ho⟩ := step_outcome hw
      dsimp only at ho hnum
      cases ho with
      | act hi' hr =>
        cases hi.symm.trans hi'
        have hzero := reset_waitings hr
        dsimp only at hnum
        rw [hzero] at hnum
        cases hnum
        exact absurd hpos (by decide)
      | actStop hi' hr =>
        cases hi.symm.trans hi'
        refine perform_ne_waiter hinv hi ?_
        rw [perform] at hr ⊢
        split at hr
        · cases hr
        · rfl
    | _ => trivial

/-- The waiter of a client that sleeps changes only with a Notify, or with a Reset. -/
theorem not_missed_of_signalled (h : Inv node s) (hno : ∀ id, ¬ Missed s id) (hs : step node s a = some t)
    (ha : Signalled s silent a) : ∀ id, ¬ Missed t id := by
  rw [not_missed_iff (inv_step h hs)]
  rw [not_missed_iff h] at hno
  cases a with
  | sleep id =>
    obtain ⟨-, hpos, rfl⟩ := step_sleep hs
    intro id' hid
    by_cases heq : id' = id
    · exact heq ▸ hpos
    · simp only [Function.update_of_ne heq] at hid
      exact hno id' hid
  | spurious id =>
    obtain rfl := step_spurious hs
    intro id' hid
    by_cases heq : id' = id
    · simp [heq] at hid
    · simp only [Function.update_of_ne heq] at hid
      exact hno id' hid
  | node a =>
    obtain ⟨-, hw, hasleep⟩ := step_node hs
    intro id hid
    rw [hasleep] at hid
    obtain ⟨hslept, hquiet⟩ := Bool.and_eq_true_iff.mp hid
    obtain ⟨num, hnum, hpos⟩ := hno id hslept
    obtain ⟨w, asleep⟩ := t
    obtain ⟨-, ho⟩ := step_outcome hw
    dsimp only at ho ⊢
    cases ho with
    | issue hc =>
      exact ⟨num, List.getElem?_append_left (List.getElem?_eq_some_iff.mp hnum).1 ▸ hnum, hpos⟩
    | @finish id' hp =>
      refine ⟨num, ?_, hpos⟩
      dsimp only
      rw [List.getElem?_set_ne, hnum]
      rintro rfl
      cases hp.symm.trans (h.blocked id' hslept)
    | @act i x acts r hi hr =>
      dsimp only
      by_cases hreset : ∃ n, x = .reset id n
      · obtain ⟨n, rfl⟩ := hreset
        obtain ⟨msg, out, hmsg, hp⟩ := h.armed i id n acts hi
        refine ⟨n, reset_waitings hr, ?_⟩
        by_contra hle
        have := ha id n acts msg hi hmsg ((hsilent msg n out hp).mpr (by omega))
        rw [hslept] at this
        cases this
      · refine ⟨num, perform_waitings hr (fun n heq => hreset ⟨n, heq⟩) (fun msg heq hmsg => ?_) hnum, hpos⟩
        subst heq
        simp [notified, hi, hmsg] at hquiet
    | wait | waitNull | wake | pop | popStop | actStop | serve | deliver => exact ⟨num, hnum, hpos⟩

/-- In a run no client misses its wake-up if and only if no Reset is for a silent request whose client
sleeps. -/
theorem not_missed_iff_signalled {as : List (Move β)} (h : exec (step node) (init d) as = some t) :
    (∀ bs u, bs <+: as → exec (step node) (init d) bs = some u → ∀ id, ¬ Missed u id) ↔
      ∀ bs a u, bs ++ [a] <+: as → exec (step node) (init d) bs = some u → Signalled u silent a := by
  refine good_iff_moves (I := Inv node) (G := fun u => ∀ id, ¬ Missed u id)
    (fun s a u hI hG hs => ⟨inv_step hI hs, ?_⟩) inv_init (fun id hid => by cases hid.1) h
  exact ⟨signalled_of_not_missed hsilent hI hs, not_missed_of_signalled hsilent hI hG hs⟩

end Step

end Hpps.Frame.Waiter

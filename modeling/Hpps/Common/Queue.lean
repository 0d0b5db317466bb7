import Hpps.Lib.Monitor

/-! `Queue`: a list behind a mutex, and threads that wait in `Pop` until there is an item or the queue is left. -/
namespace Hpps

open Monitor TransitionSystem

/-- `buffer_` and `exit_`. -/
structure Queue (α : Type) where
  buffer : List α
  exit : Bool

inductive QueueCall (α : Type)
  | push (item : α)
  | pushFront (item : α)
  | pop
  | tryPop
  | front
  | size
  | empty
  | exit
  | alive

/-- What a call returns; `item none` is the `false` of Pop, TryPop and Front. -/
inductive QueueResult (α : Type)
  | unit
  | item (result : Option α)
  | size (n : ℤ)
  | flag (b : Bool)

namespace Queue

variable {α ι : Type}

def new : Queue α := ⟨[], false⟩

/-- The body of each call between `lock` and `unlock`. -/
def enter : QueueCall α → Queue α → Ending (Queue α) (QueueResult α)
  | .push item, q => .leave { q with buffer := q.buffer ++ [item] } .unit .one
  | .pushFront item, q => .leave { q with buffer := item :: q.buffer } .unit .one
  | .pop, q =>
    match q.buffer with
    | [] => if q.exit then .leave q (.item none) .none else .wait
    | item :: rest => .leave { q with buffer := rest } (.item (some item)) .none
  | .tryPop, q =>
    match q.buffer with
    | [] => .leave q (.item none) .none
    | item :: rest => .leave { q with buffer := rest } (.item (some item)) .none
  | .front, q =>
    match q.buffer with
    | [] => if q.exit then .leave q (.item none) .none else .wait
    | item :: _ => .leave q (.item (some item)) .none
  -- static_cast<int> of a size_t
  | .size, q => .leave q (.size ((q.buffer.length : ℤ).bmod (2 ^ 32))) .none
  | .empty, q => .leave q (.flag q.buffer.isEmpty) .none
  | .exit, q => .leave { q with exit := true } .unit .all
  | .alive, q => .leave q (.flag !q.exit) .none

/-- How many threads can leave Pop. -/
def avail (q : Queue α) : ℕ∞ := if q.exit then ⊤ else q.buffer.length

/-- Front waits like Pop, but takes nothing. -/
def takes : QueueCall α → Bool
  | .front => false
  | _ => true

theorem avail_cons (item : α) (buffer : List α) (e : Bool) :
    avail ⟨item :: buffer, e⟩ = avail ⟨buffer, e⟩ + 1 := by
  cases e <;> simp [avail]

theorem avail_append_singleton (item : α) (buffer : List α) (e : Bool) :
    avail ⟨buffer ++ [item], e⟩ = avail ⟨buffer, e⟩ + 1 := by
  cases e <;> simp [avail]

variable {c : QueueCall α} {q x : Queue α} {r : QueueResult α} {signal : Signal} {item : α}

theorem avail_of_wait (h : enter c q = .wait) : avail q = 0 := by
  obtain ⟨buffer, e⟩ := q
  cases c with
  | pop | front =>
    cases buffer with
    | nil => cases e <;> simp_all [enter, avail]
    | cons item buffer => cases h
  | tryPop => cases buffer <;> cases h
  | push | pushFront | size | empty | exit | alive => cases h

/-- What is taken and what is signalled, against what is there. -/
theorem avail_of_leave (h : enter c q = .leave x r signal) (hall : signal ≠ .all) :
    avail x ≤ avail q + (if signal = .one then 1 else 0) ∧
      (takes c = true → (∃ q₀ : Queue α, enter c q₀ = .wait) →
        avail x + 1 ≤ avail q + if signal = .one then 1 else 0) := by
  obtain ⟨buffer, e⟩ := q
  cases c with
  | push item =>
    cases h
    exact ⟨by simp [avail_append_singleton], fun _ hex => absurd hex (by simp [enter])⟩
  | pushFront item =>
    cases h
    exact ⟨by simp [avail_cons], fun _ hex => absurd hex (by simp [enter])⟩
  | pop =>
    cases buffer with
    | nil => cases e <;> cases h; simp [avail]
    | cons item buffer =>
      cases h
      simp [avail_cons]
  | tryPop =>
    have hnever : ¬ ∃ q₀ : Queue α, enter .tryPop q₀ = .wait := by
      rintro ⟨⟨_ | _, _⟩, h⟩ <;> cases h
    cases buffer with
    | nil =>
      cases h
      exact ⟨by simp, fun _ hex => absurd hex hnever⟩
    | cons item buffer =>
      cases h
      exact ⟨by simp [avail_cons], fun _ hex => absurd hex hnever⟩
  | front =>
    refine ⟨?_, fun htakes => by cases htakes⟩
    cases buffer with
    | nil => cases e <;> cases h; simp
    | cons item buffer =>
      cases h
      simp
  | size | empty | alive =>
    cases h
    exact ⟨by simp, fun _ hex => absurd hex (by simp [enter])⟩
  | exit =>
    cases h
    exact absurd rfl hall

theorem paced (hc : takes c = true) : Paced enter avail c :=
  ⟨avail_of_wait, fun h hall => (avail_of_leave h hall).1, fun hwait h hall => (avail_of_leave h hall).2 hc ⟨_, hwait⟩⟩

theorem pop_leaves (hq : q.buffer ≠ [] ∨ q.exit = true) : ∃ x r, enter .pop q = .leave x r .none := by
  obtain ⟨buffer, e⟩ := q
  cases buffer with
  | nil =>
    obtain rfl : e = true := by simpa using hq
    exact ⟨_, _, rfl⟩
  | cons item buffer => exact ⟨_, _, rfl⟩

/-! ### First in, first out -/

def pushed (log : List (ι × QueueCall α × QueueResult α)) : List α :=
  log.filterMap fun e =>
    match e.2.1 with
    | .push item | .pushFront item => some item
    | _ => none

/-- What Pop and TryPop have handed out. Front leaves the item where it is. -/
def popped (log : List (ι × QueueCall α × QueueResult α)) : List α :=
  log.filterMap fun e =>
    match e.2.1, e.2.2 with
    | .pop, .item result | .tryPop, .item result => result
    | _, _ => none

def pushesBack : QueueCall α → Bool
  | .pushFront _ => false
  | _ => true

/-- What one call moves, whichever end it is pushed at. -/
theorem enter_perm {t : ι} (h : enter c q = .leave x r signal) :
    (popped [(t, c, r)] ++ x.buffer).Perm (q.buffer ++ pushed [(t, c, r)]) ∧
      (pushesBack c = true → popped [(t, c, r)] ++ x.buffer = q.buffer ++ pushed [(t, c, r)]) := by
  obtain ⟨buffer, e⟩ := q
  cases c with
  | push item =>
    cases h
    simp [popped, pushed]
  | pushFront item =>
    cases h
    exact ⟨by simpa [popped, pushed] using (List.perm_append_singleton item buffer).symm, fun hback => by cases hback⟩
  | pop | front =>
    cases buffer with
    | nil => cases e <;> cases h; simp [popped, pushed]
    | cons item buffer =>
      cases h
      simp [popped, pushed]
  | tryPop =>
    cases buffer <;> cases h <;> simp [popped, pushed]
  | size | empty | exit | alive =>
    cases h
    simp [popped, pushed]

@[simp] theorem pushed_append (l l' : List (ι × QueueCall α × QueueResult α)) :
    pushed (l ++ l') = pushed l ++ pushed l' := List.filterMap_append

@[simp] theorem popped_append (l l' : List (ι × QueueCall α × QueueResult α)) :
    popped (l ++ l') = popped l ++ popped l' := List.filterMap_append

theorem replays_perm {l : List (ι × QueueCall α × QueueResult α)} (h : Replays enter q l x) :
    (popped l ++ x.buffer).Perm (q.buffer ++ pushed l) ∧
      ((∀ e ∈ l, pushesBack e.2.1 = true) → popped l ++ x.buffer = q.buffer ++ pushed l) := by
  induction l generalizing q with
  | nil =>
    cases h
    simp [popped, pushed]
  | cons e l ih =>
    obtain ⟨t, c, r⟩ := e
    obtain ⟨y, signal, hy, hrest⟩ := h
    obtain ⟨hperm, heq⟩ := ih hrest
    obtain ⟨hperm₁, heq₁⟩ := enter_perm (t := t) hy
    rw [← List.singleton_append, pushed_append, popped_append]
    constructor
    · have hfirst := hperm.append_left (popped [(t, c, r)])
      have hsecond := hperm₁.append_right (pushed l)
      rw [List.append_assoc, ← List.append_assoc _ (pushed [(t, c, r)])]
      exact hfirst.trans (by simpa using hsecond)
    · intro hback
      rw [List.append_assoc, heq fun e he => hback e (List.mem_cons_of_mem _ he), ← List.append_assoc,
        heq₁ (hback _ List.mem_cons_self), List.append_assoc]

section Threads

variable [Fintype ι] [DecidableEq ι] {m : Config (Queue α) (QueueCall α) (QueueResult α) ι} {t u : ι}

/-- Every item pushed is handed out once or still there, in the order of the pushes while all are at the back. -/
theorem fifo (h : Reachable (Monitor.step enter) (start new) m) :
    (popped m.log ++ m.shared.buffer).Perm (pushed m.log) ∧
      ((∀ e ∈ m.log, pushesBack e.2.1 = true) → popped m.log ++ m.shared.buffer = pushed m.log) :=
  replays_perm (replays_of_reachable h)

/-- An item that is put back in front is handed out before the one behind it. -/
theorem fifo_three : ∃ m : Config (Queue ℕ) (QueueCall ℕ) (QueueResult ℕ) (Fin 1),
    popped m.log = [1, 3] ∧ m.shared.buffer = [2] ∧ (popped m.log ++ m.shared.buffer).Perm (pushed m.log) := by
  have hrun : (exec (Monitor.step enter) (start new : Config (Queue ℕ) (QueueCall ℕ) (QueueResult ℕ) (Fin 1))
      [.call 0 (.push 1) none, .call 0 (.push 2) none, .call 0 .pop none, .call 0 (.pushFront 3) none,
        .call 0 .tryPop none]).isSome := by rfl
  obtain ⟨m, hm⟩ := Option.isSome_iff_exists.mp hrun
  have hperm := (fifo ⟨_, hm⟩).1
  refine ⟨m, ?_, ?_, hperm⟩ <;> cases hm <;> rfl

/-- A thread that sleeps in Pop leaves the items to threads that are on their way. -/
theorem sleeper_of_reachable
    (h : Reachable (restrict (fun _ a => Move.made takes a = true) (Monitor.step enter)) (start new) m)
    (ht : (m.phase t).isAsleep) : m.shared.exit = false ∧ m.shared.buffer.length ≤ wokenCount m.phase := by
  have hle := (inv_of_reachable (fun _ hc => paced hc) h).awake ⟨t, ht⟩
  cases hexit : m.shared.exit with
  | true => simp [avail, hexit] at hle
  | false => exact ⟨rfl, by simpa [avail, hexit] using hle⟩

/-- What one round of the loop in Pop does: the thread sleeps, takes the first item, or returns false. -/
inductive PopOutcome (m : Config (Queue α) (QueueCall α) (QueueResult α) ι) (t : ι) :
    Config (Queue α) (QueueCall α) (QueueResult α) ι → Prop
  | wait (hbuffer : m.shared.buffer = []) (hexit : m.shared.exit = false) :
      PopOutcome m t { m with phase := Function.update m.phase t (.asleep .pop) }
  | item {item : α} {rest : List α} (hbuffer : m.shared.buffer = item :: rest) :
      PopOutcome m t ⟨⟨rest, m.shared.exit⟩, Function.update m.phase t .outside,
        m.log ++ [(t, .pop, .item (some item))]⟩
  | left (hbuffer : m.shared.buffer = []) (hexit : m.shared.exit = true) :
      PopOutcome m t ⟨m.shared, Function.update m.phase t .outside, m.log ++ [(t, .pop, .item none)]⟩

theorem pop_outcome {m' : Config (Queue α) (QueueCall α) (QueueResult α) ι}
    (h : critical enter m t .pop none = some m') : PopOutcome m t m' := by
  obtain ⟨⟨buffer, e⟩, phase, log⟩ := m
  cases buffer with
  | nil =>
    cases e with
    | false =>
      cases h
      exact .wait rfl rfl
    | true =>
      cases h
      exact .left rfl rfl
  | cons item rest =>
    cases h
    exact .item rfl

theorem eq_pop_of_wait (hc : takes c = true) (h : ∃ q : Queue α, enter c q = .wait) : c = .pop := by
  obtain ⟨q, hq⟩ := h
  cases c with
  | pop => rfl
  | front => cases hc
  | tryPop =>
    simp only [enter] at hq
    split at hq <;> cases hq
  | push | pushFront | size | empty | exit | alive => cases hq

/-- While there is an item, or after Exit, not all threads inside Pop are stuck there. -/
theorem pop_gets_on (h : Reachable (restrict (fun _ a => Move.made takes a = true) (Monitor.step enter)) (start new) m)
    (ht : m.phase t = .asleep .pop ∨ m.phase t = .woken .pop)
    (hq : m.shared.buffer ≠ [] ∨ m.shared.exit = true) :
    ∃ u m', m.phase u = .woken .pop ∧ Monitor.step enter m (.resume u none) = some m' ∧ m'.phase u = .outside := by
  obtain ⟨u, hu⟩ : ∃ u, m.phase u = .woken .pop := by
    rcases ht with ht | ht
    · obtain ⟨hexit, hle⟩ := sleeper_of_reachable h (t := t) (by rw [ht]; rfl)
      have hbuffer : m.shared.buffer ≠ [] := by simpa [hexit] using hq
      obtain ⟨u, c, hu⟩ := exists_woken ((List.length_pos_iff.mpr hbuffer).trans_le hle)
      obtain ⟨hc, hwait⟩ := (inv_of_reachable (fun _ hc => paced hc) h).waited u c (.inr hu)
      rw [eq_pop_of_wait hc hwait] at hu
      exact ⟨u, hu⟩
    · exact ⟨t, ht⟩
  obtain ⟨x, r, hx⟩ := pop_leaves hq
  refine ⟨u, ⟨x, Function.update m.phase u .outside, m.log ++ [(u, .pop, r)]⟩, hu, ?_, Function.update_self ..⟩
  rw [Monitor.step, hu]
  simp [critical, hx, wake]

/-- Of two threads that sleep in Pop one is woken up for the item that a third pushes. -/
theorem pop_gets_on_three : ∃ m : Config (Queue ℕ) (QueueCall ℕ) (QueueResult ℕ) (Fin 3),
    m.phase 1 = .asleep .pop ∧ m.shared.buffer ≠ [] ∧
      ∃ u m', m.phase u = .woken .pop ∧ Monitor.step enter m (.resume u none) = some m' ∧ m'.phase u = .outside := by
  have hrun : (exec (restrict (fun _ a => Move.made takes a = true) (Monitor.step enter))
      (start new : Config (Queue ℕ) (QueueCall ℕ) (QueueResult ℕ) (Fin 3))
      [.call 0 .pop none, .call 1 .pop none, .call 2 (.push 7) (some 0)]).isSome := by rfl
  obtain ⟨m, hm⟩ := Option.isSome_iff_exists.mp hrun
  have hphase : m.phase 1 = .asleep .pop := by
    cases hm
    rfl
  have hbuffer : m.shared.buffer ≠ [] := by
    cases hm
    exact List.cons_ne_nil _ _
  exact ⟨m, hphase, hbuffer, pop_gets_on ⟨_, hm⟩ (.inl hphase) (.inl hbuffer)⟩

/-- A thread in Front is woken up for the item, and leaves it to one that sleeps on. -/
theorem front_loses_wake_up : ∃ m : Config (Queue ℕ) (QueueCall ℕ) (QueueResult ℕ) (Fin 3),
    Reachable (Monitor.step enter) (start new) m ∧ m.phase 1 = .asleep .pop ∧ m.shared.buffer = [7] ∧
      ∀ u, (m.phase u).isWoken = false := by
  refine ⟨_, ⟨[.call 0 .front none, .call 1 .pop none, .call 2 (.push 7) (some 0), .resume 0 none], rfl⟩, rfl, rfl, ?_⟩
  decide

end Threads

end Queue
end Hpps

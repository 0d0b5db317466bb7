import Hpps.Feeder.Handover
import Hpps.Lib.Refinement
import Hpps.Lib.Tally

/-! A feeder that is stopped while its threads assemble batches. -/
namespace Hpps.Feeder

open TransitionSystem

/-- A thread returned from `Run` or stands where `feeder` says. `Stop` has cleared `running_`, has left `exited` task
queues, and has joined the first `joined` threads. -/
structure StoppableFeeder (ρ β : Type) (T : ℕ) where
  feeder : FeederState ρ β T
  returned : Fin T → Bool
  running : Bool
  exited : ℕ
  joined : ℕ

/-- A thread does its next step, a consumer pops a batch, or `Stop` clears `running_`, leaves the next task queue or
joins the next thread. -/
inductive StopMove (T : ℕ)
  | thread (t : Fin T)
  | consume (i : ℕ)
  | clear
  | exit
  | join

namespace StoppableFeeder

variable {ρ β : Type} {T : ℕ} (assembleBatch : ℕ → ρ → Except Stop (β × ρ)) (plans : List (Plan ρ))
  (s : StoppableFeeder ρ β T)

/-- `Start` makes the threads; each looks at `running_` before it visits the first plan. -/
def start : StoppableFeeder ρ β T where
  feeder := { (FeederState.init plans : FeederState ρ β T) with threads := fun _ => .visit plans.length }
  returned _ := false
  running := true
  exited := 0
  joined := 0

def setThread (t : Fin T) (p : Position ρ β) : StoppableFeeder ρ β T := { s with feeder := s.feeder.setThread t p }

def ofFeeder (m : FeederMove T) : Option (StoppableFeeder ρ β T) :=
  (FeederState.step assembleBatch plans s.feeder m).map fun feeder => { s with feeder }

/-- The next step of a thread. Pop of an empty queue that was left returns false. -/
def advance (t : Fin T) : Option (StoppableFeeder ρ β T) :=
  match s.feeder.threads t with
  | .visit i =>
    if plans.length ≤ i then
      some (if s.running then s.setThread t (.visit 0) else { s with returned := Function.update s.returned t true })
    else s.ofFeeder assembleBatch plans (.thread t)
  | .pop i =>
    if (s.feeder.taskQueues i).isEmpty ∧ i < s.exited then some (s.setThread t (.visit (i + 1)))
    else s.ofFeeder assembleBatch plans (.thread t)
  | _ => s.ofFeeder assembleBatch plans (.thread t)

def step (a : StopMove T) : Option (StoppableFeeder ρ β T) :=
  if s.feeder.stop.isSome then none
  else
    match a with
    | .thread t => if s.returned t then none else s.advance assembleBatch plans t
    | .consume i => s.ofFeeder assembleBatch plans (.consume i)
    | .clear => if s.running then some { s with running := false } else none
    | .exit => if ¬ s.running ∧ s.exited < plans.length then some { s with exited := s.exited + 1 } else none
    | .join =>
      if h : s.joined < T then
        if s.exited = plans.length ∧ ¬ s.running ∧ s.returned ⟨s.joined, h⟩ then some { s with joined := s.joined + 1 }
        else none
      else none

variable {assembleBatch plans s} {s' : StoppableFeeder ρ β T} {t : Fin T} {a : StopMove T} {i id : ℕ}

/-- What each move can do. -/
inductive Outcome (assembleBatch : ℕ → ρ → Except Stop (β × ρ)) (plans : List (Plan ρ)) (s : StoppableFeeder ρ β T) :
    StopMove T → StoppableFeeder ρ β T → Prop
  | again {t : Fin T} {i : ℕ} (halive : s.returned t = false) (ht : s.feeder.threads t = .visit i)
      (hrun : s.running = true) : Outcome assembleBatch plans s (.thread t) (s.setThread t (.visit 0))
  | leave {t : Fin T} {i : ℕ} (halive : s.returned t = false) (ht : s.feeder.threads t = .visit i)
      (hrun : s.running = false) :
      Outcome assembleBatch plans s (.thread t) { s with returned := Function.update s.returned t true }
  | released {t : Fin T} {i : ℕ} (halive : s.returned t = false) (ht : s.feeder.threads t = .pop i)
      (hi : i < s.exited) : Outcome assembleBatch plans s (.thread t) (s.setThread t (.visit (i + 1)))
  | thread {t : Fin T} {feeder : FeederState ρ β T} (halive : s.returned t = false)
      (hi : ∀ i, s.feeder.threads t = .visit i → i < plans.length)
      (hs : FeederState.step assembleBatch plans s.feeder (.thread t) = some feeder) :
      Outcome assembleBatch plans s (.thread t) { s with feeder }
  | consume {i : ℕ} {feeder : FeederState ρ β T}
      (hs : FeederState.step assembleBatch plans s.feeder (.consume i) = some feeder) :
      Outcome assembleBatch plans s (.consume i) { s with feeder }
  | clear (hrun : s.running = true) : Outcome assembleBatch plans s .clear { s with running := false }
  | exit (hrun : s.running = false) (hlt : s.exited < plans.length) :
      Outcome assembleBatch plans s .exit { s with exited := s.exited + 1 }
  | join (hlt : s.joined < T) (hexit : s.exited = plans.length) (hrun : s.running = false)
      (hreturned : s.returned ⟨s.joined, hlt⟩ = true) :
      Outcome assembleBatch plans s .join { s with joined := s.joined + 1 }

theorem step_outcome (hs : step assembleBatch plans s a = some s') : Outcome assembleBatch plans s a s' := by
  unfold step at hs
  split at hs
  · cases hs
  · cases a with
    | thread t =>
      dsimp only at hs
      split at hs
      · cases hs
      · rename_i hreturned
        have halive : s.returned t = false := by simpa using hreturned
        unfold advance at hs
        split at hs
        · rename_i i ht
          split at hs
          · split at hs
            · rename_i hrun
              cases hs
              exact .again halive ht hrun
            · rename_i hrun
              cases hs
              exact .leave halive ht (by simpa using hrun)
          · rename_i hlt
            obtain ⟨feeder, hf, rfl⟩ := Option.map_eq_some_iff.mp hs
            refine .thread halive (fun j hj => ?_) hf
            cases ht.symm.trans hj
            exact not_le.mp hlt
        · rename_i i ht
          split at hs
          · rename_i hleft
            cases hs
            exact .released halive ht hleft.2
          · obtain ⟨feeder, hf, rfl⟩ := Option.map_eq_some_iff.mp hs
            exact .thread halive (fun j hj => by cases ht.symm.trans hj) hf
        · rename_i hvisit _
          obtain ⟨feeder, hf, rfl⟩ := Option.map_eq_some_iff.mp hs
          exact .thread halive (fun j hj => absurd hj (hvisit j)) hf
    | consume i =>
      obtain ⟨feeder, hf, rfl⟩ := Option.map_eq_some_iff.mp hs
      exact .consume hf
    | clear =>
      dsimp only at hs
      split at hs
      · rename_i hrun
        cases hs
        exact .clear hrun
      · cases hs
    | exit =>
      dsimp only at hs
      split at hs
      · rename_i hexit
        cases hs
        exact .exit (by simpa using hexit.1) hexit.2
      · cases hs
    | join =>
      dsimp only at hs
      split at hs
      · rename_i hlt
        split at hs
        · rename_i hjoin
          cases hs
          exact .join hlt hjoin.1 (by simpa using hjoin.2.1) hjoin.2.2
        · cases hs
      · cases hs

/-! ### Invariant -/

/-- A thread stands at a plan, or behind the last one. -/
def InRange (P : ℕ) : Position ρ β → Prop
  | .visit i => i ≤ P
  | .pop i | .assemble i _ | .push i _ _ | .putBack i _ => i < P

/-- What `Stop` has done so far, and where it found the threads. -/
structure Inv (plans : List (Plan ρ)) (s : StoppableFeeder ρ β T) : Prop where
  inRange : ∀ t, InRange plans.length (s.feeder.threads t)
  home : ∀ t, s.returned t = true → ∃ i, s.feeder.threads t = .visit i
  exited : s.exited ≤ plans.length
  joined : s.joined ≤ T ∧ ∀ t : Fin T, t < s.joined → s.returned t = true
  running : s.running = true → s.exited = 0 ∧ s.joined = 0 ∧ ∀ t, s.returned t = false

theorem inv_start : Inv plans (start plans : StoppableFeeder ρ β T) where
  inRange _ := le_rfl
  home _ h := nomatch h
  exited := Nat.zero_le _
  joined := ⟨Nat.zero_le _, fun _ h => absurd h (Nat.not_lt_zero _)⟩
  running _ := ⟨rfl, rfl, fun _ => rfl⟩

/-- A thread that looks whether the queue of its plan is full goes on or to the next plan. -/
theorem visit_step {f f' : FeederState ρ β T} (ht : f.threads t = .visit i) (hi : i < plans.length)
    (hs : FeederState.step assembleBatch plans f (.thread t) = some f') :
    f' = f.setThread t (.visit (i + 1)) ∨ f' = f.setThread t (.pop i) := by
  rw [FeederState.step] at hs
  split at hs
  · cases hs
  · rw [FeederState.advance, ht] at hs
    dsimp only at hs
    rw [List.getElem?_eq_getElem hi] at hs
    cases hs
    split
    · exact .inl rfl
    · exact .inr rfl

/-- How many moves a thread makes before it looks at `running_` and returns. -/
def toGo (P : ℕ) : Position ρ β → ℕ
  | .visit i => 5 * (P - i) + 1
  | .pop i => 5 * (P - i)
  | .assemble i _ => 5 * (P - i) - 1
  | .push i _ _ => 5 * (P - i) - 2
  | .putBack i _ => 5 * (P - i) - 3

/-- A thread's own move, unless it ends the process, brings it nearer to its next look at `running_`. -/
theorem thread_step {f f' : FeederState ρ β T} (hrange : InRange plans.length (f.threads t))
    (hi : ∀ i, f.threads t = .visit i → i < plans.length)
    (hs : FeederState.step assembleBatch plans f (.thread t) = some f') : (∃ e, f' = { f with stop := some e }) ∨
    f'.stop = f.stop ∧ ∃ p, f'.threads = Function.update f.threads t p ∧ InRange plans.length p ∧
      toGo plans.length p < toGo plans.length (f.threads t) := by
  have hvisit : ∀ i, f.threads t = .visit i → f'.stop = f.stop ∧ ∃ p, f'.threads = Function.update f.threads t p ∧
      InRange plans.length p ∧ toGo plans.length p < toGo plans.length (f.threads t) := by
    intro i ht
    have hlt := hi i ht
    rw [ht]
    rcases visit_step ht hlt hs with rfl | rfl
    · exact ⟨rfl, .visit (i + 1), rfl, hlt, by simp only [toGo]; omega⟩
    · exact ⟨rfl, .pop i, rfl, hlt, by simp only [toGo]; omega⟩
  cases (FeederState.step_outcome hs).2 with
  | skip ht | enter ht => exact .inr (hvisit _ ht)
  | assembleStop => exact .inl ⟨_, rfl⟩
  | pop ht | assemble ht | drop ht | push ht | putBack ht | finish ht =>
    rw [ht] at hrange ⊢
    refine .inr ⟨rfl, _, rfl, ?_, ?_⟩
    · simp only [InRange] at hrange ⊢
      omega
    · simp only [InRange] at hrange
      simp only [toGo]
      omega

theorem Inv.setThread (h : Inv plans s) {f : FeederState ρ β T} {p : Position ρ β} (halive : s.returned t = false)
    (hf : f.threads = Function.update s.feeder.threads t p) (hp : InRange plans.length p) :
    Inv plans { s with feeder := f } where
  inRange u := by
    dsimp only
    rw [hf]
    by_cases hu : u = t
    · subst hu
      rwa [Function.update_self]
    · rw [Function.update_of_ne hu]
      exact h.inRange u
  home u hu := by
    have hne : u ≠ t := by
      rintro rfl
      rw [halive] at hu
      cases hu
    dsimp only
    rw [hf, Function.update_of_ne hne]
    exact h.home u hu
  exited := h.exited
  joined := h.joined
  running := h.running

theorem Inv.step (h : Inv plans s) (hs : step assembleBatch plans s a = some s') : Inv plans s' := by
  cases step_outcome hs with
  | again halive ht hrun => exact h.setThread halive rfl (Nat.zero_le plans.length)
  | @released t i halive ht hi => exact h.setThread halive rfl (Nat.succ_le_of_lt (hi.trans_le h.exited))
  | @thread t feeder halive hi hf =>
    rcases thread_step (h.inRange t) hi hf with ⟨e, rfl⟩ | ⟨-, p, hp, hrange, -⟩
    · exact ⟨h.inRange, h.home, h.exited, h.joined, h.running⟩
    · exact h.setThread halive hp hrange
  | consume hf =>
    cases (FeederState.step_outcome hf).2 with
    | consume => exact ⟨h.inRange, h.home, h.exited, h.joined, h.running⟩
  | @leave t i halive ht hrun =>
    refine ⟨h.inRange, fun u hu => ?_, h.exited, ⟨h.joined.1, fun u hu => ?_⟩, fun hrunning => ?_⟩
    · by_cases hut : u = t
      · exact ⟨i, hut ▸ ht⟩
      · dsimp only at hu
        rw [Function.update_of_ne hut] at hu
        exact h.home u hu
    · dsimp only
      rw [Function.update_apply]
      split
      · rfl
      · exact h.joined.2 u hu
    · rw [hrun] at hrunning
      cases hrunning
  | clear => exact ⟨h.inRange, h.home, h.exited, h.joined, fun hrunning => nomatch hrunning⟩
  | exit hrun hlt =>
    refine ⟨h.inRange, h.home, hlt, h.joined, fun hrunning => ?_⟩
    rw [hrun] at hrunning
    cases hrunning
  | join hlt hexit hrun hreturned =>
    refine ⟨h.inRange, h.home, h.exited, ⟨hlt, fun u hu => ?_⟩, fun hrunning => ?_⟩
    · rcases (Nat.lt_succ_iff.mp hu).lt_or_eq with hu | hu
      · exact h.joined.2 u hu
      · have heq : u = ⟨s.joined, hlt⟩ := Fin.ext hu
        rw [heq]
        exact hreturned
    · rw [hrun] at hrunning
      cases hrunning

theorem inv_of_reachable (h : Reachable (StoppableFeeder.step assembleBatch plans) (start plans) s) : Inv plans s :=
  h.invariant inv_start fun _ _ _ hx hs => hx.step hs

/-! ### Stop returns -/

/-- The moves of the threads, and those that `Stop` makes after it cleared `running_`. -/
def own : StopMove T → Bool
  | .thread _ | .exit | .join => true
  | _ => false

def threadRank (P : ℕ) (s : StoppableFeeder ρ β T) (t : Fin T) : ℕ :=
  if s.returned t then 0 else toGo P (s.feeder.threads t)

/-- A bound on the moves that are left once `running_` was cleared. -/
def rank (P : ℕ) (s : StoppableFeeder ρ β T) : ℕ :=
  ∑ t, threadRank P s t + (P - s.exited) + (T - s.joined) + if s.feeder.stop.isSome then 0 else 1

theorem sum_threadRank {P : ℕ} (hother : ∀ u ≠ t, threadRank P s' u = threadRank P s u) :
    ∑ u, threadRank P s' u + threadRank P s t = ∑ u, threadRank P s u + threadRank P s' t := by
  have hupdate : threadRank P s' = Function.update (threadRank P s) t (threadRank P s' t) :=
    Function.eq_update_iff.mpr ⟨rfl, hother⟩
  have hsum := Tally.sum_update id (threadRank P s) t (threadRank P s' t)
  rw [← hupdate] at hsum
  exact hsum

/-- A thread that comes nearer to its return lowers the bound. -/
theorem rank_thread {P : ℕ} {p : Position ρ β} {f : FeederState ρ β T} (halive : s.returned t = false)
    (hf : f.threads = Function.update s.feeder.threads t p) (hstop : f.stop = s.feeder.stop)
    (hlt : toGo P p < toGo P (s.feeder.threads t)) : rank P { s with feeder := f } + 1 ≤ rank P s := by
  have hold : threadRank P s t = toGo P (s.feeder.threads t) := by simp [threadRank, halive]
  have hnew : threadRank P { s with feeder := f } t = toGo P p := by simp [threadRank, halive, hf]
  have hsum : ∑ u, threadRank P { s with feeder := f } u + threadRank P s t = _ := sum_threadRank fun u hu => by
    simp [threadRank, hf, Function.update_of_ne hu]
  rw [hold, hnew] at hsum
  simp only [rank, hstop]
  omega

/-- After `running_` was cleared each move of the threads and of `Stop` uses something up. -/
theorem rank_step (h : Inv plans s) (hrun : s.running = false) (hs : step assembleBatch plans s a = some s') :
    s'.running = false ∧ rank plans.length s' + (if own a then 1 else 0) ≤ rank plans.length s := by
  cases step_outcome hs with
  | again halive ht hrun' | clear hrun' =>
    rw [hrun] at hrun'
    cases hrun'
  | @leave t i halive ht =>
    refine ⟨hrun, ?_⟩
    have hold : threadRank plans.length s t = 5 * (plans.length - i) + 1 := by simp [threadRank, halive, ht, toGo]
    have hsum : ∑ u, threadRank plans.length { s with returned := Function.update s.returned t true } u +
        threadRank plans.length s t = _ :=
      sum_threadRank fun u hu => by simp [threadRank, Function.update_of_ne hu]
    have hnew : threadRank plans.length { s with returned := Function.update s.returned t true } t = 0 := by
      simp [threadRank]
    rw [hold, hnew] at hsum
    simp only [rank, own, if_true]
    omega
  | @released t i halive ht hi =>
    have hlt : i < plans.length := hi.trans_le h.exited
    exact ⟨hrun, rank_thread halive rfl rfl (by rw [ht]; simp only [toGo]; omega)⟩
  | @thread t feeder halive hi hf =>
    refine ⟨hrun, ?_⟩
    rcases thread_step (h.inRange t) hi hf with ⟨e, rfl⟩ | ⟨hstop, p, hp, -, hlt⟩
    · simp [rank, threadRank, own, (FeederState.step_outcome hf).1]
    · exact rank_thread halive hp hstop hlt
  | consume hf =>
    cases (FeederState.step_outcome hf).2 with
    | consume => exact ⟨hrun, by simp [rank, threadRank, own]⟩
  | exit hrun' hlt =>
    refine ⟨hrun, ?_⟩
    simp only [rank, threadRank, own, if_true]
    omega
  | join hlt hexit hrun' hreturned =>
    refine ⟨hrun, ?_⟩
    simp only [rank, threadRank, own, if_true]
    omega

/-- When all queues were left a thread waits for nothing. -/
theorem thread_enabled (h : Inv plans s) (hstop : s.feeder.stop = none) (hexit : s.exited = plans.length)
    (halive : s.returned t = false) : (step assembleBatch plans s (.thread t)).isSome := by
  have hrange := h.inRange t
  simp only [step, hstop, halive, advance, Option.isSome_none, Bool.false_eq_true, if_false]
  cases ht : s.feeder.threads t with
  | visit i =>
    dsimp only
    split
    · rfl
    · rename_i hlt
      have hi : i < plans.length := not_le.mp hlt
      simp [ofFeeder, FeederState.step, FeederState.advance, hstop, ht, List.getElem?_eq_getElem hi]
  | pop i =>
    rw [ht] at hrange
    have hi : i < s.exited := hexit ▸ hrange
    cases hq : s.feeder.taskQueues i with
    | nil => simp [hq, hi]
    | cons task tasks => simp [ofFeeder, FeederState.step, FeederState.advance, hstop, ht, hq]
  | assemble i task =>
    rw [ht] at hrange
    have hplan : plans[i]? = some plans[i] := List.getElem?_eq_getElem hrange
    simp only [ofFeeder, FeederState.step, FeederState.advance, hstop, ht, hplan, Option.isSome_none,
      Bool.false_eq_true, if_false, Option.isSome_map]
    split
    · split <;> rfl
    · rfl
  | push i task batch => simp [ofFeeder, FeederState.step, FeederState.advance, hstop, ht]
  | putBack i task =>
    simp only [ofFeeder, FeederState.step, FeederState.advance, hstop, ht, Option.isSome_none, Bool.false_eq_true,
      if_false, Option.isSome_map]
    split <;> rfl

/-- Once `running_` was cleared the threads and `Stop` make a bounded number of moves, whatever the consumers do, and
until the last thread is joined there is a move to make. -/
theorem feeder_stop_returns (h : Reachable (StoppableFeeder.step assembleBatch plans) (start plans) s)
    (hrun : s.running = false) :
    (∀ as s', exec (StoppableFeeder.step assembleBatch plans) s as = some s' → as.countP own ≤ rank plans.length s) ∧
      (s.feeder.stop.isSome ∨ s.joined = T ∨
        ∃ a, own a = true ∧ (step assembleBatch plans s a).isSome) := by
  have hs := inv_of_reachable h
  constructor
  · intro as s' hs'
    have hle := exec_countP_le (fun s : StoppableFeeder ρ β T => Inv plans s ∧ s.running = false)
      (rank plans.length) own (fun _ => false) 0 (fun x a y hx hy => ?_) ⟨hs, hrun⟩ hs'
    · omega
    · obtain ⟨hrun', hrank⟩ := rank_step hx.1 hx.2 hy
      exact ⟨⟨hx.1.step hy, hrun'⟩, by simpa using hrank⟩
  · cases hstop : s.feeder.stop with
    | some e => exact .inl rfl
    | none =>
      refine .inr ?_
      rcases hs.exited.lt_or_eq with hlt | hexit
      · exact .inr ⟨.exit, rfl, by simp [step, hstop, hrun, hlt]⟩
      · rcases hs.joined.1.eq_or_lt with hjoined | hlt
        · exact .inl hjoined
        · refine .inr ?_
          cases hreturned : s.returned ⟨s.joined, hlt⟩ with
          | true => exact ⟨.join, rfl, by simp [step, hstop, hlt, hexit, hrun, hreturned]⟩
          | false => exact ⟨.thread ⟨s.joined, hlt⟩, rfl, thread_enabled hs hstop hexit hreturned⟩

/-! ### What was pushed -/

section Handed

open FeederState

variable {batchSize sampleCount : ℕ} {st : Stages assembleBatch batchSize sampleCount} {plan : Plan ρ}
  {record : SampleRecord ρ}

theorem handed_start (hplan : plans[i]? = some plan) (hrecord : plan.sampleRecord[id]? = some record)
    (hcount : record.sampleCount = sampleCount) (hready : st.ready 0 record.recordIo) :
    Handed st i id (start plans : StoppableFeeder ρ β T).feeder := by
  have h : Handed st i id (init plans : FeederState ρ β T) := handed_init hplan hrecord hcount hready
  exact ⟨h.standing.frame rfl rfl fun u => .inr ⟨not_holding rfl, not_holding rfl⟩, h.good⟩

theorem handed_step (h : Handed st i id s.feeder) (hplan : plans[i]? = some plan) (hsize : plan.batchSize = batchSize)
    (hpos : 0 < batchSize) (hs : step assembleBatch plans s a = some s') : Handed st i id s'.feeder := by
  cases step_outcome hs with
  | again halive ht | released halive ht =>
    exact h.frame rfl rfl rfl (by rw [ht]; exact not_holding rfl) (not_holding rfl)
  | leave | clear | exit | join => exact h
  | thread halive hi hf => exact h.step hplan hsize hpos hf
  | consume hf => exact h.step hplan hsize hpos hf

/-- Whenever the feeder is stopped, what was pushed of a record are its first batches; and when all threads are joined
its task is in the queue just behind them, or all its batches were pushed. -/
theorem stopped_at_batch (hplan : plans[i]? = some plan) (hsize : plan.batchSize = batchSize) (hpos : 0 < batchSize)
    (hrecord : plan.sampleRecord[id]? = some record) (hcount : record.sampleCount = sampleCount)
    (hready : st.ready 0 record.recordIo)
    (h : Reachable (StoppableFeeder.step assembleBatch plans) (start plans) s) :
    (∀ k batch, (s.feeder.batches i id)[k]? = some batch → st.good k batch) ∧
      (s.feeder.batches i id).length ≤ sampleCount / batchSize ∧
      (s.joined = T → (∃ task, s.feeder.queued i id = [task] ∧ AtBatch st id (s.feeder.batches i id).length task) ∨
        s.feeder.Gone i id ∧ (s.feeder.batches i id).length = sampleCount / batchSize) := by
  have hs := inv_of_reachable h
  have hhanded : Handed st i id s.feeder :=
    h.invariant (P := fun s => Handed st i id s.feeder) (handed_start hplan hrecord hcount hready)
      fun _ _ _ hx hy => handed_step hx hplan hsize hpos hy
  obtain ⟨hgood, hle, -⟩ := hhanded.over hpos
  refine ⟨hgood, hle, fun hjoined => ?_⟩
  have hfree : ∀ t : Fin T, held (s.feeder.threads t) = none := by
    intro t
    obtain ⟨j, hj⟩ := hs.home t (hs.joined.2 t (by rw [hjoined]; exact t.isLt))
    rw [hj]
    rfl
  cases hhanded.standing with
  | queued hq _ hat => exact .inl ⟨_, hq, hat⟩
  | @assemble t _ _ ht | @push t _ _ _ ht | @putBack t _ _ ht =>
    have := hfree t
    rw [ht] at this
    cases this
  | gone hgone hcount => exact .inr ⟨hgone, hcount⟩

end Handed

end StoppableFeeder

/-- The record is the number of its next batch. -/
def countBatches (_ : ℕ) (record : ℕ) : Except Stop (ℕ × ℕ) := .ok (record, record + 1)

def countedStages : Stages countBatches 2 4 where
  ready k record := record = k
  good k batch := batch = k
  assemble k record batch record' h _ hok := by
    cases hok
    exact ⟨h, congrArg (· + 1) h⟩

namespace StoppableFeeder

/-- The one thread is stopped while it holds the task of the first batch. -/
def stopAmid (t : Fin 1) : List (StopMove 1) :=
  [.thread t, .thread t, .thread t, .clear, .thread t, .thread t, .thread t, .exit, .thread t, .join]

open TwoParties in
theorem feeder_stop_returns_one : ∃ s : StoppableFeeder ℕ ℕ 1, s.running = false ∧
    ∀ as s', exec (StoppableFeeder.step countBatches [⟨[⟨4, 0⟩], 2, 1⟩]) s as = some s' → as.countP own ≤ rank 1 s := by
  have hrun : (exec (StoppableFeeder.step countBatches [⟨[⟨4, 0⟩], 2, 1⟩])
      (start [⟨[⟨4, 0⟩], 2, 1⟩] : StoppableFeeder ℕ ℕ 1) ((stopAmid 0).take 4)).isSome := by rfl
  obtain ⟨s, hs⟩ := Option.isSome_iff_exists.mp hrun
  have hrunning : s.running = false := by
    cases hs
    rfl
  exact ⟨s, hrunning, (feeder_stop_returns ⟨_, hs⟩ hrunning).1⟩

open TwoParties in
theorem stopped_at_batch_one : ∃ s : StoppableFeeder ℕ ℕ 1, s.joined = 1 ∧ s.feeder.batches 0 0 = [0] ∧
    ((∃ task, s.feeder.queued 0 0 = [task] ∧ FeederState.AtBatch countedStages 0 1 task) ∨
      s.feeder.Gone 0 0 ∧ 1 = 4 / 2) := by
  have hrun : (exec (StoppableFeeder.step countBatches [⟨[⟨4, 0⟩], 2, 1⟩])
      (start [⟨[⟨4, 0⟩], 2, 1⟩] : StoppableFeeder ℕ ℕ 1) (stopAmid 0)).isSome := by rfl
  obtain ⟨s, hs⟩ := Option.isSome_iff_exists.mp hrun
  have hjoined : s.joined = 1 := by
    cases hs
    rfl
  have hbatches : s.feeder.batches 0 0 = [0] := by
    cases hs
    rfl
  have hplan : ([⟨[⟨4, 0⟩], 2, 1⟩] : List (Plan ℕ))[0]? = some ⟨[⟨4, 0⟩], 2, 1⟩ := rfl
  have hrecord : ([⟨4, 0⟩] : List (SampleRecord ℕ))[0]? = some ⟨4, 0⟩ := rfl
  have hready : countedStages.ready 0 (0 : ℕ) := rfl
  obtain ⟨-, -, hall⟩ := stopped_at_batch hplan rfl two_pos hrecord rfl hready ⟨_, hs⟩
  rw [hbatches] at hall
  exact ⟨s, hjoined, hbatches, hall hjoined⟩

end StoppableFeeder
end Hpps.Feeder

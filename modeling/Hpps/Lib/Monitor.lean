import Hpps.Lib.Tally
import Hpps.Lib.TransitionSystem

/-! Monitors: a state behind one mutex, and a condition variable on which threads wait for it to change. -/
namespace Monitor

open Tally TransitionSystem

/-- How a critical section signals the condition variable. -/
inductive Signal
  | none
  | one
  | all
deriving DecidableEq

/-- What a critical section ends in: the thread goes to sleep, or it leaves with a result. -/
inductive Ending (σ ρ : Type)
  | wait
  | leave (s : σ) (r : ρ) (signal : Signal)

/-- A thread that was woken up has not got the mutex back yet. -/
inductive Phase (κ : Type)
  | outside
  | asleep (c : κ)
  | woken (c : κ)

namespace Phase

variable {κ : Type}

def isAsleep : Phase κ → Bool
  | asleep _ => true
  | _ => false

def isWoken : Phase κ → Bool
  | woken _ => true
  | _ => false

def wakeUp : Phase κ → Phase κ
  | asleep c => woken c
  | p => p

theorem isAsleep_wakeUp (p : Phase κ) : p.wakeUp.isAsleep = false := by cases p <;> rfl

end Phase

/-- The log of the calls that have returned is not read. -/
structure Config (σ κ ρ ι : Type) where
  shared : σ
  phase : ι → Phase κ
  log : List (ι × κ × ρ)

/-- A thread calls or gets the mutex back after it was woken up, or it wakes up for no reason. A thread that
signals one other names the one that is woken up, if any is asleep. -/
inductive Move (κ ι : Type)
  | call (t : ι) (c : κ) (wakes : Option ι)
  | resume (t : ι) (wakes : Option ι)
  | spurious (t : ι)

variable {σ κ ρ ι : Type} [Fintype ι] [DecidableEq ι] (enter : κ → σ → Ending σ ρ)

def start (s : σ) : Config σ κ ρ ι := ⟨s, fun _ => .outside, []⟩

def wake (phase : ι → Phase κ) : Signal → Option ι → Option (ι → Phase κ)
  | .none, none => some phase
  | .one, none => if ∀ t, (phase t).isAsleep = false then some phase else none
  | .one, some u =>
    match phase u with
    | .asleep c => some (Function.update phase u (.woken c))
    | _ => none
  | .all, none => some fun t => (phase t).wakeUp
  | _, some _ => none

/-- The critical section of a call, by a thread that holds the mutex. -/
def critical (m : Config σ κ ρ ι) (t : ι) (c : κ) (wakes : Option ι) : Option (Config σ κ ρ ι) :=
  match enter c m.shared with
  | .wait => if wakes = none then some { m with phase := Function.update m.phase t (.asleep c) } else none
  | .leave s r signal =>
    (wake (Function.update m.phase t .outside) signal wakes).map fun phase => ⟨s, phase, m.log ++ [(t, c, r)]⟩

def step (m : Config σ κ ρ ι) : Move κ ι → Option (Config σ κ ρ ι)
  | .call t c wakes =>
    match m.phase t with
    | .outside => critical enter m t c wakes
    | _ => none
  | .resume t wakes =>
    match m.phase t with
    | .woken c => critical enter m t c wakes
    | _ => none
  | .spurious t =>
    match m.phase t with
    | .asleep c => some { m with phase := Function.update m.phase t (.woken c) }
    | _ => none

variable {enter} {m m' : Config σ κ ρ ι} {a : Move κ ι} {t u : ι} {c : κ} {s x : σ} {r : ρ} {signal : Signal}
  {w : Option ι} {phase phase' : ι → Phase κ}

/-- What a signal does to the threads that are asleep. -/
inductive Woken (phase : ι → Phase κ) : Signal → (ι → Phase κ) → Prop
  | none : Woken phase .none phase
  | nobody (h : ∀ t, (phase t).isAsleep = false) : Woken phase .one phase
  | one {u : ι} {c : κ} (h : phase u = .asleep c) : Woken phase .one (Function.update phase u (.woken c))
  | all : Woken phase .all fun t => (phase t).wakeUp

theorem wake_woken (h : wake phase signal w = some phase') : Woken phase signal phase' := by
  unfold wake at h
  split at h
  · cases h
    exact .none
  · split at h
    · rename_i hnobody
      cases h
      exact .nobody hnobody
    · cases h
  · split at h
    · rename_i hu
      cases h
      exact .one hu
    · cases h
  · cases h
    exact .all
  · cases h

/-- What each move can do. -/
inductive Outcome (enter : κ → σ → Ending σ ρ) (m : Config σ κ ρ ι) : Move κ ι → Config σ κ ρ ι → Prop
  | wait {t : ι} {c : κ} {a : Move κ ι} (ha : a = .call t c .none ∧ m.phase t = .outside ∨
      a = .resume t .none ∧ m.phase t = .woken c) (h : enter c m.shared = .wait) :
      Outcome enter m a { m with phase := Function.update m.phase t (.asleep c) }
  | leave {t : ι} {c : κ} {w : Option ι} {a : Move κ ι} {s : σ} {r : ρ} {signal : Signal} {phase : ι → Phase κ}
      (ha : a = .call t c w ∧ m.phase t = .outside ∨ a = .resume t w ∧ m.phase t = .woken c)
      (h : enter c m.shared = .leave s r signal) (hw : Woken (Function.update m.phase t .outside) signal phase) :
      Outcome enter m a ⟨s, phase, m.log ++ [(t, c, r)]⟩
  | spurious {t : ι} {c : κ} (ht : m.phase t = .asleep c) :
      Outcome enter m (.spurious t) { m with phase := Function.update m.phase t (.woken c) }

theorem critical_outcome (ha : a = .call t c w ∧ m.phase t = .outside ∨ a = .resume t w ∧ m.phase t = .woken c)
    (h : critical enter m t c w = some m') : Outcome enter m a m' := by
  unfold critical at h
  split at h
  · rename_i hwait
    split at h
    · rename_i hw
      subst hw
      cases h
      exact .wait ha hwait
    · cases h
  · rename_i hleave
    obtain ⟨phase, hphase, rfl⟩ := Option.map_eq_some_iff.mp h
    exact .leave ha hleave (wake_woken hphase)

theorem step_outcome (h : step enter m a = some m') : Outcome enter m a m' := by
  cases a with
  | call t c w =>
    rw [step] at h
    split at h
    · rename_i ht
      exact critical_outcome (.inl ⟨rfl, ht⟩) h
    · cases h
  | resume t w =>
    rw [step] at h
    split at h
    · rename_i c ht
      exact critical_outcome (.inr ⟨rfl, ht⟩) h
    · cases h
  | spurious t =>
    rw [step] at h
    split at h
    · rename_i c ht
      cases h
      exact .spurious ht
    · cases h

/-- A call that does not wait. -/
theorem call_leaves (h : step enter m (.call t c w) = some m') (hleave : enter c m.shared = .leave s r signal) :
    m.phase t = .outside ∧ ∃ phase, Woken m.phase signal phase ∧ m' = ⟨s, phase, m.log ++ [(t, c, r)]⟩ := by
  cases step_outcome h with
  | wait ha hwait =>
    obtain ⟨ha, -⟩ | ⟨ha, -⟩ := ha <;> cases ha
    rw [hwait] at hleave
    cases hleave
  | @leave _ _ _ _ _ _ _ phase ha hleave' hw =>
    obtain ⟨ha, ht⟩ | ⟨ha, -⟩ := ha <;> cases ha
    rw [hleave'] at hleave
    cases hleave
    rw [← ht, Function.update_eq_self] at hw
    exact ⟨ht, phase, hw, rfl⟩

/-! ### Calls take effect one after the other -/

/-- The calls of a log, made one after the other by a single thread. -/
def Replays (enter : κ → σ → Ending σ ρ) : σ → List (ι × κ × ρ) → σ → Prop
  | s, [], x => s = x
  | s, (_, c, r) :: l, x => ∃ y signal, enter c s = .leave y r signal ∧ Replays enter y l x

omit [Fintype ι] [DecidableEq ι] in
theorem Replays.append_singleton {l : List (ι × κ × ρ)} (h : Replays enter s l x) {y : σ}
    (hx : enter c x = .leave y r signal) : Replays enter s (l ++ [(t, c, r)]) y := by
  induction l generalizing s with
  | nil =>
    cases h
    exact ⟨y, signal, hx, rfl⟩
  | cons e l ih =>
    obtain ⟨t, c, r⟩ := e
    obtain ⟨z, signal, hz, hrest⟩ := h
    exact ⟨z, signal, hz, ih hrest⟩

/-- Whatever the threads do, the state is that of the logged calls made one after the other. -/
theorem replays_of_reachable (h : Reachable (step enter) (start s) m) : Replays enter s m.log m.shared := by
  apply h.invariant (P := fun m : Config σ κ ρ ι => Replays enter s m.log m.shared) rfl
  intro m a m' hm hstep
  cases step_outcome hstep with
  | wait => exact hm
  | leave _ hleave => exact hm.append_singleton hleave
  | spurious => exact hm

/-! ### No wake-up is lost -/

/-- How many threads are on their way back to the mutex. -/
def wokenCount (phase : ι → Phase κ) : ℕ := ∑ t, if (phase t).isWoken then 1 else 0

theorem wokenCount_update (phase : ι → Phase κ) (t : ι) (p : Phase κ) :
    wokenCount (Function.update phase t p) + (if (phase t).isWoken then 1 else 0) =
      wokenCount phase + if p.isWoken then 1 else 0 :=
  sum_update (fun p : Phase κ => if p.isWoken then 1 else 0) phase t p

omit [DecidableEq ι] in
theorem exists_woken (h : 0 < wokenCount phase) : ∃ u c, phase u = .woken c := by
  by_contra hno
  push Not at hno
  have hzero : wokenCount phase = 0 := by
    refine Finset.sum_eq_zero fun u _ => ?_
    cases hu : phase u with
    | woken c => exact absurd hu (hno u c)
    | outside | asleep => rfl
  omega

/-- `avail` bounds how many waiting threads can go on. A call that changes it by more than one signals all,
one that raises it by one signals one, and one that may have been woken up uses one up. -/
structure Paced (enter : κ → σ → Ending σ ρ) (avail : σ → ℕ∞) (c : κ) : Prop where
  wait : ∀ {s}, enter c s = .wait → avail s = 0
  keeps : ∀ {s x r signal}, enter c s = .leave x r signal → signal ≠ .all →
    avail x ≤ avail s + if signal = .one then 1 else 0
  takes : ∀ {s₀ s x r signal}, enter c s₀ = .wait → enter c s = .leave x r signal → signal ≠ .all →
    avail x + 1 ≤ avail s + if signal = .one then 1 else 0

/-- A thread sleeps only while those on their way use up all that is there. -/
def Awake (avail : σ → ℕ∞) (m : Config σ κ ρ ι) : Prop :=
  (∃ t, (m.phase t).isAsleep) → avail m.shared ≤ wokenCount m.phase

/-- The calls of a run meet `p`. -/
def Move.made (p : κ → Bool) : Move κ ι → Bool
  | .call _ c _ => p c
  | _ => true

/-- A thread is asleep or was woken up in a call that meets `p` and may have to wait. -/
def Waited (enter : κ → σ → Ending σ ρ) (p : κ → Bool) (phase : ι → Phase κ) : Prop :=
  ∀ t c, phase t = .asleep c ∨ phase t = .woken c → p c = true ∧ ∃ s, enter c s = .wait

structure Inv (enter : κ → σ → Ending σ ρ) (p : κ → Bool) (avail : σ → ℕ∞) (m : Config σ κ ρ ι) : Prop where
  waited : Waited enter p m.phase
  awake : Awake avail m

variable {p : κ → Bool} {avail : σ → ℕ∞} {q : Phase κ}

omit [Fintype ι] in
theorem Waited.update (h : Waited enter p phase)
    (hq : ∀ c, q = .asleep c ∨ q = .woken c → p c = true ∧ ∃ s, enter c s = .wait) :
    Waited enter p (Function.update phase t q) := by
  intro u c hu
  by_cases hut : u = t
  · subst hut
    rw [Function.update_self] at hu
    exact hq c hu
  · rw [Function.update_of_ne hut] at hu
    exact h u c hu

omit [Fintype ι] [DecidableEq ι] in
theorem Waited.wakeUp (h : Waited enter p phase) : Waited enter p fun t => (phase t).wakeUp := by
  intro t c ht
  apply h t c
  cases hphase : phase t with
  | outside => simp [hphase, Phase.wakeUp] at ht
  | asleep d => simpa [hphase, Phase.wakeUp] using ht
  | woken d => simpa [hphase, Phase.wakeUp] using ht

theorem wokenCount_outside :
    wokenCount (Function.update m.phase t .outside) + (if (m.phase t).isWoken then 1 else 0) =
      wokenCount m.phase := by
  rw [wokenCount_update]
  rfl

/-- What `avail` is after a call that does not signal all, against the threads on their way. -/
theorem Inv.avail_le (h : Inv enter p avail m) (hp : ∀ c, p c = true → Paced enter avail c) (hc : p c = true)
    (ht : m.phase t = .outside ∨ m.phase t = .woken c) (hleave : enter c m.shared = .leave s r signal)
    (hall : signal ≠ .all) (hasleep : ∃ t, (m.phase t).isAsleep) :
    avail s ≤ wokenCount (Function.update m.phase t .outside) + if signal = .one then 1 else 0 := by
  have hawake := h.awake hasleep
  have hcount := wokenCount_outside (m := m) (t := t)
  rcases ht with ht | ht
  · have hkeeps := (hp c hc).keeps hleave hall
    rw [ht] at hcount
    simp only [Phase.isWoken, Bool.false_eq_true, if_false, add_zero] at hcount
    rw [hcount]
    exact hkeeps.trans (add_le_add_left hawake _)
  · obtain ⟨-, s₀, hs₀⟩ := h.waited t c (.inr ht)
    have htakes := (hp c hc).takes hs₀ hleave hall
    rw [ht] at hcount
    simp only [Phase.isWoken, if_true] at hcount
    rw [← hcount, Nat.cast_add, Nat.cast_one] at hawake
    have hle := htakes.trans (add_le_add_left hawake _)
    rw [add_right_comm] at hle
    exact (ENat.add_le_add_iff_right ENat.one_ne_top).mp hle

theorem Inv.step (h : Inv enter p avail m) (hp : ∀ c, p c = true → Paced enter avail c) (hmade : a.made p = true)
    (hstep : step enter m a = some m') : Inv enter p avail m' := by
  cases step_outcome hstep with
  | @wait t c _ ha hwait =>
    have hc : p c = true := by
      rcases ha with ⟨rfl, -⟩ | ⟨-, ht⟩
      · exact hmade
      · exact (h.waited t c (.inr ht)).1
    refine ⟨h.waited.update ?_, fun _ => ?_⟩
    · rintro c' (hc' | hc') <;> cases hc'
      exact ⟨hc, _, hwait⟩
    · dsimp only
      rw [(hp c hc).wait hwait]
      exact zero_le
  | @leave t c _ _ s r signal phase ha hleave hw =>
    have ht : m.phase t = .outside ∨ m.phase t = .woken c := ha.imp And.right And.right
    have hc : p c = true := by
      rcases ha with ⟨rfl, -⟩ | ⟨-, ht⟩
      · exact hmade
      · exact (h.waited t c (.inr ht)).1
    have hwaited : Waited enter p (Function.update m.phase t .outside) := h.waited.update (by simp)
    have hasleep : (∃ u, (Function.update m.phase t .outside u).isAsleep) → ∃ u, (m.phase u).isAsleep := by
      rintro ⟨u, hu⟩
      by_cases hut : u = t
      · subst hut
        rw [Function.update_self] at hu
        cases hu
      · rw [Function.update_of_ne hut] at hu
        exact ⟨u, hu⟩
    cases hw with
    | none =>
      refine ⟨hwaited, fun hex => ?_⟩
      simpa using h.avail_le hp hc ht hleave (by simp) (hasleep hex)
    | nobody hnobody =>
      refine ⟨hwaited, ?_⟩
      rintro ⟨u, hu⟩
      rw [hnobody u] at hu
      cases hu
    | @one v d hv =>
      refine ⟨hwaited.update ?_, fun _ => ?_⟩
      · rintro e (he | he) <;> cases he
        exact hwaited v d (.inl hv)
      · have hle := h.avail_le hp hc ht hleave (by simp) (hasleep ⟨v, by rw [hv]; rfl⟩)
        have hcount := wokenCount_update (Function.update m.phase t .outside) v (.woken d)
        rw [hv] at hcount
        simp only [Phase.isWoken, Bool.false_eq_true, if_false, if_true, add_zero] at hcount
        dsimp only
        rw [hcount, Nat.cast_add, Nat.cast_one]
        simpa using hle
    | all =>
      refine ⟨hwaited.wakeUp, ?_⟩
      · rintro ⟨u, hu⟩
        rw [Phase.isAsleep_wakeUp] at hu
        cases hu
  | @spurious t c ht =>
    refine ⟨h.waited.update ?_, fun _ => ?_⟩
    · rintro c' (hc' | hc') <;> cases hc'
      exact h.waited t c (.inl ht)
    · have hcount := wokenCount_update m.phase t (.woken c)
      rw [ht] at hcount
      simp only [Phase.isWoken, Bool.false_eq_true, if_false, if_true, add_zero] at hcount
      dsimp only
      rw [hcount]
      exact (h.awake ⟨t, by rw [ht]; rfl⟩).trans (by exact_mod_cast Nat.le_succ _)

/-- In a run of paced calls no thread sleeps while another could be waiting in its place. -/
theorem inv_of_reachable (hp : ∀ c, p c = true → Paced enter avail c)
    (h : Reachable (restrict (fun _ a => a.made p = true) (Monitor.step enter)) (start s) m) :
    Inv enter p avail m := by
  apply h.invariant ⟨by simp [Waited, start], by simp [Awake, start, Phase.isAsleep]⟩
  intro x a y hx hstep
  obtain ⟨hmade, hstep⟩ := restrict_eq_some.mp hstep
  exact hx.step hp hmade hstep

end Monitor

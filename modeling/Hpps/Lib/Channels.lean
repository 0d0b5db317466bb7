import Hpps.Lib.TransitionSystem

/-! Channels from each sender to each destination, which keep the messages of one sender in order. -/
namespace Channels

open TransitionSystem

/-- What each sender sent, what is under way from it, and what each destination got from whom. -/
structure State (ι δ μ : Type) where
  sent : ι → List μ
  inFlight : ι → δ → List μ
  delivered : δ → List (ι × μ)

inductive Move (ι δ μ : Type)
  | send (n : ι) (m : μ)
  | deliver (n : ι) (d : δ)

variable {ι δ μ : Type} [DecidableEq ι] [DecidableEq δ] (route : μ → δ)

def init : State ι δ μ := ⟨fun _ => [], fun _ _ => [], fun _ => []⟩

def step (s : State ι δ μ) : Move ι δ μ → Option (State ι δ μ)
  | .send n m =>
    some { s with
      sent := Function.update s.sent n (s.sent n ++ [m])
      inFlight := Function.update s.inFlight n
        (Function.update (s.inFlight n) (route m) (s.inFlight n (route m) ++ [m])) }
  | .deliver n d =>
    match s.inFlight n d with
    | [] => none
    | m :: rest =>
      some { s with
        inFlight := Function.update s.inFlight n (Function.update (s.inFlight n) d rest)
        delivered := Function.update s.delivered d (s.delivered d ++ [(n, m)]) }

/-- What came from one sender. -/
def receivedFrom (n : ι) (log : List (ι × μ)) : List μ := log.filterMap fun e => if e.1 = n then some e.2 else none

theorem receivedFrom_append (n : ι) (log log' : List (ι × μ)) :
    receivedFrom n (log ++ log') = receivedFrom n log ++ receivedFrom n log' := List.filterMap_append

theorem receivedFrom_self (n : ι) (m : μ) : receivedFrom n [(n, m)] = [m] := by simp [receivedFrom]

theorem receivedFrom_of_ne {n n' : ι} (m : μ) (h : n' ≠ n) : receivedFrom n [(n', m)] = [] := by simp [receivedFrom, h]

variable {route} {s s' : State ι δ μ} {a : Move ι δ μ}

/-- Each destination has got what each sender sent it, in that order, but for what is under way. -/
def Kept (route : μ → δ) (s : State ι δ μ) : Prop :=
  ∀ n d, (s.sent n).filter (fun m => decide (route m = d)) = receivedFrom n (s.delivered d) ++ s.inFlight n d

theorem Kept.step (h : Kept route s) (hstep : step route s a = some s') : Kept route s' := by
  intro n d
  cases a with
  | send n' m =>
    cases hstep
    by_cases hn : n = n'
    · subst hn
      by_cases hd : d = route m
      · subst hd
        simp [h n (route m)]
      · simp [h n d, hd, Ne.symm hd]
    · simp [h n d, hn]
  | deliver n' d' =>
    rw [Channels.step] at hstep
    split at hstep
    · cases hstep
    · rename_i m rest hrest
      cases hstep
      by_cases hd : d = d'
      · subst hd
        by_cases hn : n = n'
        · subst hn
          simp [h n d, hrest, receivedFrom_append, receivedFrom_self]
        · simp [h n d, hn, receivedFrom_append, receivedFrom_of_ne m (Ne.symm hn)]
      · by_cases hn : n = n'
        · subst hn
          simp [h n d, hd]
        · simp [h n d, hd, hn]

/-- Nothing is lost, sent twice or overtaken. -/
theorem kept_of_reachable (h : Reachable (step route) init s) : Kept route s :=
  h.invariant (P := Kept route) (fun _ _ => rfl) fun _ _ _ hx hstep => hx.step hstep

end Channels

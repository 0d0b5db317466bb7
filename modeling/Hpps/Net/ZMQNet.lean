import Hpps.Net.AllreduceEngine

/-! `ZMQNetWrapper`: each rank receives on one socket, whoever has sent. -/
namespace Hpps.Net.ZMQNetWrapper

open Network TransitionSystem

variable {ι α β γ : Type}

/-- The ranks, what RecvFrom has received so far, and the messages on their way for each pair. A socket yields
the messages of its senders in any order. -/
structure Config (ι α β : Type) where
  procs : ι → Proc ι α β
  received : ι → List α
  pipe : ι × ι → List (List α)

/-- Rank `i` runs, or its socket yields the next message of `src`. -/
inductive Move (ι : Type)
  | run (i : ι)
  | take (i src : ι)

def Move.rank : Move ι → ι
  | run i => i
  | take i _ => i

def start (p : ι → Proc ι α β) : Config ι α β := ⟨p, fun _ => [], fun _ => []⟩

/-- Nothing is sent if there is nothing to send. -/
def sendTo (data : List α) (pipe : List (List α)) : List (List α) :=
  if data.isEmpty then pipe else pipe ++ [data]

section Step

variable [DecidableEq ι]

/-- The loop of RecvFrom ends when `len` bytes or more are there; what is too much is cut off. -/
def step (c : Config ι α β) : Move ι → Option (Config ι α β)
  | .run i =>
    match c.procs i with
    | .send dst data next => some { c with
        procs := Function.update c.procs i next
        pipe := Function.update c.pipe (i, dst) (sendTo data (c.pipe (i, dst))) }
    | .recv _ 0 next => some { c with procs := Function.update c.procs i (next []) }
    | _ => none
  | .take i src =>
    match c.procs i, c.pipe (src, i) with
    | .recv _ (len + 1) next, msg :: msgs =>
      let buf := c.received i ++ msg
      let c := { c with pipe := Function.update c.pipe (src, i) msgs }
      if len + 1 ≤ buf.length then some { c with
        procs := Function.update c.procs i (next (buf.take (len + 1)))
        received := Function.update c.received i [] }
      else some { c with received := Function.update c.received i buf }
    | _, _ => none

/-- Every run ends with the ranks returning `b`, and RecvFrom receives messages of the rank it names. -/
structure Reliable (p : ι → Proc ι α β) (b : ι → β) : Prop where
  ends : Ends step (start p) (start fun i => .ret (b i))
  named : ∀ c, Reachable step (start p) c → ∀ i src c', step c (.take i src) = some c' →
    ∃ len next, c.procs i = .recv src len next

theorem step_take {c c' : Config ι α β} {i src : ι} (h : step c (.take i src) = some c') :
    ∃ src' len next msg msgs, c.procs i = .recv src' (len + 1) next ∧ c.pipe (src, i) = msg :: msgs := by
  simp only [step] at h
  split at h
  · rename_i hi hpipe
    exact ⟨_, _, _, _, _, hi, hpipe⟩
  · cases h

/-- A rank that waits takes what there is, whoever sent it. -/
theorem exists_take {c : Config ι α β} {i src src' : ι} {len : ℕ} {next : List α → Proc ι α β}
    {msg : List α} {msgs : List (List α)} (hi : c.procs i = .recv src' (len + 1) next)
    (hpipe : c.pipe (src, i) = msg :: msgs) : ∃ c', step c (.take i src) = some c' := by
  rw [← Option.isSome_iff_exists]
  simp only [step, hi, hpipe]
  split
  · rfl
  · rfl

/-! ### Runs in which each receive takes a message of the rank it names -/

/-- The same state with one channel for each pair. -/
def ofNetwork (d : Network.Config (.messages α) ι β) : Config ι α β := ⟨d.procs, fun _ => [], d.chan⟩

variable {d d' : Network.Config (.messages α) ι β} {c : Config ι α β} {i : ι} {m : Move ι}
  {p : ι → Proc ι α β} {b : ι → β}

/-- RecvFrom of a message of the size that is asked for. -/
theorem take_eq {src : ι} {len : ℕ} {next : List α → Proc ι α β} {msg : List α} {msgs : List (List α)}
    (hi : d.procs i = .recv src (len + 1) next) (hch : d.chan (src, i) = msg :: msgs)
    (hlen : msg.length = len + 1) : step (ofNetwork d) (.take i src) =
      some (ofNetwork ⟨Function.update d.procs i (next msg), Function.update d.chan (src, i) msgs⟩) := by
  have hbuf : len + 1 ≤ ([] ++ msg).length := by simp [hlen]
  have htake : ([] ++ msg).take (len + 1) = msg := by
    rw [List.nil_append, List.take_of_length_le hlen.le]
  have hnone : Function.update (fun _ : ι => ([] : List α)) i [] = fun _ => [] :=
    Function.update_eq_self i _
  simp only [step, ofNetwork, hi, hch, if_pos hbuf, htake, hnone]
  rfl

theorem step_of_network (h : Network.step d i = some d') :
    ∃ m : Move ι, m.rank = i ∧ step (ofNetwork d) m = some (ofNetwork d') := by
  rcases step_cases h with ⟨dst, data, next, hi, rfl⟩ | ⟨src, len, next, msg, ch, hi, hpop, rfl⟩
  · refine ⟨.run i, rfl, ?_⟩
    simp only [step, ofNetwork, hi]
    rfl
  · cases len with
    | zero =>
      have hnone : some ([], d.chan (src, i)) = some (msg, ch) := hpop
      cases hnone
      refine ⟨.run i, rfl, ?_⟩
      have hsame := Function.update_eq_self (src, i) d.chan
      simp only [step, ofNetwork, hi, hsame]
    | succ len =>
      obtain ⟨hch, hlen⟩ := Transport.pop_messages_succ.mp hpop
      exact ⟨.take i src, rfl, take_eq hi hch hlen⟩

theorem exec_of_network {is : List ι} (h : exec Network.step d is = some d') :
    ∃ ms : List (Move ι), ms.length = is.length ∧ exec step (ofNetwork d) ms = some (ofNetwork d') := by
  induction is generalizing d with
  | nil =>
    cases h
    exact ⟨[], rfl, rfl⟩
  | cons i is ih =>
    obtain ⟨v, hv, h⟩ := exec_cons.mp h
    obtain ⟨m, -, hm⟩ := step_of_network hv
    obtain ⟨ms, hlen, hms⟩ := ih h
    exact ⟨m :: ms, by simp [hlen], exec_cons.mpr ⟨_, hm, hms⟩⟩

theorem network_of_step (hp : Completes p b) (hd : Reachable Network.step (quiet (.messages α) p) d)
    (hname : ∀ i src c', step (ofNetwork d) (.take i src) = some c' → ∃ len next, d.procs i = .recv src len next)
    (h : step (ofNetwork d) m = some c) : ∃ d', Network.step d m.rank = some d' ∧ c = ofNetwork d' := by
  cases m with
  | run i =>
    unfold step at h
    dsimp only [ofNetwork] at h
    split at h
    · rename_i hi
      cases h
      exact ⟨_, step_send hi, rfl⟩
    · rename_i src next hi
      cases h
      have hpop : (Transport.messages α).pop 0 (d.chan (src, i)) = some ([], d.chan (src, i)) := rfl
      refine ⟨_, step_recv hi hpop, ?_⟩
      have hsame := Function.update_eq_self (src, i) d.chan
      exact congrArg (fun ch => (⟨Function.update d.procs i (next []), fun _ => [], ch⟩ : Config ι α β))
        hsame.symm
    · cases h
  | take i src =>
    obtain ⟨src', len, next, msg, msgs, hi, hpipe⟩ := step_take h
    obtain ⟨len', next', hi'⟩ := hname i src c h
    cases hi.symm.trans hi'
    have hlen := hp.matched_messages hd hi hpipe
    rw [take_eq hi hpipe hlen] at h
    cases h
    exact ⟨_, step_recv hi (Transport.pop_messages_succ.mpr ⟨hpipe, hlen⟩), rfl⟩

theorem network_of_exec (hp : Completes p b) (hd : Reachable Network.step (quiet (.messages α) p) d)
    (hname : ∀ d, Reachable Network.step (quiet (.messages α) p) d → ∀ i src c',
      step (ofNetwork d) (.take i src) = some c' → ∃ len next, d.procs i = .recv src len next)
    {ms : List (Move ι)} (h : exec step (ofNetwork d) ms = some c) :
    ∃ d', exec Network.step d (ms.map Move.rank) = some d' ∧ c = ofNetwork d' := by
  induction ms generalizing d with
  | nil =>
    cases h
    exact ⟨d, rfl, rfl⟩
  | cons m ms ih =>
    obtain ⟨v, hv, h⟩ := exec_cons.mp h
    obtain ⟨d', hd', rfl⟩ := network_of_step hp hd (hname d hd) hv
    obtain ⟨d'', hd'', rfl⟩ := ih (hd.tail hd') h
    exact ⟨d'', exec_cons.mpr ⟨d', hd', hd''⟩, rfl⟩

/-! ### Ranks with one sender each -/

/-- What is on its way was sent by the rank that the receiver names. -/
theorem confined_step {source : ι → ι} {c' : Config ι α β}
    (h : (∀ i, Confined source i (fun _ => True) (c.procs i)) ∧ ∀ src i, c.pipe (src, i) ≠ [] → source i = src)
    (hs : step c m = some c') : (∀ i, Confined source i (fun _ => True) (c'.procs i)) ∧
      ∀ src i, c'.pipe (src, i) ≠ [] → source i = src := by
  obtain ⟨hprocs, hpipe⟩ := h
  have hupdate : ∀ {j q}, Confined source j (fun _ => True) q →
      ∀ i, Confined source i (fun _ => True) (Function.update c.procs j q i) := by
    intro j q hq i
    by_cases hij : i = j
    · subst hij
      rwa [Function.update_self]
    · rw [Function.update_of_ne hij]
      exact hprocs i
  cases m with
  | run j =>
    simp only [step] at hs
    have hj := hprocs j
    split at hs
    · rename_i dst data next heq
      cases hs
      rw [heq] at hj
      cases hj with
      | send hdst hnext =>
        refine ⟨hupdate hnext, fun src i hne => ?_⟩
        by_cases he : (src, i) = (j, dst)
        · obtain ⟨rfl, rfl⟩ := Prod.mk.inj he
          dsimp only at hne
          rw [Function.update_self, sendTo] at hne
          split at hne
          · exact hpipe _ _ hne
          · rename_i hdata
            exact hdst (by simpa using hdata)
        · dsimp only at hne
          rw [Function.update_of_ne he] at hne
          exact hpipe _ _ hne
    · rename_i heq
      cases hs
      rw [heq] at hj
      cases hj with
      | recv _ hnext => exact ⟨hupdate (hnext []), hpipe⟩
    · cases hs
  | take j src =>
    obtain ⟨src', len, next, msg, msgs, heq, hch⟩ := step_take hs
    have hj := hprocs j
    rw [heq] at hj
    have hrest : ∀ src' i, Function.update c.pipe (src, j) msgs (src', i) ≠ [] → source i = src' := by
      intro src' i hne
      by_cases he : (src', i) = (src, j)
      · obtain ⟨rfl, rfl⟩ := Prod.mk.inj he
        exact hpipe _ _ (by rw [hch]; exact List.cons_ne_nil _ _)
      · rw [Function.update_of_ne he] at hne
        exact hpipe _ _ hne
    cases hj with
    | recv _ hnext =>
      simp only [step, heq, hch] at hs
      split at hs
      · cases hs
        exact ⟨hupdate (hnext _), hrest⟩
      · cases hs
        exact ⟨hprocs, hrest⟩

theorem reliable_of_confined {source : ι → ι} (hp : Completes p b)
    (h : ∀ i, Confined source i (fun _ => True) (p i)) : Reliable p b := by
  have hinv : ∀ c, Reachable step (start p) c → (∀ i, Confined source i (fun _ => True) (c.procs i)) ∧
      ∀ src i, c.pipe (src, i) ≠ [] → source i = src := by
    intro c hc
    exact hc.invariant (P := fun c => (∀ i, Confined source i (fun _ => True) (c.procs i)) ∧
      ∀ src i, c.pipe (src, i) ≠ [] → source i = src) ⟨h, fun _ _ hne => absurd rfl hne⟩
      fun _ _ _ hx hs => confined_step hx hs
  have hnamed : ∀ c, Reachable step (start p) c → ∀ i src c', step c (.take i src) = some c' →
      ∃ len next, c.procs i = .recv src len next := by
    intro c hc i src c' hs
    obtain ⟨src', len, next, msg, msgs, hi, hpipe⟩ := step_take hs
    obtain ⟨hprocs, hsource⟩ := hinv c hc
    have hproc := hprocs i
    rw [hi] at hproc
    have hsrc := hsource src i (by rw [hpipe]; exact List.cons_ne_nil _ _)
    cases hproc with
    | recv hname _ => exact ⟨len + 1, next, by rw [hi, hname (Nat.succ_pos len), hsrc]⟩
  have hnetwork : ∀ d, Reachable Network.step (quiet (.messages α) p) d →
      Reachable step (start p) (ofNetwork d) := by
    rintro d ⟨is, his⟩
    obtain ⟨ms, -, hms⟩ := exec_of_network his
    exact ⟨ms, hms⟩
  refine ⟨⟨fun m => ?_, ?_⟩, hnamed⟩
  · cases m <;> rfl
  · obtain ⟨k, hk⟩ := (hp (.messages α)).completes
    refine ⟨k, fun ms c hc => ?_⟩
    obtain ⟨d, hd, rfl⟩ := network_of_exec (d := quiet (.messages α) p) hp .refl
      (fun d hd => hnamed _ (hnetwork d hd)) hc
    obtain ⟨is, hlen, his⟩ := hk _ _ hd
    obtain ⟨ms', hlen', hms'⟩ := exec_of_network his
    rw [List.length_map] at hlen
    exact ⟨ms', by omega, hms'⟩

end Step

end Hpps.Net.ZMQNetWrapper

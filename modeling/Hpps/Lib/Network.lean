import Hpps.Lib.TransitionSystem

/-! Processes that send and receive over one ordered channel per pair of them. -/
namespace Network

open TransitionSystem

/-- A process: it has returned, has failed, or is about to send or to receive. -/
inductive Proc (ι α β : Type)
  | ret (b : β)
  | fail
  | send (dst : ι) (data : List α) (next : Proc ι α β)
  | recv (src : ι) (count : ℕ) (next : List α → Proc ι α β)

namespace Proc

variable {ι α β γ : Type}

def bind : Proc ι α β → (β → Proc ι α γ) → Proc ι α γ
  | ret b, f => f b
  | fail, _ => fail
  | send dst data p, f => send dst data (p.bind f)
  | recv src n p, f => recv src n fun l => (p l).bind f

instance : Monad (Proc ι α) where
  pure := ret
  bind := bind

variable {f : β → Proc ι α γ}

@[simp] theorem pure_eq_ret (b : β) : (pure b : Proc ι α β) = ret b := rfl

@[simp] theorem ret_bind (b : β) : (ret b : Proc ι α β) >>= f = f b := rfl

@[simp] theorem fail_bind : (fail : Proc ι α β) >>= f = fail := rfl

@[simp] theorem send_bind (dst : ι) (data : List α) (p : Proc ι α β) :
    send dst data p >>= f = send dst data (p >>= f) := rfl

@[simp] theorem recv_bind (src : ι) (n : ℕ) (p : List α → Proc ι α β) :
    recv src n p >>= f = recv src n fun l => p l >>= f := rfl

theorem bind_ret (p : Proc ι α β) : p >>= ret = p := by
  induction p with
  | ret b => rfl
  | fail => rfl
  | send dst data p ih => rw [send_bind, ih]
  | recv src n p ih => simp only [recv_bind, ih]

theorem bind_bind {δ : Type} (p : Proc ι α β) (g : γ → Proc ι α δ) :
    p >>= f >>= g = p >>= fun b => f b >>= g := by
  induction p with
  | ret b => rfl
  | fail => rfl
  | send dst data p ih => simp only [send_bind, ih]
  | recv src n p ih => simp only [recv_bind, ih]

instance : LawfulMonad (Proc ι α) :=
  LawfulMonad.mk' _ (fun p => bind_ret p) (fun _ _ => rfl) (fun p _ _ => bind_bind p _)

end Proc

/-- A channel that delivers what is put into it in order, in the sizes that are asked for. -/
structure Transport (α : Type) where
  Chan : Type
  empty : Chan
  push : List α → Chan → Chan
  pop : ℕ → Chan → Option (List α × Chan)
  pop_push_empty : ∀ m, pop m.length (push m empty) = some (m, empty)
  pop_push : ∀ {n c m d} x, pop n c = some (m, d) → pop n (push x c) = some (m, push x d)

namespace Transport

/-- A stream of bytes that knows no message boundaries. -/
def stream (α : Type) : Transport α where
  Chan := List α
  empty := []
  push m c := c ++ m
  pop n c := if n ≤ c.length then some (c.take n, c.drop n) else none
  pop_push_empty m := by simp
  pop_push x h := by
    simp only [Option.ite_none_right_eq_some, Option.some.injEq, Prod.mk.injEq] at h
    obtain ⟨hn, rfl, rfl⟩ := h
    rw [if_pos (by simp; omega), List.take_append_of_le_length hn, List.drop_append_of_le_length hn]

/-- A queue of messages: a receive that asks for another size than the next message has never
completes. -/
def packets (α : Type) : Transport α where
  Chan := List (List α)
  empty := []
  push m c := c ++ [m]
  pop n c := match c with
    | m :: c => if m.length = n then some (m, c) else none
    | [] => none
  pop_push_empty m := by simp
  pop_push {n c m d} x h := by
    cases c with
    | nil => cases h
    | cons m' c =>
      simp only [Option.ite_none_right_eq_some, Option.some.injEq, Prod.mk.injEq] at h
      obtain ⟨hn, rfl, rfl⟩ := h
      exact if_pos hn

/-- A queue of messages in which an empty message leaves no trace. -/
def messages (α : Type) : Transport α where
  Chan := List (List α)
  empty := []
  push m c := if m.isEmpty then c else c ++ [m]
  pop n c := if n = 0 then some ([], c) else match c with
    | m :: c => if m.length = n then some (m, c) else none
    | [] => none
  pop_push_empty m := by cases m <;> simp
  pop_push {n c m d} x h := by
    by_cases hx : x.isEmpty
    · simpa only [hx, if_true] using h
    · by_cases hn : n = 0
      · simp only [hn, if_true, Option.some.injEq, Prod.mk.injEq] at h ⊢
        obtain ⟨rfl, rfl⟩ := h
        exact ⟨rfl, rfl⟩
      · simp only [hx, hn, if_false, Bool.false_eq_true] at h ⊢
        cases c with
        | nil => cases h
        | cons m' c =>
          simp only [Option.ite_none_right_eq_some, Option.some.injEq, Prod.mk.injEq] at h
          obtain ⟨hn, rfl, rfl⟩ := h
          exact if_pos hn

theorem pop_messages_succ {α : Type} {n : ℕ} {m : List α} {c d : List (List α)} :
    (messages α).pop (n + 1) c = some (m, d) ↔ c = m :: d ∧ m.length = n + 1 := by
  constructor
  · intro h
    simp only [messages, Nat.succ_ne_zero, if_false] at h
    split at h
    · split at h
      · rename_i hlen
        cases h
        exact ⟨rfl, hlen⟩
      · cases h
    · cases h
  · rintro ⟨rfl, hlen⟩
    exact if_pos hlen

end Transport

variable {ι α β γ : Type}

/-! ### Processes that exchange messages with one other each -/

/-- Process `i` receives from `source i` only, sends only to those of which it is the source, and returns
what satisfies `post`; empty messages do not count. -/
inductive Confined (source : ι → ι) (i : ι) (post : β → Prop) : Proc ι α β → Prop
  | ret {b : β} (h : post b) : Confined source i post (.ret b)
  | fail : Confined source i post .fail
  | send {dst : ι} {data : List α} {next : Proc ι α β} (h : data ≠ [] → source dst = i)
      (hnext : Confined source i post next) : Confined source i post (.send dst data next)
  | recv {src : ι} {n : ℕ} {next : List α → Proc ι α β} (h : 0 < n → src = source i)
      (hnext : ∀ l, Confined source i post (next l)) : Confined source i post (.recv src n next)

namespace Confined

variable {source : ι → ι} {i : ι} {post : β → Prop} {post' : γ → Prop} {p : Proc ι α β}
  {f : β → Proc ι α γ}

theorem bind (h : Confined source i post p) (hf : ∀ b, post b → Confined source i post' (f b)) :
    Confined source i post' (p >>= f) := by
  induction h with
  | ret h => exact hf _ h
  | fail => exact .fail
  | send h _ ih => exact .send h ih
  | recv h _ ih => exact .recv h ih

/-- A loop, with what holds before each of its turns. -/
theorem foldlM {σ : Type} (inv : ℕ → σ → Prop) {g : σ → ℕ → Proc ι α σ} {a m : ℕ} {s : σ}
    (hg : ∀ j < a + m, ∀ s, inv j s → Confined source i (inv (j + 1)) (g s j)) (hs : inv a s) :
    Confined source i (inv (a + m)) ((List.range' a m).foldlM g s) := by
  induction m generalizing a s with
  | zero => exact .ret hs
  | succ m ih =>
    rw [List.range'_succ, List.foldlM_cons]
    have hturns : a + (m + 1) = a + 1 + m := by omega
    refine (hg a (by omega) s hs).bind fun t ht => ?_
    rw [hturns] at hg ⊢
    exact ih hg ht

end Confined

/-- The processes, and for each pair the channel from the first to the second. -/
structure Config (T : Transport α) (ι β : Type) where
  procs : ι → Proc ι α β
  chan : ι × ι → T.Chan

variable {T : Transport α}

/-- No message is under way. -/
def quiet (T : Transport α) (p : ι → Proc ι α β) : Config T ι β := ⟨p, fun _ => T.empty⟩

section Step

variable [DecidableEq ι] {c d : Config T ι β} {i : ι}

/-- One send or receive of process `i`; a receive waits until all it asks for is there. -/
def step (c : Config T ι β) (i : ι) : Option (Config T ι β) :=
  match c.procs i with
  | .send dst data next =>
    some ⟨Function.update c.procs i next,
      Function.update c.chan (i, dst) (T.push data (c.chan (i, dst)))⟩
  | .recv src n next =>
    (T.pop n (c.chan (src, i))).map fun r =>
      ⟨Function.update c.procs i (next r.1), Function.update c.chan (src, i) r.2⟩
  | _ => none

theorem step_send {dst : ι} {data : List α} {next : Proc ι α β}
    (h : c.procs i = .send dst data next) :
    step c i = some ⟨Function.update c.procs i next,
      Function.update c.chan (i, dst) (T.push data (c.chan (i, dst)))⟩ := by
  rw [step, h]

theorem step_recv {src : ι} {n : ℕ} {next : List α → Proc ι α β} {m : List α} {ch : T.Chan}
    (h : c.procs i = .recv src n next) (hpop : T.pop n (c.chan (src, i)) = some (m, ch)) :
    step c i = some ⟨Function.update c.procs i (next m), Function.update c.chan (src, i) ch⟩ := by
  rw [step, h]
  simp only [hpop, Option.map_some]

theorem step_cases (h : step c i = some d) :
    (∃ dst data next, c.procs i = .send dst data next ∧
      d = ⟨Function.update c.procs i next,
        Function.update c.chan (i, dst) (T.push data (c.chan (i, dst)))⟩) ∨
    ∃ src n next m ch, c.procs i = .recv src n next ∧ T.pop n (c.chan (src, i)) = some (m, ch) ∧
      d = ⟨Function.update c.procs i (next m), Function.update c.chan (src, i) ch⟩ := by
  unfold step at h
  split at h
  · rename_i dst data next hp
    exact .inl ⟨dst, data, next, hp, (Option.some.inj h).symm⟩
  · rename_i src n next hp
    obtain ⟨⟨m, ch⟩, hpop, rfl⟩ := Option.map_eq_some_iff.mp h
    exact .inr ⟨src, n, next, m, ch, hp, hpop, rfl⟩
  · cases h

/-- A send and a receive of two processes commute: what is there to receive stays there. -/
theorem send_recv_comm {j dst src : ι} {data m : List α} {next : Proc ι α β} {n : ℕ}
    {next' : List α → Proc ι α β} {ch : T.Chan} (hij : i ≠ j)
    (hi : c.procs i = .send dst data next) (hj : c.procs j = .recv src n next')
    (hpop : T.pop n (c.chan (src, j)) = some (m, ch)) :
    ∃ v, step ⟨Function.update c.procs i next,
        Function.update c.chan (i, dst) (T.push data (c.chan (i, dst)))⟩ j = some v ∧
      step ⟨Function.update c.procs j (next' m), Function.update c.chan (src, j) ch⟩ i =
        some v := by
  have hj' : Function.update c.procs i next j = .recv src n next' := by
    rw [Function.update_of_ne hij.symm, hj]
  have hi' : Function.update c.procs j (next' m) i = .send dst data next := by
    rw [Function.update_of_ne hij, hi]
  refine ⟨_, ?_, step_send hi'⟩
  by_cases he : (src, j) = (i, dst)
  · obtain ⟨rfl, rfl⟩ := Prod.mk.inj he
    rw [step_recv hj' (by dsimp only; rw [Function.update_self]; exact T.pop_push data hpop)]
    simp only [Function.update_self, Function.update_idem, Function.update_comm hij]
  · rw [step_recv hj' (by dsimp only; rw [Function.update_of_ne he]; exact hpop)]
    simp only [Function.update_of_ne (Ne.symm he), Function.update_comm hij,
      Function.update_comm he]

theorem step_diamond : Diamond (step : Config T ι β → ι → Option (Config T ι β)) := by
  intro c i j d e hij hd he
  rcases step_cases hd with ⟨dst, data, next, hi, rfl⟩ | ⟨src, n, next, m, ch, hi, hpop, rfl⟩
  · rcases step_cases he with ⟨dst', data', next', hj, rfl⟩ | ⟨src, n, next', m, ch, hj, hpop, rfl⟩
    · have hch : (i, dst) ≠ (j, dst') := fun h => hij (Prod.mk.inj h).1
      refine ⟨_, step_send (by rw [← hj]; exact Function.update_of_ne hij.symm ..), ?_⟩
      rw [step_send (by rw [← hi]; exact Function.update_of_ne hij ..)]
      simp only [Function.update_of_ne hch, Function.update_of_ne hch.symm,
        Function.update_comm hij, Function.update_comm hch]
    · exact send_recv_comm hij hi hj hpop
  · rcases step_cases he with ⟨dst, data, next', hj, rfl⟩ | ⟨src', n', next', m', ch', hj, hpop', rfl⟩
    · obtain ⟨v, hv, hv'⟩ := send_recv_comm hij.symm hj hi hpop
      exact ⟨v, hv', hv⟩
    · have hch : (src, i) ≠ (src', j) := fun h => hij (Prod.mk.inj h).2
      refine ⟨_, step_recv (by rw [← hj]; exact Function.update_of_ne hij.symm ..)
        (by rw [← hpop']; exact congrArg _ (Function.update_of_ne hch.symm ..)), ?_⟩
      rw [step_recv (by rw [← hi]; exact Function.update_of_ne hij ..)
        (by rw [← hpop]; exact congrArg _ (Function.update_of_ne hch ..))]
      simp only [Function.update_comm hij, Function.update_comm hch]

/-! ### Exchanges: some processes send one message each, and every message is received -/

/-- The processes of `s` send, each to its own destination. -/
theorem reachable_sends {dst : ι → ι} {msg : ι → List α} {next : ι → Proc ι α β} (s : Finset ι)
    (hs : ∀ i ∈ s, c.procs i = .send (dst i) (msg i) (next i)) :
    Reachable step c ⟨fun i => if i ∈ s then next i else c.procs i,
      fun e => if e.1 ∈ s ∧ e.2 = dst e.1 then T.push (msg e.1) (c.chan e) else c.chan e⟩ := by
  induction s using Finset.induction_on with
  | empty => simpa using Reachable.refl
  | insert a s ha ih =>
    rw [Finset.forall_mem_insert] at hs
    refine (ih hs.2).tail (a := a) ?_
    have hp : (if a ∈ s then next a else c.procs a) = .send (dst a) (msg a) (next a) := by
      rw [if_neg ha, hs.1]
    rw [step_send hp]
    congr 2
    · funext i
      by_cases hi : i = a
      · subst hi; simp
      · simp [hi]
    · funext e
      obtain ⟨i, j⟩ := e
      by_cases hi : i = a
      · subst hi
        by_cases hj : j = dst i
        · subst hj; simp [ha]
        · simp [ha, hj]
      · simp [hi]

/-- The processes of `s` receive what is there for them. -/
theorem reachable_recvs {src : ι → ι} {cnt : ι → ℕ} {msg : ι → List α}
    {next : ι → List α → Proc ι α β} {ch : ι → T.Chan} (s : Finset ι)
    (hs : ∀ j ∈ s, c.procs j = .recv (src j) (cnt j) (next j))
    (hpop : ∀ j ∈ s, T.pop (cnt j) (c.chan (src j, j)) = some (msg j, ch j)) :
    Reachable step c ⟨fun j => if j ∈ s then next j (msg j) else c.procs j,
      fun e => if e.2 ∈ s ∧ e.1 = src e.2 then ch e.2 else c.chan e⟩ := by
  induction s using Finset.induction_on with
  | empty => simpa using Reachable.refl
  | insert a s ha ih =>
    rw [Finset.forall_mem_insert] at hs hpop
    refine (ih hs.2 hpop.2).tail (a := a) ?_
    have hp : (if a ∈ s then next a (msg a) else c.procs a) = .recv (src a) (cnt a) (next a) := by
      rw [if_neg ha, hs.1]
    have hpop' : T.pop (cnt a) (if a ∈ s ∧ src a = src a then ch a else c.chan (src a, a)) =
        some (msg a, ch a) := by
      rw [if_neg fun h => ha h.1, hpop.1]
    rw [step_recv hp hpop']
    congr 2
    · funext i
      by_cases hi : i = a
      · subst hi; simp
      · simp [hi]
    · funext e
      obtain ⟨i, j⟩ := e
      by_cases hj : j = a
      · subst hj
        by_cases hi : i = src j
        · subst hi; simp
        · simp [ha, hi]
      · simp [hj]

/-- The processes of `s` send, those of `r` receive, and the two sides name each other and agree
on the sizes: then all messages arrive. -/
theorem exchange {p q p' : ι → Proc ι α β} {dst src : ι → ι} {msg : ι → List α} {cnt : ι → ℕ}
    {next : ι → List α → Proc ι α β} (s r : Finset ι)
    (hs : ∀ i ∈ s, p i = .send (dst i) (msg i) (q i)) (hq : ∀ i, i ∉ s → q i = p i)
    (hr : ∀ j ∈ r, q j = .recv (src j) (cnt j) (next j))
    (hcnt : ∀ j ∈ r, cnt j = (msg (src j)).length)
    (hsrc : ∀ j ∈ r, src j ∈ s ∧ dst (src j) = j) (hdst : ∀ i ∈ s, dst i ∈ r ∧ src (dst i) = i)
    (hp' : ∀ j ∈ r, next j (msg (src j)) = p' j) (hkeep : ∀ j, j ∉ r → q j = p' j) :
    Reachable step (quiet T p) (quiet T p') := by
  have hprocs : (fun i => if i ∈ s then q i else p i) = q := by
    funext i
    split
    · rfl
    · rename_i hi
      exact (hq i hi).symm
  set c : Config T ι β :=
    ⟨q, fun e => if e.1 ∈ s ∧ e.2 = dst e.1 then T.push (msg e.1) T.empty else T.empty⟩ with hc
  have hsends : Reachable step (quiet T p) c := by
    have := reachable_sends (c := quiet T p) s hs
    simpa only [quiet, hprocs] using this
  have hpop : ∀ j ∈ r, T.pop (cnt j) (c.chan (src j, j)) = some (msg (src j), T.empty) := by
    intro j hj
    rw [hc]
    dsimp only
    rw [if_pos ⟨(hsrc j hj).1, (hsrc j hj).2.symm⟩, hcnt j hj]
    exact T.pop_push_empty _
  have hchan : ∀ e : ι × ι, (if e.2 ∈ r ∧ e.1 = src e.2 then T.empty
      else if e.1 ∈ s ∧ e.2 = dst e.1 then T.push (msg e.1) T.empty else T.empty) = T.empty := by
    intro e
    by_cases he : e.2 ∈ r ∧ e.1 = src e.2
    · rw [if_pos he]
    · rw [if_neg he, if_neg]
      rintro ⟨hi, hj⟩
      exact he (hj ▸ ⟨(hdst _ hi).1, (hdst _ hi).2.symm⟩)
  refine hsends.trans ?_
  have hrecvs := reachable_recvs r hr hpop
  have hprocs' : (fun j => if j ∈ r then next j (msg (src j)) else q j) = p' := by
    funext j
    split
    · rename_i hj
      exact hp' j hj
    · rename_i hj
      exact hkeep j hj
  simpa only [hc, quiet, hchan, hprocs'] using hrecvs

/-- The processes of `s` send one message each and then receive one from another. -/
theorem exchange_on {p p' : ι → Proc ι α β} {dst src : ι → ι} {msg : ι → List α} {cnt : ι → ℕ}
    {next : ι → List α → Proc ι α β} (s : Finset ι)
    (hp : ∀ i ∈ s, p i = .send (dst i) (msg i) (.recv (src i) (cnt i) (next i)))
    (hcnt : ∀ i ∈ s, cnt i = (msg (src i)).length)
    (hsrc : ∀ i ∈ s, src i ∈ s ∧ dst (src i) = i) (hdst : ∀ i ∈ s, dst i ∈ s ∧ src (dst i) = i)
    (hp' : ∀ i ∈ s, next i (msg (src i)) = p' i) (hkeep : ∀ i, i ∉ s → p i = p' i) :
    Reachable step (quiet T p) (quiet T p') := by
  refine exchange (q := fun i => if i ∈ s then .recv (src i) (cnt i) (next i) else p i) s s
    (fun i hi => ?_) (fun i hi => if_neg hi) (fun i hi => if_pos hi) hcnt hsrc hdst hp'
    fun i hi => ?_
  · rw [if_pos hi, hp i hi]
  · rw [if_neg hi, hkeep i hi]

/-- Where all processes are about to send, `s` can be a message ahead of `r`: it receives what it waits for
and sends on, while `r` has only sent. -/
theorem exists_ahead {p q : ι → Proc ι α β} {dst : ι → ι} {msg : ι → List α} {next : List α → Proc ι α β}
    {q' : Proc ι α β} {m : List α} {cnt : ℕ} {r s u : ι} (hp : ∀ i, p i = .send (dst i) (msg i) (q i))
    (hs : q s = .recv u cnt next) (hu : dst u = s) (hcnt : cnt = (msg u).length)
    (hnext : next (msg u) = .send r m q') (hrs : r ≠ s) (hdst : dst s ≠ r) :
    ∃ c, Reachable step (quiet T p) c ∧ c.procs r = q r ∧ c.chan (s, r) = T.push m T.empty := by
  have hsends := reachable_sends (c := quiet T p) {r, u, s} fun i _ => hp i
  set c₁ : Config T ι β := ⟨fun i => if i ∈ ({r, u, s} : Finset ι) then q i else (quiet T p).procs i,
    fun e => if e.1 ∈ ({r, u, s} : Finset ι) ∧ e.2 = dst e.1 then T.push (msg e.1) ((quiet T p).chan e)
      else (quiet T p).chan e⟩ with hc₁
  have hproc : c₁.procs s = .recv u cnt next := by simp [hc₁, hs]
  have hpop : T.pop cnt (c₁.chan (u, s)) = some (msg u, T.empty) := by
    have hch : c₁.chan (u, s) = T.push (msg u) T.empty := by simp [hc₁, hu, quiet]
    rw [hch, hcnt]
    exact T.pop_push_empty _
  have hrecv := hsends.tail (step_recv hproc hpop)
  have hsend := hrecv.tail (step_send (i := s) ((Function.update_self ..).trans hnext))
  refine ⟨_, hsend, ?_, ?_⟩
  · simp [hc₁, hrs]
  · have hne : (s, r) ≠ (u, s) := fun h => hrs (Prod.mk.inj h).2
    simp [hc₁, hne, hdst.symm, quiet]

/-! ### Runs in which every process returns -/

theorem halted_ret (b : ι → β) : Halted step (quiet T fun i => Proc.ret (b i)) := fun _ => rfl

/-- Over every transport, in whatever order the processes move, each of them returns its value, and
nothing is left in any channel. -/
def Completes (p : ι → Proc ι α β) (b : ι → β) : Prop :=
  ∀ T : Transport α, Ends step (quiet T p) (quiet T fun i => .ret (b i))

/-- A process that waits for a message waits for the size of the next one. -/
def Matched (c : Config (.packets α) ι β) : Prop :=
  ∀ i src n next m ch, c.procs i = .recv src n next → c.chan (src, i) = m :: ch → m.length = n

theorem completes_of_reachable {p : ι → Proc ι α β} {b : ι → β}
    (h : ∀ T : Transport α, Reachable step (quiet T p) (quiet T fun i => .ret (b i))) :
    Completes p b := fun T => step_diamond.ends (halted_ret b) (h T)

namespace Completes

variable {p : ι → Proc ι α β} {b : ι → β}

/-- No channel is in a condition that keeps its receiver waiting for ever. -/
theorem not_stuck (h : Completes p b) (stuck : T.Chan → Prop) (hc : Reachable step (quiet T p) c) {src : ι}
    {n : ℕ} {next : List α → Proc ι α β} (hi : c.procs i = .recv src n next)
    (hpush : ∀ x ch, stuck ch → stuck (T.push x ch)) (hpop : ∀ ch, stuck ch → T.pop n ch = none) :
    ¬ stuck (c.chan (src, i)) := by
  intro hstuck
  have hf := ((h T).reachable hc).invariant
    (P := fun d => d.procs i = .recv src n next ∧ stuck (d.chan (src, i))) ⟨hi, hstuck⟩ ?_
  · cases hf.1
  · rintro x j y ⟨hx, hch⟩ hs
    rcases step_cases hs with ⟨dst, data, next', hj, rfl⟩ | ⟨src', n', next', m', ch', hj, hpop', rfl⟩
    · have hij : i ≠ j := by
        rintro rfl
        rw [hx] at hj
        cases hj
      refine ⟨(Function.update_of_ne hij ..).trans hx, ?_⟩
      by_cases he : (src, i) = (j, dst)
      · obtain ⟨rfl, rfl⟩ := Prod.mk.inj he
        dsimp only
        rw [Function.update_self]
        exact hpush data _ hch
      · dsimp only
        rwa [Function.update_of_ne he]
    · have hij : i ≠ j := by
        rintro rfl
        rw [hx] at hj
        cases hj
        rw [hpop _ hch] at hpop'
        cases hpop'
      have he : (src, i) ≠ (src', j) := fun h => hij (Prod.mk.inj h).2
      refine ⟨(Function.update_of_ne hij ..).trans hx, ?_⟩
      dsimp only
      rwa [Function.update_of_ne he]

/-- A wrong size would keep the receiver waiting for ever. -/
theorem matched (h : Completes p b) {c : Config (.packets α) ι β}
    (hc : Reachable step (quiet (.packets α) p) c) : Matched c := by
  intro i src n next m ch hi hch
  by_contra hm
  refine h.not_stuck (fun ch => ∃ ch', ch = m :: ch') hc hi ?_ ?_ ⟨ch, hch⟩
  · rintro x _ ⟨ch', rfl⟩
    exact ⟨ch' ++ [x], rfl⟩
  · rintro _ ⟨ch', rfl⟩
    exact if_neg hm

/-- The same where empty messages leave no trace. -/
theorem matched_messages (h : Completes p b) {c : Config (.messages α) ι β}
    (hc : Reachable step (quiet (.messages α) p) c) {src : ι} {n : ℕ} {next : List α → Proc ι α β}
    {m : List α} {ch : List (List α)} (hi : c.procs i = .recv src (n + 1) next)
    (hch : c.chan (src, i) = m :: ch) : m.length = n + 1 := by
  by_contra hm
  refine h.not_stuck (fun ch => ∃ ch', ch = m :: ch') hc hi ?_ ?_ ⟨ch, hch⟩
  · rintro x _ ⟨ch', rfl⟩
    by_cases hx : x.isEmpty
    · exact ⟨ch', if_pos hx⟩
    · exact ⟨ch' ++ [x], if_neg hx⟩
  · rintro _ ⟨ch', rfl⟩
    exact if_neg hm

end Completes

end Step

end Network

import Hpps.Lib.TransitionSystem
import Hpps.Scheduler.SyncScheduler

/-! Workers that all run one program of Gets and Adds against a sync scheduler. -/
namespace Hpps.Scheduler

open SyncScheduler VectorClock

/-- The blobs a client hands to `GetAsync` and `AddAsync`. -/
structure Payload (D : Type) where
  keys : D
  values : D
  option : Option D

/-- The blobs pushed into the message; an Add carries the option blob if there is one. -/
def Payload.data {D : Type} (p : Payload D) : Op → List D
  | .get => [p.keys]
  | .add => p.keys :: p.values :: p.option.toList

structure Workload (K : ℕ) (D : Type) where
  prog : List Op
  payload : Fin K → ℕ → Payload D

/-- The server with one table, and how many requests of each worker have reached it. -/
structure System (K : ℕ) (D : Type) where
  sched : SyncScheduler K D
  sent : Fin K → ℕ

namespace Workload

variable {K : ℕ} {D : Type} {W : Workload K D} {x : System K D} {t : SyncScheduler K D}
  {v w : Fin K} {i j p q e : ℕ} {o : Op}

/-- The message of worker `w`'s `i`-th request; `msg_id_` counts up from zero. -/
def request (W : Workload K D) (w : Fin K) (i : ℕ) (o : Op) : Request K D :=
  ⟨w, i, (W.payload w i).data o⟩

def call (W : Workload K D) (w : Fin K) (i : ℕ) (o : Op) : Call K D := ⟨o, W.request w i o⟩

/-- The first `n` requests of worker `w`, as calls on the table. -/
def calls (W : Workload K D) (w : Fin K) (n : ℕ) : List (Call K D) :=
  (W.prog.take n).mapIdx (W.call w)

/-- How many requests of one type precede position `i` of the program. -/
def before (W : Workload K D) (o : Op) (i : ℕ) : ℕ := (W.prog.take i).count o

def start (K : ℕ) (D : Type) : System K D := ⟨.new K D, 0⟩

/-- The next request of `w` reaches the server; `none` if there is none or a CHECK fails. -/
def arrive (W : Workload K D) (x : System K D) (w : Fin K) : Option (System K D) :=
  W.prog[x.sent w]?.bind fun o =>
    (process o x.sched (W.request w (x.sent w) o)).map fun s => ⟨s, bump x.sent w⟩

/-- The server is killed by the next request of `w`. -/
def CheckFails (W : Workload K D) (x : System K D) (w : Fin K) : Prop :=
  ∃ o, W.prog[x.sent w]? = some o ∧ process o x.sched (W.request w (x.sent w) o) = none

/-- No counter of the scheduler can reach `intMax`. -/
def Fits (W : Workload K D) : Prop := ∀ o, (W.prog.count o : ℤ) < intMax

theorem data_ne_nil : (W.request w i o).data ≠ [] := by
  cases o <;> simp [request, Payload.data]

theorem before_mono (h : i ≤ j) : W.before o i ≤ W.before o j :=
  (List.take_sublist_take_left h).count_le o

theorem before_le : W.before o i ≤ W.prog.count o := (List.take_sublist _ _).count_le o

theorem before_succ (h : W.prog[i]? = some o) : W.before o (i + 1) = W.before o i + 1 := by
  simp [before, List.take_add_one, h]

theorem before_succ_of_ne {o' : Op} (h : W.prog[i]? = some o') (hne : o' ≠ o) :
    W.before o (i + 1) = W.before o i := by
  simp [before, List.take_add_one, h, hne]

theorem lt_of_before_lt (h : W.before o i < W.before o j) : i < j := by
  by_contra hij
  exact absurd (before_mono (W := W) (o := o) (not_lt.mp hij)) (by omega)

/-- Positions with the same number of requests before them enclose none of that type. -/
theorem le_of_before_le (h : W.prog[i]? = some o) (hj : W.before o j ≤ W.before o i) : j ≤ i := by
  by_contra hij
  have := before_mono (W := W) (o := o) (show i + 1 ≤ j by omega)
  rw [before_succ h] at this
  omega

theorem getElem?_of_lt (h : i < W.prog.length) :
    W.prog[i]? = some .get ∨ W.prog[i]? = some .add := by
  rw [List.getElem?_eq_getElem h]
  cases W.prog[i] <;> simp

theorem lt_length (h : W.prog[i]? = some o) : i < W.prog.length :=
  (List.getElem?_eq_some_iff.mp h).1

/-- From any position the program runs through Gets up to an Add or its end. -/
theorem exists_horizon (h : i ≤ W.prog.length) :
    ∃ e, i ≤ e ∧ e ≤ W.prog.length ∧ W.prog[e]? ≠ some .get ∧ W.before .add e = W.before .add i := by
  obtain ⟨n, hn⟩ := Nat.exists_eq_add_of_le h
  induction n generalizing i with
  | zero => exact ⟨i, le_rfl, h, by simp [List.getElem?_eq_none (show W.prog.length ≤ i by omega)], rfl⟩
  | succ n ih =>
    rcases getElem?_of_lt (W := W) (show i < W.prog.length by omega) with hg | ha
    · obtain ⟨e, hie, hel, hne, he⟩ := ih (i := i + 1) (by omega) (by omega)
      exact ⟨e, by omega, hel, hne, he.trans (before_succ_of_ne hg (by decide))⟩
    · exact ⟨i, le_rfl, h, by simp [ha], rfl⟩

theorem calls_succ (h : W.prog[i]? = some o) : W.calls w (i + 1) = W.calls w i ++ [W.call w i o] := by
  have hi := lt_length h
  rw [calls, List.take_add_one, h, Option.toList_some, List.mapIdx_concat, calls,
    List.length_take, min_eq_left hi.le]

theorem mem_calls {c : Call K D} :
    c ∈ W.calls w i ↔ ∃ j < i, ∃ o, W.prog[j]? = some o ∧ c = W.call w j o := by
  simp only [calls, List.mem_mapIdx, List.getElem_take, List.length_take, lt_min_iff]
  constructor
  · rintro ⟨j, ⟨hji, hjl⟩, rfl⟩
    exact ⟨j, hji, W.prog[j], List.getElem?_eq_getElem hjl, rfl⟩
  · rintro ⟨j, hji, o, hop, rfl⟩
    obtain ⟨hjl, rfl⟩ := List.getElem?_eq_some_iff.mp hop
    exact ⟨j, ⟨hji, hjl⟩, rfl⟩

theorem calls_append (w : Fin K) (i j : ℕ) : ∃ l, W.calls w (i + j) = W.calls w i ++ l := by
  induction j with
  | zero => exact ⟨[], by simp⟩
  | succ j ih =>
    obtain ⟨l, hl⟩ := ih
    cases hop : W.prog[i + j]? with
    | none =>
      have hlen := List.getElem?_eq_none_iff.mp hop
      refine ⟨l, ?_⟩
      rw [← hl, calls, calls, List.take_of_length_le (by omega), List.take_of_length_le hlen]
    | some o => exact ⟨l ++ [W.call w (i + j) o], by rw [← Nat.add_assoc, calls_succ hop, hl,
        List.append_assoc]⟩

theorem length_calls (h : i ≤ W.prog.length) : (W.calls w i).length = i := by
  rw [calls, List.length_mapIdx, List.length_take, min_eq_left h]

theorem count_calls (h : i ≤ W.prog.length) :
    (W.calls w i).countP (fun c => c.op = o) = W.before o i := by
  induction i with
  | zero => simp [calls, before]
  | succ i ih =>
    obtain ⟨o', hop'⟩ : ∃ o', W.prog[i]? = some o' := ⟨_, List.getElem?_eq_getElem (by omega)⟩
    rw [calls_succ hop', List.countP_append, ih (by omega)]
    by_cases ho : o' = o
    · subst ho; simp [call, before_succ hop']
    · simp [call, before_succ_of_ne hop' ho, ho]

/-- All Adds of worker `w`, in the order it issues them. -/
def adds (W : Workload K D) (w : Fin K) : List (Call K D) :=
  (W.calls w W.prog.length).filter fun c => c.op = .add

theorem length_adds (w : Fin K) : (W.adds w).length = W.prog.count .add := by
  rw [adds, ← List.countP_eq_length_filter, count_calls le_rfl, before, List.take_length]

theorem filter_calls (h : i ≤ W.prog.length) :
    (W.calls w i).filter (fun c => c.op = .add) = (W.adds w).take (W.before .add i) := by
  obtain ⟨n, hn⟩ := Nat.exists_eq_add_of_le h
  obtain ⟨l, hl⟩ := calls_append (W := W) w i n
  have hlen : ((W.calls w i).filter fun c => c.op = .add).length = W.before .add i := by
    rw [← count_calls (w := w) h, List.countP_eq_length_filter]
  rw [adds, hn, hl, List.filter_append, List.take_append_of_le_length hlen.ge, ← hlen,
    List.take_length]

end Workload

/-- All requests the scheduler has received: served ones first, then the two caches. -/
def SyncScheduler.received {K : ℕ} {D : Type} (s : SyncScheduler K D) : List (Call K D) :=
  s.served ++ s.msgAddCache.map (Call.mk .add) ++ s.msgGetCache.map (Call.mk .get)

namespace Workload

variable {K : ℕ} {D : Type} {W : Workload K D} {x : System K D} {t : SyncScheduler K D}
  {v w : Fin K} {i : ℕ} {o : Op}

/-- The scheduler holds or has served exactly the requests that reached it. -/
structure Ledger (W : Workload K D) (x : System K D) : Prop where
  clocked : x.sched.Clocked
  sent_le : ∀ w, x.sent w ≤ W.prog.length
  received : ∀ w, (x.sched.received.filter fun c => c.msg.worker = w).Perm (W.calls w (x.sent w))

theorem ledger_start : Ledger W (start K D) where
  clocked := clocked_new
  sent_le _ := Nat.zero_le _
  received w := by simp [start, SyncScheduler.new, SyncScheduler.received, calls]

/-- Whatever a handler does, it keeps the ledger if it neither drops nor invents a request. -/
theorem Ledger.step (h : Ledger W x) (hop : W.prog[x.sent w]? = some o) (hc : t.Clocked)
    (hp : t.received.Perm (x.sched.received ++ [W.call w (x.sent w) o])) :
    Ledger W ⟨t, bump x.sent w⟩ where
  clocked := hc
  sent_le v := by
    have hl := lt_length hop
    by_cases hv : v = w
    · subst hv; simpa using hl
    · simpa [hv] using h.sent_le v
  received v := by
    have hf := hp.filter fun c => decide (c.msg.worker = v)
    rw [List.filter_append] at hf
    dsimp only
    by_cases hv : v = w
    · subst hv
      rw [bump_self, calls_succ hop]
      refine hf.trans ((h.received v).append ?_)
      simp [call, request]
    · rw [bump_of_ne hv]
      refine hf.trans ?_
      simpa [call, request, Ne.symm hv] using h.received v

/-- A served or cached request is one its worker has sent. -/
theorem Ledger.genuine (h : Ledger W x) {c : Call K D} (hc : c ∈ x.sched.received) :
    ∃ i < x.sent c.msg.worker, W.prog[i]? = some c.op ∧ c = W.call c.msg.worker i c.op := by
  have hm : c ∈ W.calls c.msg.worker (x.sent c.msg.worker) :=
    (h.received _).mem_iff.mp (by simpa using hc)
  obtain ⟨i, hi, o, hop, hcall⟩ := mem_calls.mp hm
  have ho : c.op = o := by rw [hcall]; rfl
  exact ⟨i, hi, ho ▸ hop, ho ▸ hcall⟩

theorem Ledger.genuine_add (h : Ledger W x) {m : Request K D} (hm : m ∈ x.sched.msgAddCache) :
    m.msgId < x.sent m.worker ∧ W.prog[m.msgId]? = some .add ∧
      m = W.request m.worker m.msgId .add := by
  obtain ⟨i, hi, hop, hc⟩ := h.genuine (c := ⟨.add, m⟩) (by simp [SyncScheduler.received, hm])
  have hm' : m = W.request m.worker i .add := congrArg Call.msg hc
  have hid : m.msgId = i := congrArg Request.msgId hm'
  rw [hid]
  exact ⟨hi, hop, hm'⟩

theorem Ledger.genuine_get (h : Ledger W x) {m : Request K D} (hm : m ∈ x.sched.msgGetCache) :
    m.msgId < x.sent m.worker ∧ W.prog[m.msgId]? = some .get ∧
      m = W.request m.worker m.msgId .get := by
  obtain ⟨i, hi, hop, hc⟩ := h.genuine (c := ⟨.get, m⟩) (by simp [SyncScheduler.received, hm])
  have hm' : m = W.request m.worker i .get := congrArg Call.msg hc
  have hid : m.msgId = i := congrArg Request.msgId hm'
  rw [hid]
  exact ⟨hi, hop, hm'⟩

theorem Ledger.data_add (h : Ledger W x) : ∀ m ∈ x.sched.msgAddCache, m.data ≠ [] := by
  intro m hm
  rw [(h.genuine_add hm).2.2]
  exact data_ne_nil

theorem Ledger.data_get (h : Ledger W x) : ∀ m ∈ x.sched.msgGetCache, m.data ≠ [] := by
  intro m hm
  rw [(h.genuine_get hm).2.2]
  exact data_ne_nil

theorem Ledger.count_received (h : Ledger W x) (o : Op) (w : Fin K) :
    (x.sched.received.countP fun c => c.op = o ∧ c.msg.worker = w) = W.before o (x.sent w) := by
  rw [← count_calls (w := w) (h.sent_le w), ← (h.received w).countP_eq, List.countP_filter]
  simp

theorem Ledger.adds_add_waits (h : Ledger W x) (w : Fin K) :
    x.sched.count .add w + x.sched.msgAddCache.countP (fun m => m.worker = w) =
      W.before .add (x.sent w) := by
  rw [← h.count_received .add w]
  simp [SyncScheduler.received, SyncScheduler.count, Function.comp_def]

theorem Ledger.gets_add_waits (h : Ledger W x) (w : Fin K) :
    x.sched.count .get w + x.sched.msgGetCache.countP (fun m => m.worker = w) =
      W.before .get (x.sent w) := by
  rw [← h.count_received .get w]
  simp [SyncScheduler.received, SyncScheduler.count, Function.comp_def]

theorem Ledger.count_le (h : Ledger W x) (o : Op) (w : Fin K) :
    x.sched.count o w ≤ W.before o (x.sent w) := by
  cases o with
  | get => have := h.gets_add_waits w; omega
  | add => have := h.adds_add_waits w; omega

/-- No clock reaches `intMax` when the next request of `w` is counted. -/
theorem Ledger.bump_lt (h : Ledger W x) (hf : W.Fits) (hop : W.prog[x.sent w]? = some o)
    (v : Fin K) : (bump (x.sched.count o) w v : ℤ) < intMax := by
  refine lt_of_le_of_lt ?_ (hf o)
  norm_cast
  by_cases hv : v = w
  · subst hv
    have := h.count_le o v
    have := before_succ hop
    have := before_le (W := W) (o := o) (i := x.sent v + 1)
    simp only [bump_self]
    omega
  · rw [bump_of_ne hv]
    exact (h.count_le o v).trans before_le

/-- What one arrival does: the request waits, is served, or ends a round and empties a cache. -/
inductive Outcome (W : Workload K D) (x : System K D) (w : Fin K) (t : SyncScheduler K D) : Op → Prop
  | addCached
      (ahead : ∃ j, x.sched.count .get j < x.sched.count .get w)
      (served : t.served = x.sched.served)
      (adds : t.msgAddCache = x.sched.msgAddCache ++ [W.request w (x.sent w) .add])
      (gets : t.msgGetCache = x.sched.msgGetCache) : Outcome W x w t .add
  | addServed
      (least : ∀ j, x.sched.count .get w ≤ x.sched.count .get j)
      (open_ : ∃ v, v ≠ w ∧ x.sched.count .add v ≠ x.sched.count .add w + 1)
      (served : t.served = x.sched.served ++ [W.call w (x.sent w) .add])
      (adds : t.msgAddCache = x.sched.msgAddCache)
      (gets : t.msgGetCache = x.sched.msgGetCache) : Outcome W x w t .add
  | addFlush
      (least : ∀ j, x.sched.count .get w ≤ x.sched.count .get j)
      (full : ∀ v, v ≠ w → x.sched.count .add v = x.sched.count .add w + 1)
      (served : t.served = x.sched.served ++ W.call w (x.sent w) .add ::
        x.sched.msgGetCache.map (Call.mk .get))
      (noAdds : x.sched.msgAddCache = []) (adds : t.msgAddCache = [])
      (gets : t.msgGetCache = []) : Outcome W x w t .add
  | getCached
      (waits : (∃ j, x.sched.count .add j < x.sched.count .add w) ∨
        ∃ r ∈ x.sched.msgAddCache, r.worker = w)
      (served : t.served = x.sched.served)
      (adds : t.msgAddCache = x.sched.msgAddCache)
      (gets : t.msgGetCache = x.sched.msgGetCache ++ [W.request w (x.sent w) .get]) :
      Outcome W x w t .get
  | getServed
      (least : ∀ j, x.sched.count .add w ≤ x.sched.count .add j)
      (noWait : ∀ r ∈ x.sched.msgAddCache, r.worker ≠ w)
      (open_ : ∃ v, v ≠ w ∧ x.sched.count .get v ≠ x.sched.count .get w + 1)
      (served : t.served = x.sched.served ++ [W.call w (x.sent w) .get])
      (adds : t.msgAddCache = x.sched.msgAddCache)
      (gets : t.msgGetCache = x.sched.msgGetCache) : Outcome W x w t .get
  | getFlush
      (least : ∀ j, x.sched.count .add w ≤ x.sched.count .add j)
      (noWait : ∀ r ∈ x.sched.msgAddCache, r.worker ≠ w)
      (full : ∀ v, v ≠ w → x.sched.count .get v = x.sched.count .get w + 1)
      (served : t.served = x.sched.served ++ W.call w (x.sent w) .get ::
        x.sched.msgAddCache.map (Call.mk .add))
      (adds : t.msgAddCache = []) (gets : t.msgGetCache = x.sched.msgGetCache) :
      Outcome W x w t .get

theorem bump_eq_iff {n : Fin K → ℕ} :
    (∀ v, bump n w v = n w + 1) ↔ ∀ v, v ≠ w → n v = n w + 1 := by
  constructor
  · intro h v hv
    simpa [hv] using h v
  · intro h v
    by_cases hv : v = w
    · subst hv; simp
    · simpa [hv] using h v hv

/-- An Add round that ends must find no Add waiting, and no Get of the worker that ends it. -/
def Quiet (x : System K D) (w : Fin K) : Prop :=
  (∀ j, x.sched.count .get w ≤ x.sched.count .get j) →
    (∀ v, v ≠ w → x.sched.count .add v = x.sched.count .add w + 1) →
      x.sched.msgAddCache = [] ∧ ∀ r ∈ x.sched.msgGetCache, r.worker ≠ w

theorem Ledger.exists_outcome_add (h : Ledger W x) (hf : W.Fits)
    (hop : W.prog[x.sent w]? = some .add) (hq : Quiet x w) :
    ∃ t, processAdd x.sched (W.request w (x.sent w) .add) = some t ∧ t.Clocked ∧
      Outcome W x w t .add := by
  have hround := (h.clocked.adds.update_true_iff (h.bump_lt hf hop)).trans bump_eq_iff
  by_cases hw : ∃ j, x.sched.count .get j < x.sched.count .get w
  · obtain ⟨t, ht, hc, hs, ha, hg⟩ := processAdd_cached (m := W.request w (x.sent w) .add) h.clocked hw
    exact ⟨t, ht, hc, .addCached hw hs ha hg⟩
  push Not at hw
  cases hfull : (x.sched.workerAddClocks.update w).2 with
  | true =>
    have hall := hround.mp hfull
    obtain ⟨hnil, hown⟩ := hq hw hall
    obtain ⟨t, ht, hc, hs, ha, hg⟩ := processAdd_flush (m := W.request w (x.sent w) .add) h.clocked
      data_ne_nil hw hfull hnil h.data_get hown
    exact ⟨t, ht, hc, .addFlush hw hall hs hnil ha hg⟩
  | false =>
    have hopen := hround.not.mp (by simp [hfull])
    push Not at hopen
    obtain ⟨t, ht, hc, hs, ha, hg⟩ := processAdd_served (m := W.request w (x.sent w) .add) h.clocked
      data_ne_nil hw hfull
    exact ⟨t, ht, hc, .addServed hw hopen hs ha hg⟩

theorem Ledger.exists_outcome_get (h : Ledger W x) (hf : W.Fits)
    (hop : W.prog[x.sent w]? = some .get) :
    ∃ t, processGet x.sched (W.request w (x.sent w) .get) = some t ∧ t.Clocked ∧
      Outcome W x w t .get := by
  have hround := (h.clocked.gets.update_true_iff (h.bump_lt hf hop)).trans bump_eq_iff
  by_cases hw : (∃ j, x.sched.count .add j < x.sched.count .add w) ∨
      ∃ r ∈ x.sched.msgAddCache, r.worker = w
  · obtain ⟨t, ht, hc, hs, ha, hg⟩ := processGet_cached (m := W.request w (x.sent w) .get) h.clocked hw
    exact ⟨t, ht, hc, .getCached hw hs ha hg⟩
  push Not at hw
  cases hfull : (x.sched.workerGetClocks.update w).2 with
  | true =>
    obtain ⟨t, ht, hc, hs, ha, hg⟩ := processGet_flush (m := W.request w (x.sent w) .get) h.clocked
      data_ne_nil hw.1 hw.2 hfull h.data_add
    exact ⟨t, ht, hc, .getFlush hw.1 hw.2 (hround.mp hfull) hs ha hg⟩
  | false =>
    have hopen := hround.not.mp (by simp [hfull])
    push Not at hopen
    obtain ⟨t, ht, hc, hs, ha, hg⟩ := processGet_served (m := W.request w (x.sent w) .get) h.clocked
      data_ne_nil hw.1 hw.2 hfull
    exact ⟨t, ht, hc, .getServed hw.1 hw.2 hopen hs ha hg⟩

/-- No outcome drops or invents a request. -/
theorem Outcome.received_perm (h : Outcome W x w t o) :
    t.received.Perm (x.sched.received ++ [W.call w (x.sent w) o]) := by
  classical
  rw [List.perm_iff_count]
  intro c
  cases h <;> simp only [SyncScheduler.received, call, List.count_append, List.map_append,
    List.map_cons, List.map_nil, List.count_cons, List.count_nil, *] <;> omega

/-- Either nothing is served, or the request itself and after it one cache or none. -/
theorem Outcome.served_cases (h : Outcome W x w t o) :
    t.served = x.sched.served ∨ ∃ o' ms,
      t.served = x.sched.served ++ W.call w (x.sent w) o :: ms.map (Call.mk o') ∧
        (ms = [] ∨ ms = x.sched.msgAddCache ∧ o' = .add ∨ ms = x.sched.msgGetCache ∧ o' = .get) := by
  cases h with
  | addCached ahead served adds gets => exact .inl served
  | addServed least open_ served adds gets => exact .inr ⟨.add, [], served, .inl rfl⟩
  | addFlush least full served noAdds adds gets =>
    exact .inr ⟨.get, _, served, .inr (.inr ⟨rfl, rfl⟩)⟩
  | getCached waits served adds gets => exact .inl served
  | getServed least noWait open_ served adds gets => exact .inr ⟨.add, [], served, .inl rfl⟩
  | getFlush least noWait full served adds gets =>
    exact .inr ⟨.add, _, served, .inr (.inl ⟨rfl, rfl⟩)⟩

theorem Outcome.mem_cache (h : Outcome W x w t o) {m : Request K D}
    (hm : m ∈ t.msgAddCache ++ t.msgGetCache) :
    m ∈ x.sched.msgAddCache ++ x.sched.msgGetCache ∨ m = W.request w (x.sent w) o := by
  cases h <;> simp_all <;> tauto

/-- Every arrival has an outcome: no CHECK fails while `Quiet` holds. -/
theorem Ledger.exists_outcome (h : Ledger W x) (hf : W.Fits) (hop : W.prog[x.sent w]? = some o)
    (hq : o = .add → Quiet x w) :
    ∃ t, process o x.sched (W.request w (x.sent w) o) = some t ∧
      Ledger W ⟨t, bump x.sent w⟩ ∧ Outcome W x w t o := by
  have hex : ∃ t, process o x.sched (W.request w (x.sent w) o) = some t ∧ t.Clocked ∧
      Outcome W x w t o := by
    cases o with
    | get => exact h.exists_outcome_get hf hop
    | add => exact h.exists_outcome_add hf hop (hq rfl)
  obtain ⟨t, ht, hc, ho⟩ := hex
  exact ⟨t, ht, h.step hop hc ho.received_perm, ho⟩

end Workload
end Hpps.Scheduler

import Hpps.Scheduler.VectorClock

/-! The sync scheduler of one server table, and what one request can do to it. -/
namespace Hpps.Scheduler

/-- The message types dispatched to a scheduler by the server actor. -/
inductive Op
  | get
  | add
  deriving DecidableEq, Repr

/-- A request as the scheduler reads it: `worker` is `rank_to_worker_id` of its source. -/
structure Request (K : ℕ) (D : Type) where
  worker : Fin K
  msgId : ℕ
  data : List D

/-- A call on the server table together with the reply sent after it. -/
structure Call (K : ℕ) (D : Type) where
  op : Op
  msg : Request K D

/-- `served` logs the calls made on the table so far; a `none` result below is a failed CHECK. -/
structure SyncScheduler (K : ℕ) (D : Type) where
  workerGetClocks : VectorClock K
  workerAddClocks : VectorClock K
  numWaitedAdd : Fin K → ℤ
  msgAddCache : List (Request K D)
  msgGetCache : List (Request K D)
  served : List (Call K D)

namespace SyncScheduler

open VectorClock

variable {K : ℕ} {D : Type} {s t : SyncScheduler K D} {m : Request K D} {w : Fin K}

def new (K : ℕ) (D : Type) : SyncScheduler K D where
  workerGetClocks := .new K
  workerAddClocks := .new K
  numWaitedAdd _ := 0
  msgAddCache := []
  msgGetCache := []
  served := []

/-- A message without data is dropped: no table call and no reply. -/
def serve (o : Op) (s : SyncScheduler K D) (m : Request K D) : SyncScheduler K D :=
  if m.data.length ≠ 0 then { s with served := s.served ++ [⟨o, m⟩] } else s

/-- `Scheduler::ProcessGet` of the base class. -/
def baseProcessGet (s : SyncScheduler K D) (m : Request K D) : SyncScheduler K D := s.serve .get m

/-- `Scheduler::ProcessAdd` of the base class. -/
def baseProcessAdd (s : SyncScheduler K D) (m : Request K D) : SyncScheduler K D := s.serve .add m

/-- The loop that empties `msg_get_cache_`; its CHECK forbids a completed get round. -/
def flushGets : List (Request K D) → SyncScheduler K D → Option (SyncScheduler K D)
  | [], s => some { s with msgGetCache := [] }
  | m :: ms, s =>
    let s := baseProcessGet { s with msgGetCache := ms } m
    let (clocks, full) := s.workerGetClocks.update m.worker
    if full then none else flushGets ms { s with workerGetClocks := clocks }

/-- The loop that empties `msg_add_cache_`; its CHECK forbids a completed add round. -/
def flushAdds : List (Request K D) → SyncScheduler K D → Option (SyncScheduler K D)
  | [], s => some { s with msgAddCache := [] }
  | m :: ms, s =>
    let s := baseProcessAdd { s with msgAddCache := ms } m
    let (clocks, full) := s.workerAddClocks.update m.worker
    if full then none
    else flushAdds ms { s with
      workerAddClocks := clocks
      numWaitedAdd := Function.update s.numWaitedAdd m.worker (s.numWaitedAdd m.worker - 1) }

def processAdd (s : SyncScheduler K D) (m : Request K D) : Option (SyncScheduler K D) :=
  if s.workerGetClocks.localClock m.worker > s.workerGetClocks.globalClock then
    some { s with
      msgAddCache := s.msgAddCache ++ [m]
      numWaitedAdd := Function.update s.numWaitedAdd m.worker (s.numWaitedAdd m.worker + 1) }
  else
    let s := s.baseProcessAdd m
    let (clocks, full) := s.workerAddClocks.update m.worker
    let s := { s with workerAddClocks := clocks }
    if full then
      if s.msgAddCache.isEmpty then flushGets s.msgGetCache s else none
    else some s

def processGet (s : SyncScheduler K D) (m : Request K D) : Option (SyncScheduler K D) :=
  if s.workerAddClocks.localClock m.worker > s.workerAddClocks.globalClock ∨
      s.numWaitedAdd m.worker > 0 then
    some { s with msgGetCache := s.msgGetCache ++ [m] }
  else
    let s := s.baseProcessGet m
    let (clocks, full) := s.workerGetClocks.update m.worker
    let s := { s with workerGetClocks := clocks }
    if full then flushAdds s.msgAddCache s else some s

def processFinishTrain (s : SyncScheduler K D) (m : Request K D) : Option (SyncScheduler K D) := do
  let (clocks, full) := s.workerAddClocks.finishTrain m.worker
  let s := { s with workerAddClocks := clocks }
  let s ← if full then
      if s.msgAddCache.isEmpty then flushGets s.msgGetCache s else none
    else some s
  let (clocks, full) := s.workerGetClocks.finishTrain m.worker
  let s := { s with workerGetClocks := clocks }
  if full then
    if s.msgGetCache.isEmpty then flushAdds s.msgAddCache s else none
  else some s

/-- `Server::ProcessGet` and `Server::ProcessAdd`: the handler of the message type. -/
def process : Op → SyncScheduler K D → Request K D → Option (SyncScheduler K D)
  | .get => processGet
  | .add => processAdd

/-- How many calls of one type a worker has got served. -/
def count (s : SyncScheduler K D) (o : Op) (w : Fin K) : ℕ :=
  s.served.countP fun c => c.op = o ∧ c.msg.worker = w

/-- Clocks and waiting counters are those of the calls served and the Adds cached. -/
structure Clocked (s : SyncScheduler K D) : Prop where
  gets : s.workerGetClocks.Tracks (s.count .get)
  adds : s.workerAddClocks.Tracks (s.count .add)
  waits : ∀ w, s.numWaitedAdd w = s.msgAddCache.countP fun m => m.worker = w

theorem clocked_new : (new K D).Clocked where
  gets := tracks_new
  adds := tracks_new
  waits _ := rfl

theorem serve_eq (hd : m.data ≠ []) (o : Op) :
    s.serve o m = { s with served := s.served ++ [⟨o, m⟩] } := by
  rw [serve, if_pos (by simpa using hd)]

theorem count_serve_self {calls : List (Call K D)} {o : Op}
    (ht : t.served = calls ++ [⟨o, m⟩]) (hs : s.served = calls) :
    t.count o = bump (s.count o) m.worker := by
  funext j
  by_cases h : j = m.worker
  · subst h; simp [count, ht, hs]
  · simp [count, ht, hs, h, Ne.symm h]

theorem count_serve_other {calls : List (Call K D)} {o o' : Op} (hop : o ≠ o')
    (ht : t.served = calls ++ [⟨o, m⟩]) (hs : s.served = calls) :
    t.count o' = s.count o' := by
  funext j
  simp [count, ht, hs, hop]

/-- The state a handler leads to, up to the clocks and counters fixed by `Clocked`. -/
def Yields (r : Option (SyncScheduler K D)) (served : List (Call K D))
    (addCache getCache : List (Request K D)) : Prop :=
  ∃ t, r = some t ∧ t.Clocked ∧ t.served = served ∧ t.msgAddCache = addCache ∧
    t.msgGetCache = getCache

section Flush

variable {l : List (Request K D)} {P : VectorClock K → (Fin K → ℕ) → Prop}

/-- The cached Gets are all answered if none of them completes a round, whatever `P` says of the clocks. -/
theorem flushGets_spec (hP : P s.workerGetClocks (s.count .get)) (hd : ∀ m ∈ l, m.data ≠ [])
    (hstep : ∀ c n, ∀ m ∈ l, P c n →
      (c.update m.worker).2 = false ∧ P (c.update m.worker).1 (bump n m.worker)) :
    ∃ t, flushGets l s = some t ∧ P t.workerGetClocks (t.count .get) ∧
      t.served = s.served ++ l.map (Call.mk .get) ∧ t.msgAddCache = s.msgAddCache ∧ t.msgGetCache = [] ∧
      t.workerAddClocks = s.workerAddClocks ∧ t.numWaitedAdd = s.numWaitedAdd := by
  induction l generalizing s with
  | nil => exact ⟨_, rfl, hP, by simp, rfl, rfl, rfl, rfl⟩
  | cons m l ih =>
    simp only [List.forall_mem_cons] at hd
    obtain ⟨hfull, hP'⟩ := hstep _ _ m List.mem_cons_self hP
    simp only [flushGets, baseProcessGet, serve_eq hd.1, hfull, Bool.false_eq_true, if_false]
    set t : SyncScheduler K D := { s with
      workerGetClocks := (s.workerGetClocks.update m.worker).1
      msgGetCache := l
      served := s.served ++ [⟨.get, m⟩] } with ht
    have hself : t.count .get = bump (s.count .get) m.worker := count_serve_self rfl rfl
    obtain ⟨u, hu, hPu, hserved, hadd, hget, hclocks, hwaits⟩ := ih (s := t) (by rw [hself]; exact hP') hd.2
      fun c n m' hm' => hstep c n m' (List.mem_cons_of_mem _ hm')
    exact ⟨u, hu, hPu, by simp [hserved, ht], hadd, hget, hclocks, hwaits⟩

theorem flushAdds_spec (hP : P s.workerAddClocks (s.count .add)) (hd : ∀ m ∈ l, m.data ≠ [])
    (hstep : ∀ c n, ∀ m ∈ l, P c n →
      (c.update m.worker).2 = false ∧ P (c.update m.worker).1 (bump n m.worker)) :
    ∃ t, flushAdds l s = some t ∧ P t.workerAddClocks (t.count .add) ∧
      t.served = s.served ++ l.map (Call.mk .add) ∧ t.msgAddCache = [] ∧ t.msgGetCache = s.msgGetCache ∧
      t.workerGetClocks = s.workerGetClocks ∧
      ∀ j, t.numWaitedAdd j = s.numWaitedAdd j - l.countP fun m => m.worker = j := by
  induction l generalizing s with
  | nil => exact ⟨_, rfl, hP, by simp, rfl, rfl, rfl, by simp⟩
  | cons m l ih =>
    simp only [List.forall_mem_cons] at hd
    obtain ⟨hfull, hP'⟩ := hstep _ _ m List.mem_cons_self hP
    simp only [flushAdds, baseProcessAdd, serve_eq hd.1, hfull, Bool.false_eq_true, if_false]
    set t : SyncScheduler K D := { s with
      workerAddClocks := (s.workerAddClocks.update m.worker).1
      numWaitedAdd := Function.update s.numWaitedAdd m.worker (s.numWaitedAdd m.worker - 1)
      msgAddCache := l
      served := s.served ++ [⟨.add, m⟩] } with ht
    have hself : t.count .add = bump (s.count .add) m.worker := count_serve_self rfl rfl
    obtain ⟨u, hu, hPu, hserved, hadd, hget, hclocks, hwaits⟩ := ih (s := t) (by rw [hself]; exact hP') hd.2
      fun c n m' hm' => hstep c n m' (List.mem_cons_of_mem _ hm')
    refine ⟨u, hu, hPu, by simp [hserved, ht], hadd, hget, hclocks, fun j => ?_⟩
    rw [hwaits]
    by_cases hjm : j = m.worker
    · subst hjm
      simp only [ht, Function.update_self, List.countP_cons, decide_true, if_true]
      push_cast
      ring
    · simp [ht, hjm, Ne.symm hjm]

theorem count_flush {o o' : Op} (hop : o ≠ o') (ht : t.served = s.served ++ l.map (Call.mk o)) :
    t.count o' = s.count o' := by
  funext j
  simp [count, ht, List.countP_map, Function.comp_def, hop]

/-- The clock counts, and worker `w` stays at the least count: the CHECK of a flush stays quiet. -/
theorem update_least {c : VectorClock K} {n : Fin K → ℕ} {j : Fin K} (hj : j ≠ w)
    (h : c.Tracks n ∧ ∀ i, n w ≤ n i) :
    (c.update j).2 = false ∧ (c.update j).1.Tracks (bump n j) ∧ ∀ i, bump n j w ≤ bump n j i := by
  refine ⟨h.1.update_false (Ne.symm hj) h.2, h.1.update, fun i => ?_⟩
  rw [bump_of_ne (Ne.symm hj)]
  exact (h.2 i).trans le_bump

/-- A worker left at the least get count keeps the CHECK of the flush quiet. -/
theorem flushGets_yields (h : s.Clocked) (hd : ∀ m ∈ l, m.data ≠ []) (hw : ∀ m ∈ l, m.worker ≠ w)
    (hmin : ∀ j, s.count .get w ≤ s.count .get j) :
    Yields (flushGets l s) (s.served ++ l.map (Call.mk .get)) s.msgAddCache [] := by
  obtain ⟨t, ht, hP, hserved, hadd, hget, hclocks, hwaits⟩ := flushGets_spec
    (P := fun c n => c.Tracks n ∧ ∀ j, n w ≤ n j) ⟨h.gets, hmin⟩ hd fun c n m hm => update_least (hw m hm)
  refine ⟨t, ht, ⟨hP.1, ?_, fun j => ?_⟩, hserved, hadd, hget⟩
  · rw [hclocks, count_flush (by decide) hserved]
    exact h.adds
  · rw [hwaits, hadd]
    exact h.waits j

theorem flushAdds_yields (h : s.Clocked) (hms : s.msgAddCache = l) (hd : ∀ m ∈ l, m.data ≠ [])
    (hw : ∀ m ∈ l, m.worker ≠ w) (hmin : ∀ j, s.count .add w ≤ s.count .add j) :
    Yields (flushAdds l s) (s.served ++ l.map (Call.mk .add)) [] s.msgGetCache := by
  obtain ⟨t, ht, hP, hserved, hadd, hget, hclocks, hwaits⟩ := flushAdds_spec
    (P := fun c n => c.Tracks n ∧ ∀ j, n w ≤ n j) ⟨h.adds, hmin⟩ hd fun c n m hm => update_least (hw m hm)
  refine ⟨t, ht, ⟨?_, hP.1, fun j => ?_⟩, hserved, hadd, hget⟩
  · rw [hclocks, count_flush (by decide) hserved]
    exact h.gets
  · rw [hwaits, h.waits, hms, hadd]
    simp

end Flush

/-- The worker is ahead in Gets: its Add waits. -/
theorem processAdd_cached (h : s.Clocked) (hw : ∃ j, s.count .get j < s.count .get m.worker) :
    Yields (s.processAdd m) s.served (s.msgAddCache ++ [m]) s.msgGetCache := by
  rw [processAdd, if_pos (h.gets.gt_iff.mpr hw)]
  refine ⟨_, rfl, ⟨h.gets, h.adds, fun j => ?_⟩, rfl, rfl, rfl⟩
  have hj := h.waits j
  by_cases hjm : j = m.worker
  · subst hjm; simp [hj]
  · simp [hj, hjm, Ne.symm hjm]

/-- The Get waits for the other workers' Adds or for its own worker's. -/
theorem processGet_cached (h : s.Clocked) (hw : (∃ j, s.count .add j < s.count .add m.worker) ∨
      ∃ r ∈ s.msgAddCache, r.worker = m.worker) :
    Yields (s.processGet m) s.served s.msgAddCache (s.msgGetCache ++ [m]) := by
  rw [processGet, if_pos]
  · exact ⟨_, rfl, ⟨h.gets, h.adds, h.waits⟩, rfl, rfl, rfl⟩
  · refine hw.imp h.adds.gt_iff.mpr fun hr => ?_
    rw [h.waits]
    have := List.countP_pos_iff (p := fun r : Request K D => decide (r.worker = m.worker)).mpr
      (by simpa using hr)
    exact_mod_cast this

/-- The state right after a call served without delay. -/
theorem clocked_served_add (h : s.Clocked) :
    Clocked { s with
      workerAddClocks := (s.workerAddClocks.update m.worker).1
      served := s.served ++ [⟨.add, m⟩] } where
  gets := by
    rw [count_serve_other (s := s) (o := .add) (m := m) (by decide) rfl rfl]
    exact h.gets
  adds := by
    rw [count_serve_self (s := s) (o := .add) (m := m) rfl rfl]
    exact h.adds.update
  waits := h.waits

theorem clocked_served_get (h : s.Clocked) :
    Clocked { s with
      workerGetClocks := (s.workerGetClocks.update m.worker).1
      served := s.served ++ [⟨.get, m⟩] } where
  gets := by
    rw [count_serve_self (s := s) (o := .get) (m := m) rfl rfl]
    exact h.gets.update
  adds := by
    rw [count_serve_other (s := s) (o := .get) (m := m) (by decide) rfl rfl]
    exact h.adds
  waits := h.waits

/-- The Add is applied and leaves its add round open. -/
theorem processAdd_served (h : s.Clocked) (hd : m.data ≠ [])
    (hw : ∀ j, s.count .get m.worker ≤ s.count .get j)
    (hfull : (s.workerAddClocks.update m.worker).2 = false) :
    Yields (s.processAdd m) (s.served ++ [⟨.add, m⟩]) s.msgAddCache s.msgGetCache := by
  rw [processAdd, if_neg (by rw [h.gets.gt_iff]; push Not; exact hw)]
  simp only [baseProcessAdd, serve_eq hd, hfull, Bool.false_eq_true, if_false]
  exact ⟨_, rfl, clocked_served_add h, rfl, rfl, rfl⟩

/-- The Add completes its round and releases the cached Gets. -/
theorem processAdd_flush (h : s.Clocked) (hd : m.data ≠ [])
    (hw : ∀ j, s.count .get m.worker ≤ s.count .get j)
    (hfull : (s.workerAddClocks.update m.worker).2 = true)
    (hempty : s.msgAddCache = []) (hgd : ∀ r ∈ s.msgGetCache, r.data ≠ [])
    (hgw : ∀ r ∈ s.msgGetCache, r.worker ≠ m.worker) :
    Yields (s.processAdd m) (s.served ++ ⟨.add, m⟩ :: s.msgGetCache.map (Call.mk .get)) [] [] := by
  rw [processAdd, if_neg (by rw [h.gets.gt_iff]; push Not; exact hw)]
  simp only [baseProcessAdd, serve_eq hd, hfull, if_true, hempty, List.isEmpty_nil]
  have hmin : ∀ j, count { s with
      workerAddClocks := (s.workerAddClocks.update m.worker).1
      served := s.served ++ [⟨.add, m⟩] } .get m.worker ≤ count { s with
      workerAddClocks := (s.workerAddClocks.update m.worker).1
      served := s.served ++ [⟨.add, m⟩] } .get j := by
    rw [count_serve_other (s := s) (o := .add) (m := m) (by decide) rfl rfl]
    exact hw
  have hf := flushGets_yields (clocked_served_add (m := m) h) hgd hgw hmin
  simpa [hempty] using hf

/-- An Add round that ends while an Add waits fails the CHECK on the add cache. -/
theorem processAdd_check_fails (h : s.Clocked) (hw : ∀ j, s.count .get m.worker ≤ s.count .get j)
    (hfull : (s.workerAddClocks.update m.worker).2 = true) (hne : s.msgAddCache ≠ []) :
    s.processAdd m = none := by
  have hserve : s.baseProcessAdd m = { s with served := (s.baseProcessAdd m).served } := by
    unfold baseProcessAdd serve
    split <;> rfl
  rw [processAdd, if_neg (by rw [h.gets.gt_iff]; push Not; exact hw), hserve]
  simp [hfull, hne]

theorem not_cached_get (h : s.Clocked) (hw : ∀ j, s.count .add m.worker ≤ s.count .add j)
    (hwait : ∀ r ∈ s.msgAddCache, r.worker ≠ m.worker) :
    ¬ (s.workerAddClocks.localClock m.worker > s.workerAddClocks.globalClock ∨
      s.numWaitedAdd m.worker > 0) := by
  rw [h.adds.gt_iff, h.waits]
  rintro (⟨j, hj⟩ | hpos)
  · exact absurd (hw j) (by omega)
  · obtain ⟨r, hr, hrw⟩ := List.countP_pos_iff.mp (by exact_mod_cast hpos)
    exact hwait r hr (by simpa using hrw)

/-- The Get is answered and leaves its get round open. -/
theorem processGet_served (h : s.Clocked) (hd : m.data ≠ [])
    (hw : ∀ j, s.count .add m.worker ≤ s.count .add j)
    (hwait : ∀ r ∈ s.msgAddCache, r.worker ≠ m.worker)
    (hfull : (s.workerGetClocks.update m.worker).2 = false) :
    Yields (s.processGet m) (s.served ++ [⟨.get, m⟩]) s.msgAddCache s.msgGetCache := by
  rw [processGet, if_neg (not_cached_get h hw hwait)]
  simp only [baseProcessGet, serve_eq hd, hfull, Bool.false_eq_true, if_false]
  exact ⟨_, rfl, clocked_served_get h, rfl, rfl, rfl⟩

/-- The Get completes its round and releases the cached Adds. -/
theorem processGet_flush (h : s.Clocked) (hd : m.data ≠ [])
    (hw : ∀ j, s.count .add m.worker ≤ s.count .add j)
    (hwait : ∀ r ∈ s.msgAddCache, r.worker ≠ m.worker)
    (hfull : (s.workerGetClocks.update m.worker).2 = true)
    (had : ∀ r ∈ s.msgAddCache, r.data ≠ []) :
    Yields (s.processGet m) (s.served ++ ⟨.get, m⟩ :: s.msgAddCache.map (Call.mk .add)) []
      s.msgGetCache := by
  rw [processGet, if_neg (not_cached_get h hw hwait)]
  simp only [baseProcessGet, serve_eq hd, hfull, if_true]
  have hmin : ∀ j, count { s with
      workerGetClocks := (s.workerGetClocks.update m.worker).1
      served := s.served ++ [⟨.get, m⟩] } .add m.worker ≤ count { s with
      workerGetClocks := (s.workerGetClocks.update m.worker).1
      served := s.served ++ [⟨.get, m⟩] } .add j := by
    rw [count_serve_other (s := s) (o := .get) (m := m) (by decide) rfl rfl]
    exact hw
  have hf := flushAdds_yields (clocked_served_get (m := m) h) rfl had hwait hmin
  simpa using hf

end SyncScheduler
end Hpps.Scheduler

import Hpps.Scheduler.Lockstep

/-! Workers that leave training after different numbers of rounds, each a Get and then an Add. -/
namespace Hpps.Scheduler

open SyncScheduler VectorClock

/-! ### Clocks of which some are at the end -/

namespace VectorClock

variable {K : ℕ} {c : VectorClock K} {n : Fin K → ℕ} {done : Finset (Fin K)} {i j : Fin K} {g : ℕ}

/-- The clock counts `n` for the workers that are not `done`; the least of their counts is the global one. -/
structure Follows (c : VectorClock K) (n : Fin K → ℕ) (done : Finset (Fin K)) (g : ℕ) : Prop where
  localClock : ∀ i, c.localClock i = if i ∈ done then intMax else (n i : ℤ)
  globalClock : (∃ i, i ∉ done) → c.globalClock = g
  le : ∀ i, i ∉ done → g ≤ n i
  mem : (∃ i, i ∉ done) → ∃ i, i ∉ done ∧ n i = g

theorem follows_new : Follows (new K) 0 ∅ 0 where
  localClock i := by simp [new]
  globalClock _ := rfl
  le _ _ := le_rfl
  mem := fun ⟨i, hi⟩ => ⟨i, hi, rfl⟩

namespace Follows

variable (h : Follows c n done g)

include h

theorem gt_iff (hi : i ∉ done) : c.localClock i > c.globalClock ↔ g < n i := by
  rw [h.localClock, if_neg hi, h.globalClock ⟨i, hi⟩]
  exact Nat.cast_lt

theorem update_localClock (hi : i ∉ done) : ∀ j, Function.update c.localClock i (c.localClock i + 1) j =
    if j ∈ done then intMax else (bump n i j : ℤ) := by
  intro j
  by_cases hj : j = i
  · subst hj
    simp [h.localClock, hi]
  · simp [hj, h.localClock]

/-- The global clock moves when no worker is left at it. -/
theorem lt_minElement_update (hi : i ∉ done) (hg : (g : ℤ) < intMax) :
    c.globalClock < minElement { c with
        localClock := Function.update c.localClock i (c.localClock i + 1) } ↔
      ∀ j, j ∉ done → g < bump n i j := by
  rw [← Int.add_one_le_iff, le_minElement i, h.globalClock ⟨i, hi⟩]
  simp only [h.update_localClock hi, Int.add_one_le_iff]
  refine forall_congr' fun j => ?_
  split
  · rename_i hj
    exact ⟨fun _ hj' => absurd hj hj', fun _ => hg⟩
  · rename_i hj
    exact ⟨fun hlt _ => by exact_mod_cast hlt, fun hlt => by exact_mod_cast hlt hj⟩

/-- One request more of a worker at the global clock, while the others are at most one ahead. -/
theorem update (hi : i ∉ done) (hgi : n i = g) (hg : (g : ℤ) < intMax)
    (hspread : ∀ j, j ∉ done → n j ≤ g + 1) :
    ((c.update i).2 = true ↔ ∀ j, j ∉ done → g < bump n i j) ∧
      Follows (c.update i).1 (bump n i) done (if (c.update i).2 then g + 1 else g) := by
  have hl := h.update_localClock hi
  have hb : ∀ j, j ∉ done → bump n i j ≤ g + 1 := by
    intro j hj
    by_cases hji : j = i
    · subst hji
      simp [hgi]
    · simpa [hji] using hspread j hj
  unfold VectorClock.update
  dsimp only
  split
  · rename_i hlt
    rw [h.lt_minElement_update hi hg] at hlt
    have hfull : (c.globalClock + 1 == maxElement { c with
        localClock := Function.update c.localClock i (c.localClock i + 1)
        globalClock := c.globalClock + 1 }) = true := by
      rw [beq_iff_eq]
      refine (eq_maxElement (c := ⟨_, c.globalClock + 1⟩)).mpr fun j hj => ?_
      dsimp only at hj ⊢
      rw [hl] at hj ⊢
      split at hj
      · exact absurd rfl hj
      · rename_i hjd
        rw [if_neg hjd, h.globalClock ⟨i, hi⟩]
        exact_mod_cast hb j hjd
    rw [hfull]
    refine ⟨⟨fun _ => hlt, fun _ => rfl⟩, hl, fun _ => ?_, fun j hj => hlt j hj, fun _ => ⟨i, hi, ?_⟩⟩
    · rw [h.globalClock ⟨i, hi⟩]
      rfl
    · rw [bump_self, hgi]
      rfl
  · rename_i hlt
    rw [h.lt_minElement_update hi hg] at hlt
    refine ⟨⟨fun hf => absurd hf (by simp), fun hall => absurd hall hlt⟩, hl, h.globalClock,
      fun j hj => (h.le j hj).trans le_bump, fun _ => ?_⟩
    push Not at hlt
    obtain ⟨j, hj, hle⟩ := hlt
    exact ⟨j, hj, le_antisymm hle ((h.le j hj).trans le_bump)⟩

/-- While a worker other than the one that moves is at the global clock, the round stays open. -/
theorem update_open (hj : j ∉ done) (hgj : n j = g) (hi : i ∉ done) (hij : j ≠ i) (hg : (g : ℤ) < intMax) :
    (c.update i).2 = false ∧ Follows (c.update i).1 (bump n i) done g := by
  have hnot : ¬ c.globalClock < minElement { c with
      localClock := Function.update c.localClock i (c.localClock i + 1) } := by
    rw [h.lt_minElement_update hi hg]
    intro hall
    have := hall j hj
    rw [bump_of_ne hij] at this
    omega
  unfold VectorClock.update
  dsimp only
  rw [if_neg hnot]
  refine ⟨rfl, h.update_localClock hi, h.globalClock, fun v hv => (h.le v hv).trans le_bump, fun _ => ⟨j, hj, ?_⟩⟩
  rwa [bump_of_ne hij]

/-- A worker that leaves completes a round if it was the only one at the global clock. -/
theorem finishTrain (hi : i ∉ done) (hmax : ∀ j, j ∉ done → (n j : ℤ) ≤ intMax)
    (hspread : ∀ j, j ∉ done → n j ≤ g + 1) :
    ((c.finishTrain i).2 = true ↔ (g : ℤ) < intMax ∧ ∀ j, j ∉ insert i done → g < n j) ∧
      Follows (c.finishTrain i).1 n (insert i done) (if (c.finishTrain i).2 then g + 1 else g) := by
  have hl : ∀ j, Function.update c.localClock i intMax j = if j ∈ insert i done then intMax else (n j : ℤ) := by
    intro j
    by_cases hj : j = i
    · subst hj
      simp
    · simp [hj, h.localClock]
  have hlt_iff : c.globalClock < minElement { c with localClock := Function.update c.localClock i intMax } ↔
      (g : ℤ) < intMax ∧ ∀ j, j ∉ insert i done → g < n j := by
    rw [← Int.add_one_le_iff, le_minElement i, h.globalClock ⟨i, hi⟩]
    simp only [hl, Int.add_one_le_iff]
    constructor
    · intro hall
      refine ⟨by simpa using hall i, fun j hj => ?_⟩
      have := hall j
      rw [if_neg hj] at this
      exact_mod_cast this
    · rintro ⟨hg, hall⟩ j
      split
      · exact hg
      · rename_i hj
        exact_mod_cast hall j hj
  have hsub : ∀ j, j ∉ insert i done → j ∉ done := fun j hj hjd => hj (Finset.mem_insert_of_mem hjd)
  unfold VectorClock.finishTrain
  dsimp only
  split
  · rename_i hlt
    have hall := (hlt_iff.mp hlt).2
    set m := minElement { c with localClock := Function.update c.localClock i intMax } with hm
    have hmle : ∀ j, j ∉ insert i done → m ≤ n j := by
      intro j hj
      have := (le_minElement (c := ⟨Function.update c.localClock i intMax, c.globalClock⟩) i).mp hm.le j
      dsimp only at this
      rwa [hl, if_neg hj] at this
    have hrest : ∀ j, j ∉ insert i done → m = (g : ℤ) + 1 ∧ n j = g + 1 := by
      intro j hj
      have hle := hspread j (hsub j hj)
      have hn : n j = g + 1 := le_antisymm hle (hall j hj)
      have := hmle j hj
      rw [h.globalClock ⟨i, hi⟩] at hlt
      exact ⟨by omega, hn⟩
    have hfull : (m == maxElement { c with
        localClock := Function.update c.localClock i intMax
        globalClock := m }) = true := by
      rw [beq_iff_eq]
      refine (eq_maxElement (c := ⟨_, m⟩)).mpr fun j hj => ?_
      dsimp only at hj ⊢
      rw [hl] at hj ⊢
      split at hj
      · exact absurd rfl hj
      · rename_i hjd
        rw [if_neg hjd, (hrest j hjd).1, (hrest j hjd).2]
        rfl
    rw [hfull]
    refine ⟨⟨fun _ => hlt_iff.mp hlt, fun _ => rfl⟩, hl, ?_, fun j hj => hall j hj, ?_⟩
    · rintro ⟨j, hj⟩
      exact (hrest j hj).1
    · rintro ⟨j, hj⟩
      exact ⟨j, hj, (hrest j hj).2⟩
  · rename_i hlt
    rw [hlt_iff] at hlt
    refine ⟨⟨fun hf => absurd hf (by simp), fun hall => absurd hall hlt⟩, hl,
      fun ⟨j, hj⟩ => h.globalClock ⟨j, hsub j hj⟩, fun j hj => h.le j (hsub j hj), fun ⟨j, hj⟩ => ?_⟩
    by_cases hg : (g : ℤ) < intMax
    · push Not at hlt
      obtain ⟨j, hj, hle⟩ := hlt hg
      exact ⟨j, hj, le_antisymm hle (h.le j (hsub j hj))⟩
    · have hle := h.le j (hsub j hj)
      have := hmax j (hsub j hj)
      exact ⟨j, hj, le_antisymm (show n j ≤ g by omega) hle⟩

omit h in
/-- When all workers have left, nothing is asked of the global clock. -/
theorem of_all (hl : ∀ i, c.localClock i = if i ∈ done then intMax else (n i : ℤ)) (hall : ∀ i, i ∈ done) :
    Follows c n done g :=
  ⟨hl, fun ⟨i, hi⟩ => absurd (hall i) hi, fun i hi => absurd (hall i) hi, fun ⟨i, hi⟩ => absurd (hall i) hi⟩

end Follows

end VectorClock

/-! ### The system -/

/-- How many rounds each worker runs, and what its requests carry. -/
structure Training (K : ℕ) (D : Type) where
  rounds : Fin K → ℕ
  payload : Fin K → ℕ → Payload D

/-- The server with one table, how many requests of each worker have reached it, and which workers have
left. -/
structure TrainSystem (K : ℕ) (D : Type) where
  sched : SyncScheduler K D
  sent : Fin K → ℕ
  finished : Finset (Fin K)

/-- What reaches the server next: a worker's next request, or that it finished training. -/
inductive Arrival (K : ℕ)
  | request (w : Fin K)
  | finish (w : Fin K)

/-- A round is a Get and then an Add. -/
def roundOp (i : ℕ) : Op := if i % 2 = 0 then .get else .add

namespace Training

variable {K : ℕ} {D : Type} {T : Training K D} {x y : TrainSystem K D} {a : Arrival K} {v w : Fin K}
  {k i : ℕ} {m : Request K D}

def start (K : ℕ) (D : Type) : TrainSystem K D := ⟨.new K D, 0, ∅⟩

def request (T : Training K D) (w : Fin K) (i : ℕ) : Request K D := ⟨w, i, (T.payload w i).data (roundOp i)⟩

/-- A worker sends its next request after the reply to the last one, and leaves after its last reply. -/
def Enabled (T : Training K D) (x : TrainSystem K D) : Arrival K → Prop
  | .request w => w ∉ x.finished ∧ x.sched.replies w = x.sent w ∧ x.sent w < 2 * T.rounds w
  | .finish w => w ∉ x.finished ∧ x.sched.replies w = x.sent w ∧ x.sent w = 2 * T.rounds w

/-- What the server does; `none` is a failed CHECK. -/
def handle (T : Training K D) (x : TrainSystem K D) : Arrival K → Option (TrainSystem K D)
  | .request w => (process (roundOp (x.sent w)) x.sched (T.request w (x.sent w))).map fun s =>
      ⟨s, bump x.sent w, x.finished⟩
  | .finish w => (x.sched.processFinishTrain ⟨w, x.sent w, []⟩).map fun s =>
      ⟨s, x.sent, insert w x.finished⟩

instance : DecidablePred (Enabled T x) := fun a => by
  cases a <;> exact inferInstanceAs (Decidable (_ ∧ _ ∧ _))

def step (T : Training K D) (x : TrainSystem K D) (a : Arrival K) : Option (TrainSystem K D) :=
  if Enabled T x a then T.handle x a else none

/-- No worker stays, or one that stays has no Add waiting. -/
def Spared (x : TrainSystem K D) : Arrival K → Prop
  | .request _ => True
  | .finish w => (∀ v, v ∈ insert w x.finished) ∨
      ∃ v, v ∉ insert w x.finished ∧ ∀ m ∈ x.sched.msgAddCache, m.worker ≠ v

instance : DecidablePred (Spared x) := fun a => by
  cases a
  · exact instDecidableTrue
  · exact inferInstanceAs (Decidable (_ ∨ _))

/-- The moves at which every finishing worker is spared. -/
def sparedStep (T : Training K D) (x : TrainSystem K D) (a : Arrival K) : Option (TrainSystem K D) :=
  if Spared x a then T.step x a else none

/-- Each request that waits is ahead of a worker that still takes part. -/
def Released (x : TrainSystem K D) : Prop :=
  (∀ m ∈ x.sched.msgAddCache, m.worker ∉ x.finished ∧
    ∃ v, v ∉ x.finished ∧ x.sched.count .get v < x.sched.count .get m.worker) ∧
  ∀ m ∈ x.sched.msgGetCache, m.worker ∉ x.finished ∧
    ∃ v, v ∉ x.finished ∧ x.sched.count .add v < x.sched.count .add m.worker

/-- The workers that stay have `k` Adds applied each, and some of them their next Get answered. -/
structure GetPhase (x : TrainSystem K D) (k : ℕ) : Prop where
  gets : x.sched.workerGetClocks.Follows (x.sched.count .get) x.finished k
  adds : x.sched.workerAddClocks.Follows (x.sched.count .add) x.finished k
  adds_eq : ∀ v, v ∉ x.finished → x.sched.count .add v = k
  gets_le : ∀ v, v ∉ x.finished → x.sched.count .get v ≤ k + 1
  no_gets : x.sched.msgGetCache = []
  waiting : ∀ m ∈ x.sched.msgAddCache, m.worker ∉ x.finished ∧ x.sched.count .get m.worker = k + 1

/-- The workers that stay have `k + 1` Gets answered each, and some of them their next Add applied. -/
structure AddPhase (x : TrainSystem K D) (k : ℕ) : Prop where
  gets : x.sched.workerGetClocks.Follows (x.sched.count .get) x.finished (k + 1)
  adds : x.sched.workerAddClocks.Follows (x.sched.count .add) x.finished k
  gets_eq : ∀ v, v ∉ x.finished → x.sched.count .get v = k + 1
  adds_le : ∀ v, v ∉ x.finished → x.sched.count .add v ≤ k + 1
  no_adds : x.sched.msgAddCache = []
  waiting : ∀ m ∈ x.sched.msgGetCache, m.worker ∉ x.finished ∧ x.sched.count .add m.worker = k + 1

/-- How many requests of a worker wait. -/
def waits (s : SyncScheduler K D) (v : Fin K) : ℕ :=
  s.msgAddCache.countP (fun m => m.worker = v) + s.msgGetCache.countP fun m => m.worker = v

structure TrainInv (T : Training K D) (x : TrainSystem K D) : Prop where
  numWaitedAdd : ∀ v, x.sched.numWaitedAdd v = x.sched.msgAddCache.countP fun m => m.worker = v
  sent_eq : ∀ v, x.sched.replies v + waits x.sched v = x.sent v
  one : ∀ v, waits x.sched v ≤ 1
  data : ∀ m ∈ x.sched.msgAddCache ++ x.sched.msgGetCache, m.data ≠ []
  sent_le : ∀ v, x.sent v ≤ 2 * T.rounds v
  phase : ∃ k, GetPhase x k ∨ AddPhase x k

theorem trainInv_start : TrainInv T (start K D) where
  numWaitedAdd _ := rfl
  sent_eq _ := rfl
  one _ := Nat.zero_le _
  data _ hm := nomatch hm
  sent_le _ := Nat.zero_le _
  phase := ⟨0, .inl ⟨follows_new, follows_new, fun _ _ => rfl, fun _ _ => Nat.zero_le _, rfl, fun _ hm => nomatch hm⟩⟩

theorem released_of_inv (h : TrainInv T x) : Released x := by
  obtain ⟨k, hk | hk⟩ := h.phase
  · refine ⟨fun m hm => ?_, fun m hm => ?_⟩
    · obtain ⟨hm, hget⟩ := hk.waiting m hm
      obtain ⟨v, hv, hvk⟩ := hk.gets.mem ⟨_, hm⟩
      exact ⟨hm, v, hv, by omega⟩
    · rw [hk.no_gets] at hm
      exact nomatch hm
  · refine ⟨fun m hm => ?_, fun m hm => ?_⟩
    · rw [hk.no_adds] at hm
      exact nomatch hm
    · obtain ⟨hm, hadd⟩ := hk.waiting m hm
      obtain ⟨v, hv, hvk⟩ := hk.adds.mem ⟨_, hm⟩
      exact ⟨hm, v, hv, by omega⟩

@[simp] theorem request_worker : (T.request w i).worker = w := rfl

theorem request_data : (T.request w i).data ≠ [] := by
  rw [request]
  cases roundOp i <;> simp [Payload.data]

/-- The scheduler that has answered a Get. -/
def afterGet (s : SyncScheduler K D) (m : Request K D) : SyncScheduler K D :=
  { s with
    workerGetClocks := (s.workerGetClocks.update m.worker).1
    served := s.served ++ [⟨.get, m⟩] }

/-- The scheduler that has applied an Add. -/
def afterAdd (s : SyncScheduler K D) (m : Request K D) : SyncScheduler K D :=
  { s with
    workerAddClocks := (s.workerAddClocks.update m.worker).1
    served := s.served ++ [⟨.add, m⟩] }

section Served

variable {s : SyncScheduler K D}

theorem count_get_afterGet : (afterGet s m).count .get = bump (s.count .get) m.worker := count_serve_self rfl rfl

theorem count_add_afterGet : (afterGet s m).count .add = s.count .add := count_serve_other (by decide) rfl rfl

theorem count_get_afterAdd : (afterAdd s m).count .get = s.count .get := count_serve_other (by decide) rfl rfl

theorem count_add_afterAdd : (afterAdd s m).count .add = bump (s.count .add) m.worker := count_serve_self rfl rfl

theorem bump_le_succ {n : Fin K → ℕ} (hw : n w = k) (hv : n v ≤ k + 1) : bump n w v ≤ k + 1 := by
  by_cases hvw : v = w
  · subst hvw
    rw [bump_self, hw]
  · rwa [bump_of_ne hvw]

/-- Each request of a cache is one call more of its worker. -/
theorem count_flush_self {t : SyncScheduler K D} {l : List (Request K D)} {o : Op}
    (ht : t.served = s.served ++ l.map (Call.mk o)) (v : Fin K) :
    t.count o v = s.count o v + l.countP fun m => m.worker = v := by
  rw [SyncScheduler.count, ht]
  simp [SyncScheduler.count, Function.comp_def]

variable {done : Finset (Fin K)} {u : Fin K}

/-- The waiting Adds are applied while worker `u` holds their round open, and the phase of Adds begins. -/
theorem addPhase_of_flushAdds (hu : u ∉ done) (huk : s.count .add u = k) (hg : (k : ℤ) < intMax)
    (hgets : s.workerGetClocks.Follows (s.count .get) done (k + 1))
    (hadds : s.workerAddClocks.Follows (s.count .add) done k)
    (hgets_eq : ∀ v, v ∉ done → s.count .get v = k + 1)
    (hle : ∀ v, v ∉ done → s.count .add v + (s.msgAddCache.countP fun m => m.worker = v) ≤ k + 1)
    (hno : s.msgGetCache = []) (hdata : ∀ m ∈ s.msgAddCache, m.data ≠ [])
    (hlive : ∀ m ∈ s.msgAddCache, m.worker ∉ done ∧ m.worker ≠ u) :
    ∃ t, flushAdds s.msgAddCache s = some t ∧ t.served = s.served ++ s.msgAddCache.map (Call.mk .add) ∧
      t.msgAddCache = [] ∧ t.msgGetCache = [] ∧
      (∀ v, t.numWaitedAdd v = s.numWaitedAdd v - s.msgAddCache.countP fun m => m.worker = v) ∧
      ∀ n, AddPhase ⟨t, n, done⟩ k := by
  obtain ⟨t, ht, hP, hserved, hta, htg, hclocks, hnum⟩ := flushAdds_spec (s := s) (l := s.msgAddCache)
    (P := fun c n => c.Follows n done k ∧ n u = k) ⟨hadds, huk⟩ hdata fun c n m hm hP => by
      obtain ⟨hlv, hne⟩ := hlive m hm
      obtain ⟨hopen, hf⟩ := hP.1.update_open hu hP.2 hlv hne.symm hg
      exact ⟨hopen, hf, by rw [bump_of_ne hne.symm, hP.2]⟩
  have htg' : t.msgGetCache = [] := htg.trans hno
  refine ⟨t, ht, hserved, hta, htg', hnum, fun n => ⟨?_, hP.1, fun v hv => ?_, fun v hv => ?_, hta, fun m hm => ?_⟩⟩
  · rw [hclocks, count_flush (by decide) hserved]
    exact hgets
  · dsimp only at hv ⊢
    rw [count_flush (by decide) hserved]
    exact hgets_eq v hv
  · dsimp only at hv ⊢
    rw [count_flush_self hserved]
    exact hle v hv
  · dsimp only at hm
    rw [htg'] at hm
    exact nomatch hm

/-- The waiting Gets are answered while worker `u` holds their round open, and the phase of Gets begins. -/
theorem getPhase_of_flushGets (hu : u ∉ done) (huk : s.count .get u = k)
    (hgets : s.workerGetClocks.Follows (s.count .get) done k)
    (hadds : s.workerAddClocks.Follows (s.count .add) done k)
    (hadds_eq : ∀ v, v ∉ done → s.count .add v = k)
    (hle : ∀ v, v ∉ done → s.count .get v + (s.msgGetCache.countP fun m => m.worker = v) ≤ k + 1)
    (hno : s.msgAddCache = []) (hdata : ∀ m ∈ s.msgGetCache, m.data ≠ [])
    (hlive : ∀ m ∈ s.msgGetCache, m.worker ∉ done ∧ m.worker ≠ u ∧ (k : ℤ) < intMax) :
    ∃ t, flushGets s.msgGetCache s = some t ∧ t.served = s.served ++ s.msgGetCache.map (Call.mk .get) ∧
      t.msgAddCache = [] ∧ t.msgGetCache = [] ∧ t.numWaitedAdd = s.numWaitedAdd ∧
      ∀ n, GetPhase ⟨t, n, done⟩ k := by
  obtain ⟨t, ht, hP, hserved, hta, htg, hclocks, hnum⟩ := flushGets_spec (s := s) (l := s.msgGetCache)
    (P := fun c n => c.Follows n done k ∧ n u = k) ⟨hgets, huk⟩ hdata fun c n m hm hP => by
      obtain ⟨hlv, hne, hg⟩ := hlive m hm
      obtain ⟨hopen, hf⟩ := hP.1.update_open hu hP.2 hlv hne.symm hg
      exact ⟨hopen, hf, by rw [bump_of_ne hne.symm, hP.2]⟩
  have hta' : t.msgAddCache = [] := hta.trans hno
  refine ⟨t, ht, hserved, hta', htg, hnum, fun n => ⟨hP.1, ?_, fun v hv => ?_, fun v hv => ?_, htg, fun m hm => ?_⟩⟩
  · rw [hclocks, count_flush (by decide) hserved]
    exact hadds
  · dsimp only at hv ⊢
    rw [count_flush (by decide) hserved]
    exact hadds_eq v hv
  · dsimp only at hv ⊢
    rw [count_flush_self hserved]
    exact hle v hv
  · dsimp only at hm
    rw [hta'] at hm
    exact nomatch hm

end Served

section Step

variable {t : SyncScheduler K D} (h : TrainInv T x)

include h

/-- The bookkeeping of a request that is served or joins a cache. -/
theorem TrainInv.request (hen : Enabled T x (.request w))
    (hnum : ∀ v, t.numWaitedAdd v = t.msgAddCache.countP fun m => m.worker = v)
    (hsent : ∀ v, t.replies v + waits t v = x.sched.replies v + waits x.sched v + if v = w then 1 else 0)
    (hone : ∀ v, waits t v ≤ waits x.sched v + if v = w then 1 else 0)
    (hdata : ∀ m ∈ t.msgAddCache ++ t.msgGetCache, m.data ≠ [])
    (hphase : ∃ k, GetPhase ⟨t, bump x.sent w, x.finished⟩ k ∨ AddPhase ⟨t, bump x.sent w, x.finished⟩ k) :
    TrainInv T ⟨t, bump x.sent w, x.finished⟩ := by
  obtain ⟨-, hidle, hlt⟩ := hen
  refine ⟨hnum, fun v => ?_, fun v => ?_, hdata, fun v => ?_, hphase⟩
  · have := hsent v
    have := h.sent_eq v
    by_cases hv : v = w
    · subst hv
      simp only [bump_self, if_true] at *
      omega
    · simp only [bump_of_ne hv, hv, if_false] at *
      omega
  · have := hone v
    have := h.one v
    have := h.sent_eq v
    by_cases hv : v = w
    · subst hv
      simp only [if_true] at *
      omega
    · simp only [hv, if_false] at *
      omega
  · by_cases hv : v = w
    · subst hv
      simp only [bump_self]
      omega
    · simpa [hv] using h.sent_le v

theorem TrainInv.not_waiting (hidle : x.sched.replies w = x.sent w) :
    (∀ m ∈ x.sched.msgAddCache, m.worker ≠ w) ∧ ∀ m ∈ x.sched.msgGetCache, m.worker ≠ w := by
  have hz : waits x.sched w = 0 := by
    have := h.sent_eq w
    omega
  rw [waits, Nat.add_eq_zero_iff, List.countP_eq_zero, List.countP_eq_zero] at hz
  simpa using hz

theorem TrainInv.countP_adds_le (v : Fin K) : (x.sched.msgAddCache.countP fun m => m.worker = v) ≤ 1 :=
  (Nat.le_add_right _ _).trans (h.one v)

theorem TrainInv.countP_gets_le (v : Fin K) : (x.sched.msgGetCache.countP fun m => m.worker = v) ≤ 1 :=
  (Nat.le_add_left _ _).trans (h.one v)

omit h in
/-- One call, and then each request of a cache. -/
theorem replies_append {s : SyncScheduler K D} {c : Call K D} {l : List (Request K D)} {o : Op}
    (hc : c.msg.worker = w) (ht : t.served = s.served ++ c :: l.map (Call.mk o)) (v : Fin K) :
    t.replies v = s.replies v + (if v = w then 1 else 0) + l.countP fun m => m.worker = v := by
  subst hc
  rw [replies, ht, replies, List.countP_append, List.countP_cons, List.countP_map]
  by_cases hv : v = c.msg.worker
  · simp only [hv, decide_true, if_true, Function.comp_def]
    omega
  · simp [hv, Ne.symm hv, Function.comp_def]

variable (hmax : ∀ w, (T.rounds w : ℤ) ≤ intMax) (hen : Enabled T x (.request w))

include hen

omit h in
theorem GetPhase.sent_eq (hk : GetPhase x k) (hget : x.sched.count .get w = k) : x.sent w = 2 * k := by
  rw [← hen.2.1, replies_eq, hget, hk.adds_eq w hen.1]
  omega

omit h in
theorem AddPhase.sent_eq (hk : AddPhase x k) (hadd : x.sched.count .add w = k) : x.sent w = 2 * k + 1 := by
  rw [← hen.2.1, replies_eq, hadd, hk.gets_eq w hen.1]
  omega

/-- The Get of a worker that is not ahead is answered at once. -/
theorem GetPhase.handle_get (hk : GetPhase x k) (hget : x.sched.count .get w = k) :
    T.handle x (.request w) =
      (if (x.sched.workerGetClocks.update w).2 then
        flushAdds x.sched.msgAddCache (afterGet x.sched (T.request w (x.sent w)))
      else some (afterGet x.sched (T.request w (x.sent w)))).map fun s => ⟨s, bump x.sent w, x.finished⟩ := by
  have hsent := hk.sent_eq hen hget
  have hpass : ¬ (x.sched.workerAddClocks.localClock w > x.sched.workerAddClocks.globalClock ∨
      x.sched.numWaitedAdd w > 0) := by
    rw [hk.adds.gt_iff hen.1, h.numWaitedAdd, hk.adds_eq w hen.1,
      List.countP_eq_zero.mpr (by simpa using (h.not_waiting hen.2.1).1)]
    simp
  rw [handle, hsent, roundOp, if_pos (by omega), process, ← hsent, processGet]
  simp only [request_worker, if_neg hpass, baseProcessGet, serve_eq request_data]
  rfl

omit h in
/-- The Add of a worker that is not ahead is applied at once. -/
theorem AddPhase.handle_add (hk : AddPhase x k) (hadd : x.sched.count .add w = k) :
    T.handle x (.request w) =
      (if (x.sched.workerAddClocks.update w).2 then
        flushGets x.sched.msgGetCache (afterAdd x.sched (T.request w (x.sent w)))
      else some (afterAdd x.sched (T.request w (x.sent w)))).map fun s => ⟨s, bump x.sent w, x.finished⟩ := by
  have hsent := hk.sent_eq hen hadd
  have hpass : ¬ x.sched.workerGetClocks.localClock w > x.sched.workerGetClocks.globalClock := by
    rw [hk.gets.gt_iff hen.1, hk.gets_eq w hen.1]
    exact lt_irrefl _
  have hempty : x.sched.msgAddCache.isEmpty = true := by
    rw [hk.no_adds]
    rfl
  rw [handle, hsent, roundOp, if_neg (by omega), process, ← hsent, processAdd]
  simp only [request_worker, if_neg hpass, baseProcessAdd, serve_eq request_data, hempty, if_true]
  rfl

include hmax

/-- A Get that leaves its round open. -/
theorem GetPhase.get_open (hk : GetPhase x k) (hget : x.sched.count .get w = k)
    (hopen : (x.sched.workerGetClocks.update w).2 = false) :
    TrainInv T ⟨afterGet x.sched (T.request w (x.sent w)), bump x.sent w, x.finished⟩ := by
  have hfree := h.not_waiting hen.2.1
  have hf := (hk.gets.update hen.1 hget (by have := hk.sent_eq hen hget; have := hmax w; have := hen.2.2; omega)
    hk.gets_le).2
  rw [hopen, if_neg Bool.false_ne_true] at hf
  refine h.request hen h.numWaitedAdd (fun v => ?_) (fun v => Nat.le_add_right _ _) h.data ⟨k, .inl ?_⟩
  · rw [replies_append (s := x.sched) (w := w) (l := []) (o := .add) rfl rfl]
    simp only [waits, afterGet, List.countP_nil]
    omega
  · refine ⟨?_, ?_, ?_, fun v hv => ?_, hk.no_gets, fun m hm => ?_⟩
    · rw [count_get_afterGet]
      exact hf
    · rw [count_add_afterGet]
      exact hk.adds
    · rw [count_add_afterGet]
      exact hk.adds_eq
    · rw [count_get_afterGet]
      exact bump_le_succ hget (hk.gets_le v hv)
    · rw [count_get_afterGet, request_worker, bump_of_ne (hfree.1 m hm)]
      exact hk.waiting m hm

/-- The Get that completes its round lets the waiting Adds through. -/
theorem GetPhase.get_complete (hk : GetPhase x k) (hget : x.sched.count .get w = k)
    (hfull : (x.sched.workerGetClocks.update w).2 = true) :
    ∃ t, flushAdds x.sched.msgAddCache (afterGet x.sched (T.request w (x.sent w))) = some t ∧
      TrainInv T ⟨t, bump x.sent w, x.finished⟩ := by
  have hg : (k : ℤ) < intMax := by
    have := hk.sent_eq hen hget
    have := hmax w
    have := hen.2.2
    omega
  obtain ⟨hiff, hf⟩ := hk.gets.update hen.1 hget hg hk.gets_le
  rw [hfull, if_pos rfl] at hf
  have hall := hiff.mp hfull
  obtain ⟨t, ht, hserved, hta, htg, hnum, hphase⟩ := addPhase_of_flushAdds
    (s := afterGet x.sched (T.request w (x.sent w))) (u := w) (k := k) hen.1
    (by rw [count_add_afterGet]; exact hk.adds_eq w hen.1) hg (by rw [count_get_afterGet]; exact hf)
    (by rw [count_add_afterGet]; exact hk.adds)
    (fun v hv => by
      rw [count_get_afterGet]
      exact le_antisymm (bump_le_succ hget (hk.gets_le v hv)) (hall v hv))
    (fun v hv => by
      rw [count_add_afterGet, hk.adds_eq v hv]
      exact Nat.add_le_add_left (h.countP_adds_le v) k)
    hk.no_gets (fun m hm => h.data m (List.mem_append_left _ hm))
    fun m hm => ⟨(hk.waiting m hm).1, (h.not_waiting hen.2.1).1 m hm⟩
  refine ⟨t, ht, h.request hen (fun v => ?_) (fun v => ?_) (fun v => ?_) ?_ ⟨k, .inr (hphase _)⟩⟩
  · rw [hnum, hta]
    exact sub_eq_zero.mpr (h.numWaitedAdd v)
  · rw [replies_append (s := x.sched) (w := w) (c := ⟨.get, T.request w (x.sent w)⟩) (l := x.sched.msgAddCache)
      (o := .add) rfl (by rw [hserved]; simp [afterGet])]
    simp only [waits, hta, htg, hk.no_gets, List.countP_nil]
    omega
  · simp only [waits, hta, htg, hk.no_gets, List.countP_nil]
    omega
  · rw [hta, htg]
    simp

theorem GetPhase.get (hk : GetPhase x k) (hget : x.sched.count .get w = k) :
    ∃ y, T.handle x (.request w) = some y ∧ TrainInv T y := by
  rw [hk.handle_get h hen hget]
  cases hfull : (x.sched.workerGetClocks.update w).2 with
  | false => exact ⟨_, rfl, hk.get_open h hmax hen hget hfull⟩
  | true =>
    obtain ⟨t, ht, hI⟩ := hk.get_complete h hmax hen hget hfull
    exact ⟨_, by rw [if_pos rfl, ht]; rfl, hI⟩

omit hmax in
/-- The Add of a worker that is ahead waits. -/
theorem GetPhase.add (hk : GetPhase x k) (hget : x.sched.count .get w = k + 1) :
    ∃ y, T.handle x (.request w) = some y ∧ TrainInv T y := by
  obtain ⟨hw, hidle, hlt⟩ := hen
  have hadd := hk.adds_eq w hw
  have hsent : x.sent w = 2 * k + 1 := by
    rw [← hidle, replies_eq, hget, hadd]
    omega
  have hwait : x.sched.workerGetClocks.localClock w > x.sched.workerGetClocks.globalClock := by
    rw [hk.gets.gt_iff hw, hget]
    exact Nat.lt_succ_self k
  refine ⟨⟨{ x.sched with
    msgAddCache := x.sched.msgAddCache ++ [T.request w (x.sent w)]
    numWaitedAdd := Function.update x.sched.numWaitedAdd w (x.sched.numWaitedAdd w + 1) }, bump x.sent w, x.finished⟩,
    ?_, h.request ⟨hw, hidle, hlt⟩ (fun v => ?_) (fun v => ?_) (fun v => ?_) (fun m hm => ?_) ⟨k, .inl ?_⟩⟩
  · rw [handle, hsent, roundOp, if_neg (by omega), process, ← hsent, processAdd]
    exact congrArg (Option.map _) (if_pos hwait)
  · have hv := h.numWaitedAdd v
    by_cases hvw : v = w
    · subst hvw
      simp [hv]
    · simp [hv, hvw, Ne.symm hvw]
  · by_cases hvw : v = w
    · subst hvw
      simp only [waits, SyncScheduler.replies, List.countP_append, List.countP_singleton, request_worker, decide_true,
        if_true]
      omega
    · simp [waits, SyncScheduler.replies, hvw, Ne.symm hvw]
  · by_cases hvw : v = w
    · subst hvw
      simp only [waits, List.countP_append, List.countP_singleton, request_worker, decide_true, if_true]
      omega
    · simp [waits, hvw, Ne.symm hvw]
  · dsimp only at hm
    rw [hk.no_gets, List.append_nil, List.mem_append, List.mem_singleton] at hm
    rcases hm with hm | rfl
    · exact h.data m (List.mem_append_left _ hm)
    · exact request_data
  · refine ⟨hk.gets, hk.adds, hk.adds_eq, hk.gets_le, hk.no_gets, fun m hm => ?_⟩
    dsimp only at hm
    rw [List.mem_append, List.mem_singleton] at hm
    rcases hm with hm | rfl
    · exact hk.waiting m hm
    · exact ⟨hw, hget⟩

omit hmax in
/-- The Get of a worker that is ahead waits. -/
theorem AddPhase.get (hk : AddPhase x k) (hadd : x.sched.count .add w = k + 1) :
    ∃ y, T.handle x (.request w) = some y ∧ TrainInv T y := by
  obtain ⟨hw, hidle, hlt⟩ := hen
  have hget := hk.gets_eq w hw
  have hsent : x.sent w = 2 * (k + 1) := by
    rw [← hidle, replies_eq, hget, hadd]
    omega
  have hwait : x.sched.workerAddClocks.localClock w > x.sched.workerAddClocks.globalClock ∨
      x.sched.numWaitedAdd w > 0 := by
    left
    rw [hk.adds.gt_iff hw, hadd]
    exact Nat.lt_succ_self k
  refine ⟨⟨{ x.sched with msgGetCache := x.sched.msgGetCache ++ [T.request w (x.sent w)] }, bump x.sent w, x.finished⟩,
    ?_, h.request ⟨hw, hidle, hlt⟩ h.numWaitedAdd (fun v => ?_) (fun v => ?_) (fun m hm => ?_) ⟨k, .inr ?_⟩⟩
  · rw [handle, hsent, roundOp, if_pos (by omega), process, ← hsent, processGet]
    exact congrArg (Option.map _) (if_pos hwait)
  · by_cases hvw : v = w
    · subst hvw
      simp only [waits, SyncScheduler.replies, List.countP_append, List.countP_singleton, request_worker, decide_true,
        if_true]
      omega
    · simp [waits, SyncScheduler.replies, hvw, Ne.symm hvw]
  · by_cases hvw : v = w
    · subst hvw
      simp only [waits, List.countP_append, List.countP_singleton, request_worker, decide_true, if_true]
      omega
    · simp [waits, hvw, Ne.symm hvw]
  · dsimp only at hm
    rw [hk.no_adds, List.nil_append, List.mem_append, List.mem_singleton] at hm
    rcases hm with hm | rfl
    · exact h.data m (List.mem_append_right _ hm)
    · exact request_data
  · refine ⟨hk.gets, hk.adds, hk.gets_eq, hk.adds_le, hk.no_adds, fun m hm => ?_⟩
    dsimp only at hm
    rw [List.mem_append, List.mem_singleton] at hm
    rcases hm with hm | rfl
    · exact hk.waiting m hm
    · exact ⟨hw, hadd⟩

/-- An Add that leaves its round open. -/
theorem AddPhase.add_open (hk : AddPhase x k) (hadd : x.sched.count .add w = k)
    (hopen : (x.sched.workerAddClocks.update w).2 = false) :
    TrainInv T ⟨afterAdd x.sched (T.request w (x.sent w)), bump x.sent w, x.finished⟩ := by
  have hfree := h.not_waiting hen.2.1
  have hf := (hk.adds.update hen.1 hadd (by have := hk.sent_eq hen hadd; have := hmax w; have := hen.2.2; omega)
    hk.adds_le).2
  rw [hopen, if_neg Bool.false_ne_true] at hf
  refine h.request hen h.numWaitedAdd (fun v => ?_) (fun v => Nat.le_add_right _ _) h.data ⟨k, .inr ?_⟩
  · rw [replies_append (s := x.sched) (w := w) (l := []) (o := .add) rfl rfl]
    simp only [waits, afterAdd, List.countP_nil]
    omega
  · refine ⟨?_, ?_, ?_, fun v hv => ?_, hk.no_adds, fun m hm => ?_⟩
    · rw [count_get_afterAdd]
      exact hk.gets
    · rw [count_add_afterAdd]
      exact hf
    · rw [count_get_afterAdd]
      exact hk.gets_eq
    · rw [count_add_afterAdd]
      exact bump_le_succ hadd (hk.adds_le v hv)
    · rw [count_add_afterAdd, request_worker, bump_of_ne (hfree.2 m hm)]
      exact hk.waiting m hm

omit hen in
/-- A Get that waits is not the last one a worker may make. -/
theorem AddPhase.lt_intMax (hk : AddPhase x k) {m : Request K D} (hm : m ∈ x.sched.msgGetCache) :
    ((k + 1 : ℕ) : ℤ) < intMax := by
  obtain ⟨hlive, hadd⟩ := hk.waiting m hm
  have hpos : 0 < waits x.sched m.worker :=
    Nat.add_pos_right _ (List.countP_pos_iff.mpr ⟨m, hm, by simp⟩)
  have := h.sent_eq m.worker
  have := h.sent_le m.worker
  have := hmax m.worker
  rw [replies_eq, hk.gets_eq _ hlive, hadd] at *
  omega

/-- The Add that completes its round lets the waiting Gets through. -/
theorem AddPhase.add_complete (hk : AddPhase x k) (hadd : x.sched.count .add w = k)
    (hfull : (x.sched.workerAddClocks.update w).2 = true) :
    ∃ t, flushGets x.sched.msgGetCache (afterAdd x.sched (T.request w (x.sent w))) = some t ∧
      TrainInv T ⟨t, bump x.sent w, x.finished⟩ := by
  have hg : (k : ℤ) < intMax := by
    have := hk.sent_eq hen hadd
    have := hmax w
    have := hen.2.2
    omega
  obtain ⟨hiff, hf⟩ := hk.adds.update hen.1 hadd hg hk.adds_le
  rw [hfull, if_pos rfl] at hf
  have hall := hiff.mp hfull
  obtain ⟨t, ht, hserved, hta, htg, hnum, hphase⟩ := getPhase_of_flushGets
    (s := afterAdd x.sched (T.request w (x.sent w))) (u := w) (k := k + 1) hen.1
    (by rw [count_get_afterAdd]; exact hk.gets_eq w hen.1) (by rw [count_get_afterAdd]; exact hk.gets)
    (by rw [count_add_afterAdd]; exact hf)
    (fun v hv => by
      rw [count_add_afterAdd]
      exact le_antisymm (bump_le_succ hadd (hk.adds_le v hv)) (hall v hv))
    (fun v hv => by
      rw [count_get_afterAdd, hk.gets_eq v hv]
      exact Nat.add_le_add_left (h.countP_gets_le v) (k + 1))
    hk.no_adds (fun m hm => h.data m (List.mem_append_right _ hm))
    fun m hm => ⟨(hk.waiting m hm).1, (h.not_waiting hen.2.1).2 m hm, hk.lt_intMax h hmax hm⟩
  refine ⟨t, ht, h.request hen (fun v => ?_) (fun v => ?_) (fun v => ?_) ?_ ⟨k + 1, .inl (hphase _)⟩⟩
  · rw [hnum, hta]
    exact (h.numWaitedAdd v).trans (by rw [hk.no_adds])
  · rw [replies_append (s := x.sched) (w := w) (c := ⟨.add, T.request w (x.sent w)⟩) (l := x.sched.msgGetCache)
      (o := .get) rfl (by rw [hserved]; simp [afterAdd])]
    simp only [waits, hta, htg, hk.no_adds, List.countP_nil]
    omega
  · simp only [waits, hta, htg, hk.no_adds, List.countP_nil]
    omega
  · rw [hta, htg]
    simp

theorem AddPhase.add (hk : AddPhase x k) (hadd : x.sched.count .add w = k) :
    ∃ y, T.handle x (.request w) = some y ∧ TrainInv T y := by
  rw [hk.handle_add hen hadd]
  cases hfull : (x.sched.workerAddClocks.update w).2 with
  | false => exact ⟨_, rfl, hk.add_open h hmax hen hadd hfull⟩
  | true =>
    obtain ⟨t, ht, hI⟩ := hk.add_complete h hmax hen hadd hfull
    exact ⟨_, by rw [if_pos rfl, ht]; rfl, hI⟩

/-- No request of a worker that still takes part fails a CHECK. -/
theorem TrainInv.handle_request : ∃ y, T.handle x (.request w) = some y ∧ TrainInv T y := by
  have hw := hen.1
  obtain ⟨k, hk | hk⟩ := h.phase
  · rcases Nat.lt_or_ge k (x.sched.count .get w) with hlt | hge
    · exact hk.add h hen (le_antisymm (hk.gets_le w hw) hlt)
    · exact hk.get h hmax hen (le_antisymm hge (hk.gets.le w hw))
  · rcases Nat.lt_or_ge k (x.sched.count .add w) with hlt | hge
    · exact hk.get h hen (le_antisymm (hk.adds_le w hw) hlt)
    · exact hk.add h hmax hen (le_antisymm hge (hk.adds.le w hw))

end Step

section Finish

variable {s : SyncScheduler K D} (h : TrainInv T x) (hen : Enabled T x (.finish w))

/-- The scheduler when both clocks know that the worker has left. -/
def left (s : SyncScheduler K D) (w : Fin K) : SyncScheduler K D :=
  { s with
    workerAddClocks := (s.workerAddClocks.finishTrain w).1
    workerGetClocks := (s.workerGetClocks.finishTrain w).1 }

theorem processFinishTrain_of_empty (ha : s.msgAddCache = []) (hg : s.msgGetCache = []) :
    s.processFinishTrain m = some (left s m.worker) := by
  obtain ⟨gets, adds, num, addCache, getCache, served⟩ := s
  obtain rfl : addCache = [] := ha
  obtain rfl : getCache = [] := hg
  simp only [processFinishTrain, left]
  split <;> simp [flushGets, flushAdds]

/-- The worker did not hold up an Add round, so only a Get round can end now. -/
theorem processFinishTrain_of_open (hopen : (s.workerAddClocks.finishTrain m.worker).2 = false) :
    s.processFinishTrain m = if (s.workerGetClocks.finishTrain m.worker).2 then
        if s.msgGetCache.isEmpty then flushAdds s.msgAddCache (left s m.worker) else none
      else some (left s m.worker) := by
  simp only [processFinishTrain, hopen]
  rfl

/-- When the cached Adds are all that is missing from an Add round, the last of them fails the CHECK. -/
theorem flushAdds_none {done : Finset (Fin K)} {ms : List (Request K D)} (hg : (k : ℤ) < intMax)
    (hf : s.workerAddClocks.Follows (s.count .add) done k) (hd : ∀ m ∈ ms, m.data ≠ [])
    (hlive : ∀ m ∈ ms, m.worker ∉ done)
    (hall : ∀ v, v ∉ done → s.count .add v + ms.countP (fun m => m.worker = v) = k + 1) (hne : ms ≠ []) :
    flushAdds ms s = none := by
  induction ms generalizing s with
  | nil => exact absurd rfl hne
  | cons m ms ih =>
    simp only [List.forall_mem_cons] at hd hlive
    have hm := hall m.worker hlive.1
    rw [List.countP_cons, decide_eq_true rfl, if_pos rfl] at hm
    have hle := hf.le m.worker hlive.1
    obtain ⟨hiff, hf'⟩ := hf.update hlive.1 (by omega) hg fun v hv => (Nat.le_add_right _ _).trans (hall v hv).le
    have hrest : ∀ v, v ∉ done → bump (s.count .add) m.worker v + ms.countP (fun m => m.worker = v) = k + 1 := by
      intro v hv
      have hv' := hall v hv
      by_cases hvm : v = m.worker
      · subst hvm
        rw [bump_self]
        omega
      · rw [List.countP_cons_of_neg (by simpa using Ne.symm hvm)] at hv'
        rwa [bump_of_ne hvm]
    simp only [flushAdds, baseProcessAdd, serve_eq hd.1]
    cases hfull : (s.workerAddClocks.update m.worker).2 with
    | true => rfl
    | false =>
      rw [hfull, if_neg Bool.false_ne_true] at hf'
      set t : SyncScheduler K D := { s with
        workerAddClocks := (s.workerAddClocks.update m.worker).1
        numWaitedAdd := Function.update s.numWaitedAdd m.worker (s.numWaitedAdd m.worker - 1)
        msgAddCache := ms
        served := s.served ++ [⟨.add, m⟩] } with ht
      have hcount : t.count .add = bump (s.count .add) m.worker := count_serve_self rfl rfl
      refine ih (s := t) (by rw [hcount]; exact hf') hd.2 hlive.2 (by rwa [hcount]) ?_
      rintro rfl
      rw [← Bool.not_eq_true, hiff] at hfull
      refine hfull fun v hv => ?_
      have := hrest v hv
      rw [List.countP_nil] at this
      omega

include h

/-- The bookkeeping of a worker that leaves. -/
theorem TrainInv.finish {t : SyncScheduler K D}
    (hnum : ∀ v, t.numWaitedAdd v = t.msgAddCache.countP fun m => m.worker = v)
    (hsent : ∀ v, t.replies v + waits t v = x.sched.replies v + waits x.sched v)
    (hone : ∀ v, waits t v ≤ waits x.sched v) (hdata : ∀ m ∈ t.msgAddCache ++ t.msgGetCache, m.data ≠ [])
    (hphase : ∃ k, GetPhase ⟨t, x.sent, insert w x.finished⟩ k ∨ AddPhase ⟨t, x.sent, insert w x.finished⟩ k) :
    TrainInv T ⟨t, x.sent, insert w x.finished⟩ :=
  ⟨hnum, fun v => (hsent v).trans (h.sent_eq v), fun v => (hone v).trans (h.one v), hdata, h.sent_le, hphase⟩

theorem TrainInv.left (hphase : ∃ k, GetPhase ⟨left x.sched w, x.sent, insert w x.finished⟩ k ∨
    AddPhase ⟨left x.sched w, x.sent, insert w x.finished⟩ k) :
    TrainInv T ⟨left x.sched w, x.sent, insert w x.finished⟩ :=
  h.finish h.numWaitedAdd (fun _ => rfl) (fun _ => le_rfl) h.data hphase

omit h in
theorem GetPhase.count_add_le (hk : GetPhase x k) (hv : v ∉ x.finished) : x.sched.count .add v ≤ x.sched.count .get v :=
  (hk.adds_eq v hv).le.trans (hk.gets.le v hv)

omit h in
theorem GetPhase.count_get_le (hk : GetPhase x k) (hv : v ∉ x.finished) :
    x.sched.count .get v ≤ x.sched.count .add v + 1 :=
  (hk.gets_le v hv).trans (Nat.succ_le_succ (hk.adds_eq v hv).ge)

omit h in
theorem not_mem_of_insert (hv : v ∉ insert w x.finished) : v ∉ x.finished :=
  fun hvd => hv (Finset.mem_insert_of_mem hvd)

omit h in
include hen in
/-- A worker that leaves has as many Adds applied as Gets answered. -/
theorem count_add_eq_count_get (hle : x.sched.count .add w ≤ x.sched.count .get w)
    (hge : x.sched.count .get w ≤ x.sched.count .add w + 1) : x.sched.count .add w = x.sched.count .get w := by
  obtain ⟨-, hidle, hend⟩ := hen
  rw [replies_eq, hend] at hidle
  omega

variable (hmax : ∀ w, (T.rounds w : ℤ) ≤ intMax)
include hmax

theorem TrainInv.count_le {v : Fin K} (hle : x.sched.count .add v ≤ x.sched.count .get v)
    (hge : x.sched.count .get v ≤ x.sched.count .add v + 1) :
    (x.sched.count .get v : ℤ) ≤ intMax ∧ (x.sched.count .add v : ℤ) ≤ intMax := by
  have := h.sent_eq v
  have := h.sent_le v
  have := hmax v
  rw [replies_eq] at *
  omega

include hen

/-- Each worker that stays misses its Add, so no round of Adds ends when another one leaves. -/
theorem GetPhase.adds_left (hk : GetPhase x k) :
    (left x.sched w).workerAddClocks.Follows (x.sched.count .add) (insert w x.finished)
        (if (x.sched.workerAddClocks.finishTrain w).2 then k + 1 else k) ∧
      ((∃ v, v ∉ insert w x.finished) → (x.sched.workerAddClocks.finishTrain w).2 = false) := by
  obtain ⟨hfull, hadds⟩ := hk.adds.finishTrain hen.1
    (fun v hv => (h.count_le hmax (hk.count_add_le hv) (hk.count_get_le hv)).2) fun v hv => by
      rw [hk.adds_eq v hv]
      exact Nat.le_succ k
  refine ⟨hadds, ?_⟩
  rintro ⟨v, hv⟩
  rw [← Bool.not_eq_true, hfull]
  intro hall
  have := hall.2 v hv
  rw [hk.adds_eq v (not_mem_of_insert hv)] at this
  exact lt_irrefl k this

theorem GetPhase.gets_left (hk : GetPhase x k) :
    ((x.sched.workerGetClocks.finishTrain w).2 = true ↔
        (k : ℤ) < intMax ∧ ∀ v, v ∉ insert w x.finished → k < x.sched.count .get v) ∧
      (left x.sched w).workerGetClocks.Follows (x.sched.count .get) (insert w x.finished)
        (if (x.sched.workerGetClocks.finishTrain w).2 then k + 1 else k) :=
  hk.gets.finishTrain hen.1 (fun _ hv => (h.count_le hmax (hk.count_add_le hv) (hk.count_get_le hv)).1) hk.gets_le

omit hmax in
/-- No Add that waits is one of a worker that has left. -/
theorem GetPhase.not_left (hk : GetPhase x k) {m : Request K D} (hm : m ∈ x.sched.msgAddCache) :
    m.worker ∉ insert w x.finished := by
  rw [Finset.mem_insert, not_or]
  exact ⟨(h.not_waiting hen.2.1).1 m hm, (hk.waiting m hm).1⟩

/-- The last worker leaves nothing behind that waits. -/
theorem GetPhase.finish_last (hk : GetPhase x k) (hall : ∀ v, v ∈ insert w x.finished) :
    ∃ y, T.handle x (.finish w) = some y ∧ TrainInv T y := by
  have hnone : x.sched.msgAddCache = [] := by
    rw [List.eq_nil_iff_forall_not_mem]
    exact fun m hm => hk.not_left h hen hm (hall m.worker)
  refine ⟨_, by rw [handle, processFinishTrain_of_empty hnone hk.no_gets]; rfl, h.left ⟨k, .inl ?_⟩⟩
  refine ⟨.of_all (hk.gets_left h hen hmax).2.localClock hall, .of_all (hk.adds_left h hen hmax).1.localClock hall,
    fun v hv => absurd (hall v) hv, fun v hv => absurd (hall v) hv, hk.no_gets, fun m hm => ?_⟩
  exact absurd hm (by simp [Training.left, hnone])

/-- While workers stay, only a round of Gets can end. -/
theorem GetPhase.handle_finish (hk : GetPhase x k) (hstay : ∃ v, v ∉ insert w x.finished) :
    T.handle x (.finish w) = (if (x.sched.workerGetClocks.finishTrain w).2 then
        flushAdds x.sched.msgAddCache (Training.left x.sched w) else some (Training.left x.sched w)).map
          fun s => ⟨s, x.sent, insert w x.finished⟩ := by
  rw [handle, processFinishTrain_of_open (s := x.sched) (m := ⟨w, x.sent w, []⟩)
    ((hk.adds_left h hen hmax).2 hstay), hk.no_gets, List.isEmpty_nil, if_pos rfl]

/-- A worker that stays and has not made its Get has no Add that waits. -/
theorem GetPhase.finish_open (hk : GetPhase x k) (hstay : ∃ v, v ∉ insert w x.finished)
    (hopen : (x.sched.workerGetClocks.finishTrain w).2 = false) :
    Spared x (.finish w) ∧ TrainInv T ⟨Training.left x.sched w, x.sent, insert w x.finished⟩ := by
  have hadds := (hk.adds_left h hen hmax).1
  have hgets := (hk.gets_left h hen hmax).2
  rw [(hk.adds_left h hen hmax).2 hstay, if_neg Bool.false_ne_true] at hadds
  rw [hopen, if_neg Bool.false_ne_true] at hgets
  constructor
  · obtain ⟨v, hv, hvk⟩ := hgets.mem hstay
    refine .inr ⟨v, hv, fun m hm hmv => ?_⟩
    have := (hk.waiting m hm).2
    rw [hmv] at this
    omega
  · exact h.left ⟨k, .inl ⟨hgets, hadds, fun v hv => hk.adds_eq v (not_mem_of_insert hv),
      fun v hv => hk.gets_le v (not_mem_of_insert hv), hk.no_gets,
      fun m hm => ⟨hk.not_left h hen hm, (hk.waiting m hm).2⟩⟩⟩

/-- The round of Gets ends, and a worker that stays holds up the round of the Adds that waited. -/
theorem GetPhase.finish_drained (hk : GetPhase x k) {u : Fin K} (hu : u ∉ insert w x.finished)
    (hno : ∀ m ∈ x.sched.msgAddCache, m.worker ≠ u) (hfull : (x.sched.workerGetClocks.finishTrain w).2 = true) :
    ∃ t, flushAdds x.sched.msgAddCache (Training.left x.sched w) = some t ∧
      TrainInv T ⟨t, x.sent, insert w x.finished⟩ := by
  have hadds := (hk.adds_left h hen hmax).1
  obtain ⟨hiff, hgets⟩ := hk.gets_left h hen hmax
  rw [(hk.adds_left h hen hmax).2 ⟨u, hu⟩, if_neg Bool.false_ne_true] at hadds
  rw [hfull, if_pos rfl] at hgets
  obtain ⟨hg, hahead⟩ := hiff.mp hfull
  obtain ⟨t, ht, hserved, hta, htg, hnum, hphase⟩ := addPhase_of_flushAdds (s := Training.left x.sched w)
    (u := u) (k := k) hu (hk.adds_eq u (not_mem_of_insert hu)) hg hgets hadds
    (fun v hv => le_antisymm (hk.gets_le v (not_mem_of_insert hv)) (hahead v hv))
    (fun v hv => Nat.add_le_add (hk.adds_eq v (not_mem_of_insert hv)).le (h.countP_adds_le v)) hk.no_gets
    (fun m hm => h.data m (List.mem_append_left _ hm)) fun m hm => ⟨hk.not_left h hen hm, hno m hm⟩
  refine ⟨t, ht, h.finish (fun v => ?_) (fun v => ?_) (fun v => ?_) ?_ ⟨k, .inr (hphase _)⟩⟩
  · rw [hnum, hta]
    exact sub_eq_zero.mpr (h.numWaitedAdd v)
  · simp only [waits, hta, htg, SyncScheduler.replies, hserved, Training.left, hk.no_gets, List.countP_append,
      List.countP_map, List.countP_nil, Function.comp_def]
    omega
  · simp only [waits, hta, htg, List.countP_nil]
    omega
  · rw [hta, htg]
    simp

/-- When each worker that stays has an Add that waits, the last of these ends a round inside the flush. -/
theorem GetPhase.finish_stuck (hk : GetPhase x k) (hstay : ∃ v, v ∉ insert w x.finished)
    (hs : ¬ Spared x (.finish w)) (hfull : (x.sched.workerGetClocks.finishTrain w).2 = true) :
    flushAdds x.sched.msgAddCache (Training.left x.sched w) = none := by
  have hadds := (hk.adds_left h hen hmax).1
  rw [(hk.adds_left h hen hmax).2 hstay, if_neg Bool.false_ne_true] at hadds
  have hg := ((hk.gets_left h hen hmax).1.mp hfull).1
  rw [Spared, not_or] at hs
  obtain ⟨-, hs⟩ := hs
  push Not at hs
  have hadd : ∀ v, v ∉ insert w x.finished →
      x.sched.count .add v + x.sched.msgAddCache.countP (fun m => m.worker = v) = k + 1 := by
    intro v hv
    obtain ⟨m, hm, hmv⟩ := hs v hv
    have hpos : 0 < x.sched.msgAddCache.countP fun m => m.worker = v :=
      List.countP_pos_iff.mpr ⟨m, hm, by simpa using hmv⟩
    have := h.countP_adds_le v
    rw [hk.adds_eq v (not_mem_of_insert hv)]
    omega
  obtain ⟨v, hv⟩ := hstay
  obtain ⟨m, hm, -⟩ := hs v hv
  exact flushAdds_none (s := Training.left x.sched w) hg hadds
    (fun m hm => h.data m (List.mem_append_left _ hm)) (fun m hm => hk.not_left h hen hm) hadd
    (List.ne_nil_of_mem hm)

theorem GetPhase.finish (hk : GetPhase x k) :
    (Spared x (.finish w) → ∃ y, T.handle x (.finish w) = some y ∧ TrainInv T y) ∧
      (¬ Spared x (.finish w) → T.handle x (.finish w) = none) := by
  by_cases hall : ∀ v, v ∈ insert w x.finished
  · exact ⟨fun _ => hk.finish_last h hen hmax hall, fun hs => absurd (.inl hall) hs⟩
  · have hstay : ∃ v, v ∉ insert w x.finished := not_forall.mp hall
    rw [hk.handle_finish h hen hmax hstay]
    cases hfull : (x.sched.workerGetClocks.finishTrain w).2 with
    | false =>
      obtain ⟨hs, hI⟩ := hk.finish_open h hen hmax hstay hfull
      exact ⟨fun _ => ⟨_, rfl, hI⟩, fun hns => absurd hs hns⟩
    | true =>
      refine ⟨fun hs => ?_, fun hs => ?_⟩
      · obtain ⟨u, hu, hno⟩ := hs.resolve_left hall
        obtain ⟨t, ht, hI⟩ := hk.finish_drained h hen hmax hu hno hfull
        exact ⟨_, by rw [if_pos rfl, ht]; rfl, hI⟩
      · rw [if_pos rfl, hk.finish_stuck h hen hmax hstay hs hfull]
        rfl

/-- A worker that leaves while others still miss an Add holds up no one. -/
theorem AddPhase.finish (hk : AddPhase x k) :
    Spared x (.finish w) ∧ ∃ y, T.handle x (.finish w) = some y ∧ TrainInv T y := by
  have hw := hen.1
  have hrange : ∀ v, v ∉ x.finished → k ≤ x.sched.count .add v ∧ x.sched.count .add v ≤ k + 1 := fun v hv =>
    ⟨hk.adds.le v hv, hk.adds_le v hv⟩
  have hle : ∀ v, v ∉ x.finished → (x.sched.count .get v : ℤ) ≤ intMax ∧ (x.sched.count .add v : ℤ) ≤ intMax := by
    intro v hv
    have := hrange v hv
    exact h.count_le hmax (by rw [hk.gets_eq v hv]; omega) (by rw [hk.gets_eq v hv]; omega)
  have hadd : x.sched.count .add w = k + 1 := by
    have := hrange w hw
    rw [← hk.gets_eq w hw]
    exact count_add_eq_count_get hen (by rw [hk.gets_eq w hw]; omega) (by rw [hk.gets_eq w hw]; omega)
  obtain ⟨u, hu, huk⟩ := hk.adds.mem ⟨w, hw⟩
  have hu' : u ∉ insert w x.finished := by
    rw [Finset.mem_insert, not_or]
    refine ⟨?_, hu⟩
    rintro rfl
    omega
  obtain ⟨haddFull, hadds⟩ := hk.adds.finishTrain hw (fun v hv => (hle v hv).2) hk.adds_le
  obtain ⟨hgetFull, hgets⟩ := hk.gets.finishTrain hw (fun v hv => (hle v hv).1) fun v hv => by
    rw [hk.gets_eq v hv]
    exact Nat.le_succ _
  have haddOpen : (x.sched.workerAddClocks.finishTrain w).2 = false := by
    rw [← Bool.not_eq_true, haddFull]
    exact fun hall => absurd (hall.2 u hu') (by omega)
  have hgetOpen : (x.sched.workerGetClocks.finishTrain w).2 = false := by
    rw [← Bool.not_eq_true, hgetFull]
    exact fun hall => absurd (hall.2 u hu') (by rw [hk.gets_eq u hu]; exact lt_irrefl _)
  rw [haddOpen, if_neg Bool.false_ne_true] at hadds
  rw [hgetOpen, if_neg Bool.false_ne_true] at hgets
  refine ⟨.inr ⟨u, hu', by rw [hk.no_adds]; exact fun m hm => nomatch hm⟩, _, ?_,
    h.left (w := w) ⟨k, .inr ?_⟩⟩
  · rw [handle, processFinishTrain_of_open (s := x.sched) (m := ⟨w, x.sent w, []⟩) haddOpen]
    dsimp only
    rw [hgetOpen, if_neg Bool.false_ne_true]
    rfl
  · refine ⟨hgets, hadds, fun v hv => hk.gets_eq v (not_mem_of_insert hv),
      fun v hv => hk.adds_le v (not_mem_of_insert hv), hk.no_adds,
      fun m hm => ⟨fun hmd => ?_, (hk.waiting m hm).2⟩⟩
    exact (Finset.mem_insert.mp hmd).elim ((h.not_waiting hen.2.1).2 m hm) (hk.waiting m hm).1

/-- The server outlives a worker that leaves exactly if the worker is spared. -/
theorem TrainInv.handle_finish : (Spared x (.finish w) → ∃ y, T.handle x (.finish w) = some y ∧ TrainInv T y) ∧
    (¬ Spared x (.finish w) → T.handle x (.finish w) = none) := by
  obtain ⟨k, hk | hk⟩ := h.phase
  · exact hk.finish h hen hmax
  · obtain ⟨hs, hy⟩ := hk.finish h hen hmax
    exact ⟨fun _ => hy, fun hns => absurd hs hns⟩

end Finish

theorem trainInv_of_reachable (hmax : ∀ w, (T.rounds w : ℤ) ≤ intMax)
    (h : TransitionSystem.Reachable T.sparedStep (start K D) x) : TrainInv T x := by
  refine h.invariant trainInv_start fun x a y hI hs => ?_
  unfold sparedStep step at hs
  split at hs
  · rename_i hspared
    split at hs
    · rename_i hen
      cases a with
      | request w =>
        obtain ⟨y', hy', hI'⟩ := hI.handle_request hmax hen
        rw [hy'] at hs
        exact Option.some.inj hs ▸ hI'
      | finish w =>
        obtain ⟨y', hy', hI'⟩ := (hI.handle_finish hen hmax).1 hspared
        rw [hy'] at hs
        exact Option.some.inj hs ▸ hI'
    · cases hs
  · cases hs

/-- In a run whose finishing workers were all spared, what arrives next fails a CHECK exactly if it is a worker
that leaves and is not spared, and whatever waits does so for a worker that still takes part. -/
theorem handled_iff_spared (hmax : ∀ w, (T.rounds w : ℤ) ≤ intMax)
    (h : TransitionSystem.Reachable T.sparedStep (start K D) x) :
    (∀ a, Enabled T x a → ((∃ y, T.handle x a = some y) ↔ Spared x a)) ∧ Released x := by
  have hI := trainInv_of_reachable hmax h
  refine ⟨fun a hen => ?_, released_of_inv hI⟩
  cases a with
  | request w =>
    obtain ⟨y, hy, -⟩ := hI.handle_request hmax hen
    exact ⟨fun _ => trivial, fun _ => ⟨y, hy⟩⟩
  | finish w =>
    obtain ⟨hsome, hnone⟩ := hI.handle_finish hen hmax
    refine ⟨fun ⟨y, hy⟩ => ?_, fun hs => (hsome hs).imp fun _ => And.left⟩
    by_contra hs
    rw [hnone hs] at hy
    cases hy

open TwoParties in
/-- One worker runs a single round and the other one two. -/
def shortAndLong : Training 2 ℕ where
  rounds w := if w = 0 then 1 else 2
  payload _ _ := ⟨0, 0, none⟩

/-- The first worker leaves before the second one is ahead. -/
theorem handled_iff_spared_two : ∃ x, x.finished = {0} ∧
    (∀ a, Enabled shortAndLong x a → ((∃ y, shortAndLong.handle x a = some y) ↔ Spared x a)) ∧ Released x := by
  have hx : TransitionSystem.Reachable shortAndLong.sparedStep (start 2 ℕ)
      ((TransitionSystem.exec shortAndLong.sparedStep (start 2 ℕ)
        [.request 0, .request 1, .request 0, .request 1, .finish 0]).getD (start 2 ℕ)) :=
    ⟨[.request 0, .request 1, .request 0, .request 1, .finish 0], by rfl⟩
  exact ⟨_, by rfl, handled_iff_spared (by decide) hx⟩

/-- The first worker leaves while the second one's Add waits for it, and the server is killed. -/
theorem finish_kills_server : ∃ x, TransitionSystem.Reachable shortAndLong.step (start 2 ℕ) x ∧
    Enabled shortAndLong x (.finish 0) ∧ shortAndLong.handle x (.finish 0) = none := by
  have hx : TransitionSystem.Reachable shortAndLong.step (start 2 ℕ)
      ((TransitionSystem.exec shortAndLong.step (start 2 ℕ)
        [.request 0, .request 1, .request 0, .request 1, .request 1, .request 1]).getD (start 2 ℕ)) :=
    ⟨[.request 0, .request 1, .request 0, .request 1, .request 1, .request 1], by rfl⟩
  exact ⟨_, hx, by decide +kernel, by rfl⟩

end Training

end Hpps.Scheduler

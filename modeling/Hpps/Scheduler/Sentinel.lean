import Hpps.Scheduler.Workload

/-! Runs in which one worker's Adds reach `intMax`, the clock of a worker that has finished. -/
namespace Hpps.Scheduler.Workload

open SyncScheduler VectorClock

variable {K : ℕ} {D : Type} {W : Workload K D} {x : System K D} {v w : Fin K} {n p : ℕ}

/-- The counts after `n` requests of worker `w` alone. -/
def alone (w : Fin K) (n : ℕ) : Fin K → ℕ := fun v => if v = w then n else 0

theorem bump_alone : bump (alone w n) w = alone w (n + 1) := by
  funext v
  by_cases hv : v = w
  · subst hv; simp [alone]
  · simp [alone, hv]

/-- Worker `w` alone has moved, and had `n` Adds applied. -/
structure Solo (W : Workload K D) (w : Fin K) (n : ℕ) (x : System K D) : Prop where
  clocked : x.sched.Clocked
  served : x.sched.served = W.calls w n
  adds : x.sched.msgAddCache = []
  gets : x.sched.msgGetCache = []
  count_add : x.sched.count .add = alone w n
  count_get : x.sched.count .get = 0
  sent : x.sent = alone w n

theorem Solo.start : Solo W w 0 (start K D) where
  clocked := clocked_new
  served := by simp [Workload.start, SyncScheduler.new, calls]
  adds := rfl
  gets := rfl
  count_add := by funext v; simp [Workload.start, SyncScheduler.new, SyncScheduler.count, alone]
  count_get := rfl
  sent := by funext v; simp [Workload.start, alone]

/-- As long as another worker has sent nothing, no round ends. -/
theorem Solo.step (h : Solo W w n x) (hop : W.prog[n]? = some .add) (hvw : v ≠ w) :
    ∃ y, W.arrive x w = some y ∧ Solo W w (n + 1) y := by
  have hsent : x.sent w = n := by simp [h.sent, alone]
  have hfull : (x.sched.workerAddClocks.update w).2 = false :=
    h.clocked.adds.update_false hvw fun k => by simp [h.count_add, alone, hvw]
  obtain ⟨t, ht, hc, hs, ha, hg⟩ := processAdd_served (m := W.request w n .add) h.clocked
    data_ne_nil (by simp [h.count_get]) hfull
  refine ⟨⟨t, bump x.sent w⟩, ?_, hc, ?_, ha.trans h.adds, hg.trans h.gets, ?_, ?_, ?_⟩
  · simp only [arrive, hsent, hop, Option.bind_some, process, ht, Option.map_some]
  · rw [hs, h.served, calls_succ hop]
    rfl
  · rw [count_serve_self hs rfl, h.count_add]
    exact bump_alone
  · rw [count_serve_other (by decide) hs rfl, h.count_get]
  · dsimp only
    rw [h.sent, bump_alone]

theorem exists_solo {f : System K D → Fin K → Option (System K D)}
    (hstep : ∀ m < n, ∀ x, Solo W w m x → f x w = W.arrive x w)
    (hprog : ∀ i < n, W.prog[i]? = some .add) (hvw : v ≠ w) :
    ∃ x, TransitionSystem.Reachable f (start K D) x ∧ Solo W w n x := by
  induction n with
  | zero => exact ⟨_, .refl, .start⟩
  | succ n ih =>
    obtain ⟨x, hr, hx⟩ := ih (fun m hm => hstep m (by omega)) fun i hi => hprog i (by omega)
    obtain ⟨y, hy, hs⟩ := hx.step (hprog n (by omega)) hvw
    exact ⟨y, hr.tail ((hstep n (by omega) x hx).trans hy), hs⟩

/-- The Get that follows waits for the other workers' Adds. -/
theorem Solo.cacheGet (h : Solo W w n x) (hop : W.prog[n]? = some .get) (hn : 0 < n)
    (hvw : v ≠ w) : ∃ t, W.arrive x w = some ⟨t, bump x.sent w⟩ ∧ t.Clocked ∧
      t.served = W.calls w n ∧ t.msgAddCache = [] ∧ t.msgGetCache = [W.request w n .get] := by
  have hsent : x.sent w = n := by simp [h.sent, alone]
  obtain ⟨t, ht, hc, hs, ha, hg⟩ := processGet_cached (m := W.request w n .get) h.clocked
    (.inl ⟨v, by simp [h.count_add, alone, hvw, request, hn]⟩)
  refine ⟨t, ?_, hc, hs.trans h.served, ha.trans h.adds, by simp [hg, h.gets]⟩
  simp only [arrive, hsent, hop, Option.bind_some, process, ht, Option.map_some]

/-- Two workers: the first has `intMax` Adds applied and a Get waiting, the second sent nothing. -/
structure Overrun (W : Workload 2 D) (p : ℕ) (x : System 2 D) : Prop where
  clocked : x.sched.Clocked
  adds : x.sched.msgAddCache = []
  gets : x.sched.msgGetCache = [W.request 0 p .get]
  first : (x.sched.count .add 0 : ℤ) = intMax
  second : x.sched.count .add 1 = 0
  count_get : x.sched.count .get = 0
  sent : x.sent 1 = 0

/-- The second worker's first Add already ends a round, and the waiting Get is answered. -/
theorem Overrun.flush {W : Workload 2 D} {x : System 2 D} (h : Overrun W p x)
    (hop : W.prog[0]? = some .add) :
    ∃ t, W.arrive x 1 = some ⟨t, bump x.sent 1⟩ ∧ t.Clocked ∧ t.msgAddCache = [] ∧
      t.served = x.sched.served ++ [W.call 1 0 .add, W.call 0 p .get] := by
  have hfull : (x.sched.workerAddClocks.update 1).2 = true := by
    refine h.clocked.adds.update_true_of_intMax (by rw [h.second]; decide) fun j hj => ?_
    obtain rfl : j = 0 := by omega
    exact h.first
  obtain ⟨t, ht, hc, hs, ha, -⟩ := processAdd_flush (m := W.request 1 0 .add) h.clocked
    data_ne_nil (by simp [h.count_get]) hfull h.adds
    (by simp only [h.gets, List.mem_singleton, forall_eq]; exact data_ne_nil)
    (by simp [h.gets, request])
  refine ⟨t, ?_, hc, ha, by simpa [h.gets, call] using hs⟩
  simp only [arrive, h.sent, hop, Option.bind_some, process, ht, Option.map_some]

/-- Two workers that each issue `n` Adds, a Get and one more Add. -/
def addsGetAdd (n : ℕ) : Workload 2 ℕ where
  prog := List.replicate n .add ++ [.get, .add]
  payload _ _ := ⟨0, 0, none⟩

theorem addsGetAdd_of_lt {i : ℕ} (h : i < n) : (addsGetAdd n).prog[i]? = some .add := by
  simp [addsGetAdd, List.getElem?_append_left, h]

theorem addsGetAdd_get : (addsGetAdd n).prog[n]? = some .get := by
  simp [addsGetAdd]

theorem addsGetAdd_add : (addsGetAdd n).prog[n + 1]? = some .add := by
  simp [addsGetAdd]

end Hpps.Scheduler.Workload

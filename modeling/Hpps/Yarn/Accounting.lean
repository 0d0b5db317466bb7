import Hpps.Yarn.ApplicationMaster

/-! Every task is in one place, whatever the order of the callbacks. -/
namespace Hpps.Yarn.ApplicationMaster

open TransitionSystem

variable {cfg : Config} {s t : ApplicationMaster} {tasks rest : List ℕ} {r r' cid : ℕ} {c : Container}

/-- The entry that a lookup finds, taken out of the map. -/
theorem perm_of_lookup {l : List (ℕ × ℕ)} (hkeys : (l.map Prod.fst).Nodup) (h : l.lookup cid = some r) :
    l.Perm ((cid, r) :: l.filter (·.1 ≠ cid)) := by
  induction l with
  | nil => cases h
  | cons p l ih =>
    obtain ⟨hnot, hkeys⟩ := List.nodup_cons.mp hkeys
    by_cases hp : cid = p.1
    · subst hp
      rw [List.lookup_cons_self] at h
      cases h
      have hall : l.filter (·.1 ≠ p.1) = l := by
        apply List.filter_eq_self.mpr
        intro q hq
        simp only [decide_eq_true_eq]
        intro heq
        exact hnot (heq ▸ List.mem_map_of_mem hq)
      rw [List.filter_cons_of_neg (by simp), hall]
    · have hne : (cid == p.1) = false := by simpa using hp
      rw [List.lookup_cons, hne] at h
      rw [List.filter_cons_of_pos (by simpa using Ne.symm hp)]
      exact ((ih hkeys h).cons p).trans (.swap _ _ _)

/-- Attempts are left, or none was made. -/
def Left (cfg : Config) (attempts : ℕ) : Prop := (attempts : ℤ) + 1 ≤ max 1 cfg.maxNumAttempt

/-- The task has a request and was not launched since its last failure. -/
structure IsPending (cfg : Config) (s : ApplicationMaster) (r : ℕ) : Prop where
  abortRequested : (s.records r).abortRequested = false
  request : (s.records r).containerRequest.isSome
  launches : s.launches r = (s.records r).attemptCounter
  left : Left cfg (s.records r).attemptCounter

structure IsRunning (s : ApplicationMaster) (r : ℕ) : Prop where
  abortRequested : (s.records r).abortRequested = false
  container : (s.records r).container.isSome
  launches : s.launches r = (s.records r).attemptCounter + 1

/-- The task has failed, and nothing was done about it yet. -/
structure IsFailed (s : ApplicationMaster) (r : ℕ) : Prop where
  abortRequested : (s.records r).abortRequested = false
  launches : s.launches r = (s.records r).attemptCounter

/-- Each task is in one collection or in the local list `tasks`, and its record fits the place. -/
structure Accounted (cfg : Config) (s : ApplicationMaster) (tasks : List ℕ) : Prop where
  perm : (s.pendingTasks ++ s.runningTasks.map Prod.snd ++ s.finishedTasks ++ s.killedTasks ++ tasks).Perm
    (List.range cfg.numTasks)
  keys : (s.runningTasks.map Prod.fst).Nodup
  old : ∀ p ∈ s.runningTasks, p.1 ∈ s.allocated
  pending : ∀ r ∈ s.pendingTasks, IsPending cfg s r
  running : ∀ r ∈ s.runningTasks.map Prod.snd, IsRunning s r
  failed : ∀ r ∈ tasks, IsFailed s r
  bound : ∀ r, (s.launches r : ℤ) ≤ max 1 cfg.maxNumAttempt
  aborted : s.startAbort = true → s.pendingTasks = [] ∧ s.runningTasks = []
  order : s.log.Pairwise fun x y => x = .abort → ∀ r, y ≠ .launch r
  starts : .abort ∈ s.log → s.startAbort = true

/-- The job is aborted, or each of the tasks has attempts left. -/
def HaveLeft (cfg : Config) (s : ApplicationMaster) (tasks : List ℕ) : Prop :=
  s.startAbort = true ∨ ∀ r ∈ tasks, Left cfg (s.records r).attemptCounter

/-- Moves between the collections. -/
theorem Accounted.perm_of_count (h : Accounted cfg s tasks)
    (hcount : ∀ r, t.pendingTasks.count r + (t.runningTasks.map Prod.snd).count r + t.finishedTasks.count r +
      t.killedTasks.count r + rest.count r = s.pendingTasks.count r + (s.runningTasks.map Prod.snd).count r +
        s.finishedTasks.count r + s.killedTasks.count r + tasks.count r) :
    (t.pendingTasks ++ t.runningTasks.map Prod.snd ++ t.finishedTasks ++ t.killedTasks ++ rest).Perm
      (List.range cfg.numTasks) := by
  apply List.Perm.trans _ h.perm
  apply List.perm_iff_count.mpr
  intro r
  simp only [List.count_append]
  exact hcount r

theorem Accounted.count_le_one (h : Accounted cfg s tasks) (r : ℕ) :
    s.pendingTasks.count r + (s.runningTasks.map Prod.snd).count r + tasks.count r ≤ 1 := by
  have hcount := h.perm.count_eq r
  have hone : (List.range cfg.numTasks).count r ≤ 1 := List.nodup_iff_count_le_one.mp List.nodup_range r
  simp only [List.count_append] at hcount
  omega

/-- Events that launch nothing can follow any others. -/
theorem pairwise_append {log es : List Event} (h : log.Pairwise fun x y => x = .abort → ∀ r, y ≠ .launch r)
    (hes : ∀ e ∈ es, ∀ r, e ≠ .launch r) :
    (log ++ es).Pairwise fun x y => x = .abort → ∀ r, y ≠ .launch r := by
  refine List.pairwise_append.mpr ⟨h, ?_, fun x _ y hy _ => hes y hy⟩
  exact List.pairwise_of_forall_mem_list fun x _ y hy _ => hes y hy

theorem Accounted.order_append (h : Accounted cfg s tasks) {e : Event} (he : ∀ r, e ≠ .launch r) :
    (s.log ++ [e]).Pairwise fun x y => x = .abort → ∀ r, y ≠ .launch r :=
  pairwise_append h.order (by simpa using he)

theorem launches_append {log es : List Event} (hes : ∀ e ∈ es, ∀ r, e ≠ .launch r) (r : ℕ) :
    (log ++ es).count (.launch r) = log.count (.launch r) := by
  rw [List.count_append, List.count_eq_zero_of_not_mem fun hmem => hes _ hmem r rfl, Nat.add_zero]

@[simp] theorem launches_append_self (log : List Event) (r : ℕ) :
    (log ++ [Event.launch r]).count (Event.launch r) = log.count (Event.launch r) + 1 := by simp

theorem launches_append_of_ne (log : List Event) {e : Event} (he : e ≠ .launch r) :
    (log ++ [e]).count (.launch r) = log.count (.launch r) := by
  rw [List.count_append, List.count_singleton, if_neg (by simpa using he), Nat.add_zero]

/-- The record of the task and its launches are as they were. -/
def Same (s t : ApplicationMaster) (r : ℕ) : Prop := t.records r = s.records r ∧ t.launches r = s.launches r

theorem IsPending.same (h : IsPending cfg s r) (hst : Same s t r) : IsPending cfg t r := by
  obtain ⟨hrecord, hlaunches⟩ := hst
  constructor <;> rw [hrecord]
  · exact h.abortRequested
  · exact h.request
  · rw [hlaunches, h.launches]
  · exact h.left

theorem IsRunning.same (h : IsRunning s r) (hst : Same s t r) : IsRunning t r := by
  obtain ⟨hrecord, hlaunches⟩ := hst
  constructor <;> rw [hrecord]
  · exact h.abortRequested
  · exact h.container
  · rw [hlaunches, h.launches]

theorem IsFailed.same (h : IsFailed s r) (hst : Same s t r) : IsFailed t r := by
  obtain ⟨hrecord, hlaunches⟩ := hst
  constructor <;> rw [hrecord]
  · exact h.abortRequested
  · rw [hlaunches, h.launches]

theorem Accounted.emit (h : Accounted cfg s tasks) {e : Event} (he : ∀ r, e ≠ .launch r) (hne : e ≠ .abort) :
    Accounted cfg (s.emit e) tasks := by
  have hsame : ∀ r, Same s (s.emit e) r := fun r => ⟨rfl, launches_append_of_ne s.log (he r)⟩
  refine ⟨h.perm, h.keys, h.old, fun r hr => (h.pending r hr).same (hsame r),
    fun r hr => (h.running r hr).same (hsame r), fun r hr => (h.failed r hr).same (hsame r),
    fun r => ?_, h.aborted, h.order_append he, fun hmem => h.starts ?_⟩
  · rw [(hsame r).2]
    exact h.bound r
  · rcases List.mem_append.mp hmem with hmem | hmem
    · exact hmem
    · exact absurd (List.mem_singleton.mp hmem).symm hne

/-! ### Submissions -/

theorem Accounted.submitTask (h : Accounted cfg s (r :: rest)) (hrun : s.startAbort = false)
    (hleft : Left cfg (s.records r).attemptCounter) : Accounted cfg (submitTask cfg s r) rest := by
  have hone := h.count_le_one r
  rw [List.count_cons_self] at hone
  have hne : ∀ r', r' ∈ s.pendingTasks ∨ r' ∈ s.runningTasks.map Prod.snd ∨ r' ∈ rest → r' ≠ r := by
    rintro r' hr' rfl
    rcases hr' with hr' | hr' | hr' <;> have := List.count_pos_iff.mpr hr' <;> omega
  have hlaunches : ∀ r', (ApplicationMaster.submitTask cfg s r).launches r' = s.launches r' :=
    fun r' => launches_append_of_ne s.log (by simp)
  have hsame : ∀ r', r' ≠ r → Same s (ApplicationMaster.submitTask cfg s r) r' :=
    fun r' hr' => ⟨Function.update_of_ne hr' _ _, hlaunches r'⟩
  have hfailed := h.failed r List.mem_cons_self
  refine ⟨?_, h.keys, h.old, fun r' hr' => ?_, fun r' hr' => (h.running r' hr').same (hsame r' (hne r' (.inr (.inl hr')))),
    fun r' hr' => (h.failed r' (List.mem_cons_of_mem r hr')).same (hsame r' (hne r' (.inr (.inr hr')))),
    fun r' => (hlaunches r').symm ▸ h.bound r', fun habort => ?_, h.order_append (by simp), fun hmem => h.starts ?_⟩
  · apply h.perm_of_count
    intro r'
    simp only [ApplicationMaster.submitTask, ApplicationMaster.emit, modify, List.count_append, List.count_cons,
      List.count_nil]
    omega
  · rcases List.mem_append.mp hr' with hr' | hr'
    · exact (h.pending r' hr').same (hsame r' (hne r' (.inl hr')))
    · rw [List.mem_singleton] at hr'
      subst hr'
      have hrecord : (ApplicationMaster.submitTask cfg s r').records r' = _ := Function.update_self r' _ _
      constructor <;> rw [hrecord]
      · exact hfailed.abortRequested
      · rfl
      · rw [hlaunches, hfailed.launches]
      · exact hleft
  · rw [show s.startAbort = true from habort] at hrun
    cases hrun
  · rcases List.mem_append.mp hmem with hmem | hmem
    · exact hmem
    · cases List.mem_singleton.mp hmem

theorem attemptCounter_submitTask (r r' : ℕ) :
    ((submitTask cfg s r).records r').attemptCounter = (s.records r').attemptCounter := by
  by_cases hr : r' = r
  · subst hr
    simp [submitTask, emit, modify]
  · simp [submitTask, emit, modify, Function.update_of_ne hr]

theorem Accounted.submitTasks (h : Accounted cfg s tasks) (hrun : s.startAbort = false)
    (hleft : ∀ r ∈ tasks, Left cfg (s.records r).attemptCounter) : Accounted cfg (submitTasks cfg s tasks) [] := by
  induction tasks generalizing s with
  | nil => exact h
  | cons r rest ih =>
    apply ih (h.submitTask hrun (hleft r List.mem_cons_self)) hrun
    intro r' hr'
    rw [attemptCounter_submitTask]
    exact hleft r' (List.mem_cons_of_mem r hr')

theorem accounted_init : Accounted cfg (init cfg) [] := by
  have hnew : ∀ r, (cfg.newRecord r).attemptCounter = 0 ∧ (cfg.newRecord r).abortRequested = false := by
    intro r
    unfold Config.newRecord
    split <;> exact ⟨rfl, rfl⟩
  apply Accounted.submitTasks _ rfl
  · intro r _
    simp [(hnew r).1, Left]
  · exact ⟨by simp, List.nodup_nil, by simp, by simp, by simp, fun r _ => ⟨(hnew r).2, (hnew r).1.symm⟩,
      by simp [launches], by simp, List.Pairwise.nil, by simp⟩

/-! ### Containers -/

theorem Accounted.launchTask (h : Accounted cfg s tasks) (hp : s.pendingTasks = r :: rest)
    (hnew : c.id ∉ s.runningTasks.map Prod.fst) (hold : c.id ∈ s.allocated) (hrun : s.startAbort = false) :
    Accounted cfg (launchTask { s with pendingTasks := rest } c r) tasks := by
  have hone := h.count_le_one r
  rw [hp, List.count_cons_self] at hone
  have hne : ∀ r', r' ∈ rest ∨ r' ∈ s.runningTasks.map Prod.snd ∨ r' ∈ tasks → r' ≠ r := by
    rintro r' hr' rfl
    rcases hr' with hr' | hr' | hr' <;> have := List.count_pos_iff.mpr hr' <;> omega
  have hmap : s.runningTasks.filter (·.1 ≠ c.id) = s.runningTasks := by
    apply List.filter_eq_self.mpr
    intro p hp
    simp only [decide_eq_true_eq]
    intro heq
    exact hnew (heq ▸ List.mem_map_of_mem hp)
  have hpending := h.pending r (hp ▸ List.mem_cons_self)
  have hself : (ApplicationMaster.launchTask { s with pendingTasks := rest } c r).launches r = s.launches r + 1 :=
    launches_append_self s.log r
  have hother : ∀ r', r' ≠ r →
      (ApplicationMaster.launchTask { s with pendingTasks := rest } c r).launches r' = s.launches r' :=
    fun r' hr' => launches_append_of_ne s.log (by simpa using Ne.symm hr')
  have hsame : ∀ r', r' ≠ r → Same s (ApplicationMaster.launchTask { s with pendingTasks := rest } c r) r' :=
    fun r' hr' => ⟨Function.update_of_ne hr' _ _, hother r' hr'⟩
  have hrunning : (ApplicationMaster.launchTask { s with pendingTasks := rest } c r).runningTasks =
      (c.id, r) :: s.runningTasks := congrArg _ hmap
  refine ⟨?_, ?_, ?_, fun r' hr' => ?_, ?_, fun r' hr' => (h.failed r' hr').same (hsame r' (hne r' (.inr (.inr hr')))),
    fun r' => ?_, fun habort => ?_, ?_, fun hmem => h.starts ?_⟩
  · apply h.perm_of_count
    intro r'
    rw [hrunning, hp]
    simp only [ApplicationMaster.launchTask, ApplicationMaster.emit, modify, List.map_cons, List.count_cons]
    omega
  · rw [hrunning]
    exact List.nodup_cons.mpr ⟨hnew, h.keys⟩
  · rw [hrunning]
    exact List.forall_mem_cons.mpr ⟨hold, h.old⟩
  · exact (h.pending r' (hp ▸ List.mem_cons_of_mem r hr')).same (hsame r' (hne r' (.inl hr')))
  · rw [hrunning, List.map_cons, List.forall_mem_cons]
    refine ⟨?_, fun r' hr' => (h.running r' hr').same (hsame r' (hne r' (.inr (.inl hr'))))⟩
    have hrecord : (ApplicationMaster.launchTask { s with pendingTasks := rest } c r).records r = _ :=
      Function.update_self r _ _
    constructor <;> rw [hrecord]
    · exact hpending.abortRequested
    · rfl
    · rw [hself, hpending.launches]
  · by_cases hr' : r' = r
    · rw [hr', hself, hpending.launches]
      exact_mod_cast hpending.left
    · rw [hother r' hr']
      exact h.bound r'
  · rw [show s.startAbort = true from habort] at hrun
    cases hrun
  · refine List.pairwise_append.mpr ⟨h.order, List.pairwise_singleton _ _, ?_⟩
    rintro x hx _ - rfl
    rw [h.starts hx] at hrun
    cases hrun
  · rcases List.mem_append.mp hmem with hmem | hmem
    · exact hmem
    · cases List.mem_singleton.mp hmem

theorem Accounted.freeUnusedContainers {containers : List Container} (h : Accounted cfg s tasks) :
    Accounted cfg (freeUnusedContainers s containers) tasks := by
  induction containers generalizing s with
  | nil => exact h
  | cons c containers ih => exact ih (h.emit (by simp) (by simp))

/-- The loop of `onContainersAllocated`. -/
theorem Accounted.allocate {containers freelist : List Container} (h : Accounted cfg s [])
    (hrun : s.startAbort = false) (hnodup : (containers.map Container.id).Nodup)
    (hnew : ∀ c ∈ containers, c.id ∉ s.runningTasks.map Prod.fst ∧ c.id ∈ s.allocated) :
    Accounted cfg (containers.foldl allocateOne (s, freelist)).1 [] := by
  induction containers generalizing s freelist with
  | nil => exact h
  | cons c containers ih =>
    obtain ⟨hc, hnodup⟩ := List.nodup_cons.mp hnodup
    obtain ⟨hnewc, hnew⟩ := List.forall_mem_cons.mp hnew
    rw [List.foldl_cons]
    unfold allocateOne
    dsimp only
    split
    · exact ih (h.emit (by simp) (by simp)) hrun hnodup hnew
    · split
      · exact ih h hrun hnodup hnew
      · rename_i r pendingTasks hp
        refine ih (h.launchTask hp hnewc.1 hnewc.2 hrun) hrun hnodup fun c' hc' => ⟨fun hmem => ?_, (hnew c' hc').2⟩
        rcases List.mem_cons.mp hmem with heq | hmem
        · have hid : c'.id = c.id := heq
          exact hc (hid ▸ List.mem_map_of_mem hc')
        · obtain ⟨p, hp, heq⟩ := List.mem_map.mp hmem
          exact (hnew c' hc').1 (heq ▸ List.mem_map_of_mem (List.mem_of_mem_filter hp))

theorem Accounted.onContainersAllocated {containers : List Container} (h : Accounted cfg s [])
    (hfresh : Fresh s (.onContainersAllocated containers)) :
    Accounted cfg (onContainersAllocated s containers) [] := by
  obtain ⟨hnodup, hnew⟩ := hfresh
  have hs : Accounted cfg { s with allocated := s.allocated ++ containers.map Container.id } [] :=
    ⟨h.perm, h.keys, fun p hp => List.mem_append_left _ (h.old p hp), fun r hr => (h.pending r hr).same ⟨rfl, rfl⟩,
      fun r hr => (h.running r hr).same ⟨rfl, rfl⟩, by simp, h.bound, h.aborted, h.order, h.starts⟩
  unfold ApplicationMaster.onContainersAllocated
  dsimp only
  split
  · exact hs.freeUnusedContainers
  · rename_i hrun
    apply Accounted.freeUnusedContainers
    apply hs.allocate (by simpa using hrun) hnodup
    refine fun c hc => ⟨fun hmem => ?_, List.mem_append_right _ (List.mem_map_of_mem hc)⟩
    obtain ⟨p, hp, heq⟩ := List.mem_map.mp hmem
    exact hnew c hc (heq ▸ h.old p hp)

/-! ### Failures -/

theorem count_of_lookup {l : List (ℕ × ℕ)} (hkeys : (l.map Prod.fst).Nodup) (h : l.lookup cid = some r) (r' : ℕ) :
    (l.map Prod.snd).count r' = (r :: (l.filter (·.1 ≠ cid)).map Prod.snd).count r' :=
  ((perm_of_lookup hkeys h).map Prod.snd).count_eq r'

theorem Accounted.mem_of_lookup (h : Accounted cfg s tasks) (hl : s.runningTasks.lookup cid = some r) :
    r ∈ s.runningTasks.map Prod.snd := by
  rw [← List.count_pos_iff, count_of_lookup h.keys hl, List.count_cons_self]
  omega

theorem mem_of_mem_filter_map {l : List (ℕ × ℕ)} (h : r' ∈ (l.filter (·.1 ≠ cid)).map Prod.snd) :
    r' ∈ l.map Prod.snd := by
  obtain ⟨p, hp, rfl⟩ := List.mem_map.mp h
  exact List.mem_map_of_mem (List.mem_of_mem_filter hp)

theorem Accounted.finish (h : Accounted cfg s tasks) (hl : s.runningTasks.lookup cid = some r) :
    Accounted cfg { s with
      finishedTasks := s.finishedTasks ++ [r]
      runningTasks := s.runningTasks.filter (·.1 ≠ cid) } tasks := by
  refine ⟨?_, h.keys.sublist (List.filter_sublist.map _), fun p hp => h.old p (List.mem_of_mem_filter hp),
    fun r' hr' => (h.pending r' hr').same ⟨rfl, rfl⟩,
    fun r' hr' => (h.running r' (mem_of_mem_filter_map hr')).same ⟨rfl, rfl⟩,
    fun r' hr' => (h.failed r' hr').same ⟨rfl, rfl⟩, h.bound, fun habort => ?_, h.order, h.starts⟩
  · apply h.perm_of_count
    intro r'
    rw [count_of_lookup h.keys hl]
    simp only [List.count_append, List.count_cons, List.count_nil]
    omega
  · obtain ⟨hpending, hrunning⟩ := h.aborted habort
    exact ⟨hpending, by simp [hrunning]⟩

/-- What `handleFailure` does for a task before it may abort the job. -/
def afterFailure (s : ApplicationMaster) (cid r : ℕ) (c : Container) : ApplicationMaster :=
  let s := { s with runningTasks := s.runningTasks.filter (·.1 ≠ cid) }
  let s := s.modify r fun record => { record with attemptCounter := record.attemptCounter + 1, container := none }
  { s with blackList := s.blackList.insert c.nodeHttpAddress }.emit (.stop c.id)

/-- The task of a failed container goes to the local list. -/
theorem Accounted.fail (h : Accounted cfg s tasks) (hl : s.runningTasks.lookup cid = some r) :
    Accounted cfg (s.afterFailure cid r c) (tasks ++ [r]) := by
  have hone := h.count_le_one r
  rw [count_of_lookup h.keys hl, List.count_cons_self] at hone
  have hne : ∀ r', r' ∈ s.pendingTasks ∨ r' ∈ (s.runningTasks.filter (·.1 ≠ cid)).map Prod.snd ∨ r' ∈ tasks →
      r' ≠ r := by
    rintro r' hr' rfl
    rcases hr' with hr' | hr' | hr' <;> have := List.count_pos_iff.mpr hr' <;> omega
  have hrunning := h.running r (h.mem_of_lookup hl)
  have hlaunches : ∀ r', (s.afterFailure cid r c).launches r' = s.launches r' :=
    fun r' => launches_append_of_ne s.log (by simp)
  have hsame : ∀ r', r' ≠ r → Same s (s.afterFailure cid r c) r' :=
    fun r' hr' => ⟨Function.update_of_ne hr' _ _, hlaunches r'⟩
  refine ⟨?_, h.keys.sublist (List.filter_sublist.map _), fun p hp => h.old p (List.mem_of_mem_filter hp),
    fun r' hr' => (h.pending r' hr').same (hsame r' (hne r' (.inl hr'))),
    fun r' hr' => (h.running r' (mem_of_mem_filter_map hr')).same (hsame r' (hne r' (.inr (.inl hr')))),
    fun r' hr' => ?_, fun r' => (hlaunches r').symm ▸ h.bound r', fun habort => ?_, h.order_append (by simp),
    fun hmem => h.starts ?_⟩
  · apply h.perm_of_count
    intro r'
    rw [count_of_lookup h.keys hl]
    simp only [afterFailure, ApplicationMaster.emit, modify, List.count_append, List.count_cons, List.count_nil]
    omega
  · rcases List.mem_append.mp hr' with hr' | hr'
    · exact (h.failed r' hr').same (hsame r' (hne r' (.inr (.inr hr'))))
    · rw [List.mem_singleton] at hr'
      subst hr'
      have hrecord : (s.afterFailure cid r' c).records r' = _ := Function.update_self r' _ _
      constructor <;> rw [hrecord]
      · exact hrunning.abortRequested
      · rw [hlaunches, hrunning.launches]
  · obtain ⟨hpending, hrun⟩ := h.aborted habort
    exact ⟨hpending, by simp [afterFailure, ApplicationMaster.emit, modify, hrun]⟩
  · rcases List.mem_append.mp hmem with hmem | hmem
    · exact hmem
    · cases List.mem_singleton.mp hmem

/-- What the loops of `abortJob` leave as it was: all but the killed tasks, some records and some requests. -/
structure Stopping (s t : ApplicationMaster) (rs : List ℕ) : Prop where
  pending : t.pendingTasks = s.pendingTasks
  running : t.runningTasks = s.runningTasks
  finished : t.finishedTasks = s.finishedTasks
  killed : t.killedTasks = s.killedTasks ++ rs
  startAbort : t.startAbort = s.startAbort
  records : ∀ r, r ∉ rs → t.records r = s.records r
  log : ∃ es, t.log = s.log ++ es ∧ ∀ e ∈ es, ∀ r, e ≠ .launch r

theorem abortTasks_stopping {rs : List ℕ} (hnodup : rs.Nodup)
    (hrun : ∀ r ∈ rs, (s.records r).abortRequested = false ∧ (s.records r).container.isSome) :
    ∃ t, rs.foldlM abortTask s = some t ∧ Stopping s t rs := by
  induction rs generalizing s with
  | nil => exact ⟨s, rfl, rfl, rfl, rfl, (List.append_nil _).symm, rfl, fun _ _ => rfl, [], (List.append_nil _).symm, by simp⟩
  | cons r rs ih =>
    obtain ⟨hr, hnodup⟩ := List.nodup_cons.mp hnodup
    obtain ⟨⟨hfalse, hsome⟩, hrun⟩ := List.forall_mem_cons.mp hrun
    obtain ⟨c, hc⟩ := Option.isSome_iff_exists.mp hsome
    let u : ApplicationMaster :=
      { (s.emit (.stop c.id)).modify r fun record => { record with abortRequested := true } with
        killedTasks := s.killedTasks ++ [r] }
    have hone : abortTask s r = some u := by
      rw [abortTask, hfalse, hc]
      rfl
    have hsame : ∀ r', r' ≠ r → u.records r' = s.records r' := fun r' hr' => Function.update_of_ne hr' _ _
    obtain ⟨t, ht, hstop⟩ := ih hnodup (s := u) fun r' hr' => by
      have hne : r' ≠ r := by
        rintro rfl
        exact hr hr'
      rw [hsame r' hne]
      exact hrun r' hr'
    refine ⟨t, ?_, hstop.pending, hstop.running, hstop.finished, ?_, hstop.startAbort, fun r' hr' => ?_, ?_⟩
    · rw [List.foldlM_cons, hone]
      exact ht
    · rw [hstop.killed, show u.killedTasks = s.killedTasks ++ [r] from rfl, List.append_assoc, List.singleton_append]
    · rw [List.mem_cons, not_or] at hr'
      rw [hstop.records r' hr'.2, hsame r' hr'.1]
    · obtain ⟨es, hlog, hes⟩ := hstop.log
      refine ⟨.stop c.id :: es, ?_, List.forall_mem_cons.mpr ⟨by simp, hes⟩⟩
      rw [hlog, show u.log = s.log ++ [.stop c.id] from rfl, List.append_assoc, List.singleton_append]

theorem removeRequests_eq (rs : List ℕ) (hrequest : ∀ r ∈ rs, (s.records r).containerRequest.isSome) :
    rs.foldlM removeRequest s = some { s with log := s.log ++ rs.map .removeRequest } := by
  induction rs generalizing s with
  | nil => simp
  | cons r rs ih =>
    obtain ⟨hsome, hrequest⟩ := List.forall_mem_cons.mp hrequest
    obtain ⟨request, hr⟩ := Option.isSome_iff_exists.mp hsome
    have hone : removeRequest s r = some (s.emit (.removeRequest r)) := by
      rw [removeRequest, hr]
      rfl
    rw [List.foldlM_cons, hone]
    refine (ih (s := s.emit (.removeRequest r)) hrequest).trans ?_
    simp [emit]

/-- An abort throws nothing, and kills what is pending or running. -/
theorem Accounted.abortJob (h : Accounted cfg s tasks) (msg : String) :
    ∃ t, abortJob s msg = some t ∧ Accounted cfg t tasks ∧ t.startAbort = true := by
  let u : ApplicationMaster := { s with
    abortDiagnosis := if s.startAbort then s.abortDiagnosis else msg
    startAbort := true }.emit .abort
  have hone : ∀ r, s.pendingTasks.count r + (s.runningTasks.map Prod.snd).count r + tasks.count r ≤ 1 := h.count_le_one
  have hnodup : (s.runningTasks.map Prod.snd).Nodup := List.nodup_iff_count_le_one.mpr fun r => by
    have := hone r
    omega
  have hnot : ∀ r, r ∈ s.pendingTasks ∨ r ∈ tasks → r ∉ s.runningTasks.map Prod.snd := by
    intro r hr hmem
    have := hone r
    have := List.count_pos_iff.mpr hmem
    rcases hr with hr | hr <;> have := List.count_pos_iff.mpr hr <;> omega
  obtain ⟨v, hv, hstop⟩ := abortTasks_stopping (s := u) hnodup fun r hr =>
    ⟨(h.running r hr).abortRequested, (h.running r hr).container⟩
  obtain ⟨es, hlog, hes⟩ := hstop.log
  have hpending : v.pendingTasks = s.pendingTasks := hstop.pending
  have hkilled : v.killedTasks = s.killedTasks ++ s.runningTasks.map Prod.snd := hstop.killed
  have hremove := removeRequests_eq (s := { v with killedTasks := v.killedTasks ++ v.pendingTasks }) v.pendingTasks
    fun r hr => by
      rw [hpending] at hr
      exact (hstop.records r (hnot r (.inl hr))).symm ▸ (h.pending r hr).request
  let t : ApplicationMaster := { v with
    killedTasks := v.killedTasks ++ v.pendingTasks
    log := v.log ++ v.pendingTasks.map .removeRequest
    pendingTasks := []
    runningTasks := [] }
  refine ⟨t, Option.bind_eq_some_iff.mpr ⟨v, hv, Option.bind_eq_some_iff.mpr ⟨_, hremove, rfl⟩⟩, ?_, hstop.startAbort⟩
  have hlog' : v.log ++ v.pendingTasks.map .removeRequest =
      s.log ++ (.abort :: es ++ v.pendingTasks.map .removeRequest) := by
    rw [hlog, show u.log = s.log ++ [.abort] from rfl]
    simp
  have hes' : ∀ e ∈ Event.abort :: es ++ v.pendingTasks.map .removeRequest, ∀ r, e ≠ .launch r := by
    intro e he r
    rcases List.mem_append.mp he with he | he
    · rcases List.mem_cons.mp he with rfl | he
      · simp
      · exact hes e he r
    · obtain ⟨r', -, rfl⟩ := List.mem_map.mp he
      simp
  have hlaunches : ∀ r, t.launches r = s.launches r := fun r =>
    (congrArg (List.count _) hlog').trans (launches_append hes' r)
  refine ⟨?_, List.nodup_nil, by simp [t], by simp [t], by simp [t], fun r hr => ?_, fun r => ?_,
    fun _ => ⟨rfl, rfl⟩, ?_, fun _ => hstop.startAbort⟩
  · apply h.perm_of_count
    intro r
    have hfinished : t.finishedTasks = s.finishedTasks := hstop.finished
    have hkilled' : t.killedTasks = s.killedTasks ++ s.runningTasks.map Prod.snd ++ s.pendingTasks := by
      rw [← hkilled, ← hpending]
    rw [hfinished, hkilled', show t.pendingTasks = [] from rfl, show t.runningTasks = [] from rfl]
    simp only [List.count_append, List.map_nil, List.count_nil]
    omega
  · exact (h.failed r hr).same ⟨hstop.records r (hnot r (.inr hr)), hlaunches r⟩
  · rw [hlaunches]
    exact h.bound r
  · rw [show t.log = _ from hlog']
    exact pairwise_append h.order hes'

/-- Every failed container is handled, and whether the job was aborted or not, nothing is lost. -/
theorem Accounted.failOne (cid : ℕ) (h : Accounted cfg s tasks) (hleft : HaveLeft cfg s tasks) :
    ∃ p, ApplicationMaster.failOne cfg (s, tasks) cid = some p ∧ Accounted cfg p.1 p.2 ∧ HaveLeft cfg p.1 p.2 := by
  cases hl : s.runningTasks.lookup cid with
  | none =>
    refine ⟨(s, tasks), ?_, h, hleft⟩
    unfold ApplicationMaster.failOne
    dsimp only
    rw [hl]
  | some r =>
    obtain ⟨c, hc⟩ := Option.isSome_iff_exists.mp (h.running r (h.mem_of_lookup hl)).container
    have hfail := h.fail (c := c) hl
    have hone : ApplicationMaster.failOne cfg (s, tasks) cid =
        if cfg.maxNumAttempt ≤ ((s.afterFailure cid r c).records r).attemptCounter then do
          let t ← (s.afterFailure cid r c).abortJob ("[HPPS] Task " ++
            toString ((s.afterFailure cid r c).records r).taskId ++ " failed more than " ++
            toString ((s.afterFailure cid r c).records r).attemptCounter ++ "times")
          return (t, tasks ++ [r])
        else some (s.afterFailure cid r c, tasks ++ [r]) := by
      unfold ApplicationMaster.failOne
      dsimp only
      rw [hl]
      exact congrArg (· >>= _) hc
    rw [hone]
    split
    · obtain ⟨t, ht, haccounted, habort⟩ := hfail.abortJob ("[HPPS] Task " ++
        toString ((s.afterFailure cid r c).records r).taskId ++ " failed more than " ++
        toString ((s.afterFailure cid r c).records r).attemptCounter ++ "times")
      exact ⟨(t, tasks ++ [r]), by rw [ht]; rfl, haccounted, .inl habort⟩
    · rename_i hlt
      refine ⟨_, rfl, hfail, hleft.imp id fun hall r' hr' => ?_⟩
      by_cases heq : r' = r
      · subst heq
        have hsmall : ((s.afterFailure cid r' c).records r').attemptCounter + 1 ≤ cfg.maxNumAttempt := by omega
        exact hsmall.trans (le_max_right _ _)
      · have hmem := (List.mem_append.mp hr').resolve_right (by simpa using heq)
        rw [show (s.afterFailure cid r c).records r' = s.records r' from Function.update_of_ne heq _ _]
        exact hall r' hmem

theorem Accounted.handleFailure (failed : List ℕ) (h : Accounted cfg s []) :
    ∃ t, ApplicationMaster.handleFailure cfg s failed = some t ∧ Accounted cfg t [] := by
  have hloop : ∀ (failed : List ℕ) (s : ApplicationMaster) (tasks : List ℕ), Accounted cfg s tasks →
      HaveLeft cfg s tasks → ∃ p, failed.foldlM (ApplicationMaster.failOne cfg) (s, tasks) = some p ∧
        Accounted cfg p.1 p.2 ∧ HaveLeft cfg p.1 p.2 := by
    intro failed
    induction failed with
    | nil => exact fun s tasks h hleft => ⟨(s, tasks), rfl, h, hleft⟩
    | cons cid failed ih =>
      intro s tasks h hleft
      obtain ⟨p, hp, h', hleft'⟩ := h.failOne cid hleft
      obtain ⟨q, hq, hend⟩ := ih p.1 p.2 h' hleft'
      refine ⟨q, ?_, hend⟩
      rw [List.foldlM_cons, hp]
      exact hq
  obtain ⟨⟨t, tasks⟩, hfold, ht, hleft⟩ := hloop failed s [] h (.inr (by simp))
  have heq : ApplicationMaster.handleFailure cfg s failed =
      if t.startAbort then some { t with killedTasks := t.killedTasks ++ tasks }
      else some (t.submitTasks cfg tasks) := by
    rw [ApplicationMaster.handleFailure, hfold]
    rfl
  rw [heq]
  split
  · rename_i habort
    obtain ⟨hpending, hrunning⟩ := ht.aborted habort
    refine ⟨_, rfl, ?_, ht.keys, ht.old, fun r hr => (ht.pending r hr).same ⟨rfl, rfl⟩,
      fun r hr => (ht.running r hr).same ⟨rfl, rfl⟩, by simp, ht.bound, ht.aborted, ht.order, ht.starts⟩
    apply ht.perm_of_count
    intro r
    simp only [List.count_append, List.count_nil]
    omega
  · rename_i habort
    have hrun : t.startAbort = false := by simpa using habort
    exact ⟨_, rfl, ht.submitTasks hrun (hleft.resolve_left (by simp [hrun]))⟩

/-- The loop of `onContainersCompleted`, with or without an early return. -/
theorem Accounted.completed (status : List ContainerStatus) (failed : List ℕ) (h : Accounted cfg s []) :
    ∃ p, completedLoop cfg status s failed = some p ∧ Accounted cfg p.1 [] := by
  induction status generalizing s failed with
  | nil => exact ⟨_, rfl, h⟩
  | cons status rest ih =>
    rw [completedLoop]
    split
    · exact ih _ h
    · rename_i r hl
      split
      · exact ih _ (h.finish hl)
      · split
        · rename_i memory _
          obtain ⟨t, ht, hend, -⟩ := h.abortJob ("[HPPS] Task " ++ toString (s.records r).taskId ++
            " killed because of exceeding allocated " ++ memory ++ " memory")
          exact ⟨(t, none), by rw [ht]; rfl, hend⟩
        · exact ih _ h

/-- A callback throws nothing, and every task stays accounted for. -/
theorem Accounted.callback {a : Callback} (h : Accounted cfg s []) (hfresh : Fresh s a) :
    ∃ t, ApplicationMaster.callback cfg s a = some t ∧ Accounted cfg t [] := by
  cases a with
  | onContainersAllocated containers => exact ⟨_, rfl, h.onContainersAllocated hfresh⟩
  | onContainersCompleted status =>
    obtain ⟨⟨t, failed⟩, hloop, ht⟩ := h.completed status []
    cases failed with
    | none => exact ⟨t, Option.bind_eq_some_iff.mpr ⟨_, hloop, rfl⟩, ht⟩
    | some failed =>
      obtain ⟨u, hu, hend⟩ := ht.handleFailure failed
      exact ⟨u, Option.bind_eq_some_iff.mpr ⟨_, hloop, hu⟩, hend⟩
  | onStartContainerError cid => exact h.handleFailure [cid]
  | onGetContainerStatusError cid => exact h.handleFailure [cid]
  | onError ex =>
    obtain ⟨t, ht, hend, -⟩ := h.abortJob ("[HPPS] Resource manager Error " ++ ex)
    exact ⟨t, ht, hend⟩
  | onShutdownRequest =>
    obtain ⟨t, ht, hend, -⟩ := h.abortJob "[HPPS] Get shutdown request, start to shutdown..."
    exact ⟨t, ht, hend⟩

/-- In every state between two callbacks each task is in one of the four collections, and was launched at most
`max 1 maxNumAttempt` times, never after an abort; when nothing is pending or running, the finished and
killed tasks are all tasks; and no callback throws. -/
theorem tasks_accounted (h : Reachable (ApplicationMaster.step cfg) (init cfg) s) :
    (s.pendingTasks ++ s.runningTasks.map Prod.snd ++ s.finishedTasks ++ s.killedTasks).Perm
      (List.range cfg.numTasks) ∧
    (∀ r, (s.launches r : ℤ) ≤ max 1 cfg.maxNumAttempt) ∧
    (∀ before after, s.log = before ++ .abort :: after → ∀ r, .launch r ∉ after) ∧
    (s.doneAllJobs = true → s.finishedTasks.length + s.killedTasks.length = cfg.numTasks) ∧
    ∀ a, Fresh s a → ∃ t, ApplicationMaster.step cfg s a = some t := by
  have hs : Accounted cfg s [] := by
    apply h.invariant (P := fun s => Accounted cfg s []) accounted_init
    intro x a y hx hstep
    obtain ⟨hfresh, hcall⟩ := restrict_eq_some.mp hstep
    obtain ⟨t, ht, hend⟩ := hx.callback hfresh
    rw [hcall] at ht
    cases ht
    exact hend
  have hperm := hs.perm
  rw [List.append_nil] at hperm
  refine ⟨hperm, hs.bound, fun before after hlog r hmem => ?_, fun hdone => ?_, fun a hfresh => ?_⟩
  · have horder := hs.order
    rw [hlog] at horder
    have hafter := (List.pairwise_cons.mp (List.pairwise_append.mp horder).2.1).1
    exact hafter _ hmem rfl r rfl
  · simp only [doneAllJobs, decide_eq_true_eq, List.length_eq_zero_iff] at hdone
    have hlen := hperm.length_eq
    simpa [hdone.1, hdone.2] using hlen
  · obtain ⟨t, ht, -⟩ := hs.callback hfresh
    exact ⟨t, restrict_eq_some.mpr ⟨hfresh, ht⟩⟩

/-- One worker and one server. -/
def testConfig (maxNumAttempt : ℤ) : Config where
  numWorker := 1
  numServer := 1
  maxNumAttempt := maxNumAttempt
  success := 0
  killedExceededPmem := some (-104)
  killedExceededVmem := some (-103)

/-- The worker fails once and is launched again, on a node that is not on the black list; then the server
exceeds its memory after the worker has finished. -/
def testCallbacks : List Callback :=
  [.onContainersAllocated [⟨1, "a"⟩, ⟨2, "b"⟩], .onContainersCompleted [⟨1, 1⟩, ⟨1, 1⟩], .onStartContainerError 1,
    .onContainersAllocated [⟨3, "a"⟩, ⟨4, "b"⟩], .onContainersCompleted [⟨4, 0⟩, ⟨2, -104⟩, ⟨4, 1⟩]]

theorem tasks_accounted_two : ∃ s, Reachable (ApplicationMaster.step (testConfig 3)) (init (testConfig 3)) s ∧
    s.finishedTasks = [0] ∧ s.killedTasks = [1] ∧ s.launches 0 = 2 ∧ s.doneAllJobs = true ∧
      (s.pendingTasks ++ s.runningTasks.map Prod.snd ++ s.finishedTasks ++ s.killedTasks).Perm [0, 1] := by
  have hrun : (exec (ApplicationMaster.step (testConfig 3)) (init (testConfig 3)) testCallbacks).map
      (fun s => (s.finishedTasks, s.killedTasks, s.launches 0, s.doneAllJobs)) = some ([0], [1], 2, true) := by
    decide +kernel
  obtain ⟨s, hs, heq⟩ := Option.map_eq_some_iff.mp hrun
  simp only [Prod.mk.injEq] at heq
  have h : Reachable (ApplicationMaster.step (testConfig 3)) (init (testConfig 3)) s := ⟨_, hs⟩
  exact ⟨s, h, heq.1, heq.2.1, heq.2.2.1, heq.2.2.2, (tasks_accounted h).1⟩

/-- A task is launched once even if no attempt is allowed. -/
theorem launched_without_attempts : ∃ s, Reachable (ApplicationMaster.step (testConfig 0)) (init (testConfig 0)) s ∧
    ¬ (s.launches 0 : ℤ) ≤ (testConfig 0).maxNumAttempt := by
  have hrun : (exec (ApplicationMaster.step (testConfig 0)) (init (testConfig 0))
      [.onContainersAllocated [⟨1, "a"⟩]]).map (fun s => s.launches 0) = some 1 := by decide +kernel
  obtain ⟨s, hs, heq⟩ := Option.map_eq_some_iff.mp hrun
  exact ⟨s, ⟨_, hs⟩, by rw [heq]; decide⟩

end Hpps.Yarn.ApplicationMaster

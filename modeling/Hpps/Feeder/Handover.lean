import Hpps.Feeder.Feeder

/-! The task of a record goes through the threads as through one hand, whatever is done for the other records. -/
namespace Hpps.Feeder

open TransitionSystem

variable {ρ β : Type} {T : ℕ} {assembleBatch : ℕ → ρ → Except Stop (β × ρ)} {batchSize sampleCount : ℕ}

/-- What there is to say of a record from which `k` batches were made, and of the next batch. -/
structure Stages (assembleBatch : ℕ → ρ → Except Stop (β × ρ)) (batchSize sampleCount : ℕ) where
  ready : ℕ → ρ → Prop
  good : ℕ → β → Prop
  assemble : ∀ k r batch r', ready k r → k * batchSize + batchSize ≤ sampleCount →
    assembleBatch batchSize r = .ok (batch, r') → good k batch ∧ ready (k + 1) r'

namespace FeederState

variable {plans : List (Plan ρ)} {s s' : FeederState ρ β T} {t u : Fin T} {a : FeederMove T} {p : Position ρ β}
  {i j id k : ℕ} {plan : Plan ρ} {record : SampleRecord ρ} {task : Task ρ} {batch : β}
  {st : Stages assembleBatch batchSize sampleCount}

/-- The plan and the task that a thread holds. -/
def held : Position ρ β → Option (ℕ × Task ρ)
  | .visit _ | .pop _ => none
  | .assemble i task | .push i task _ | .putBack i task => some (i, task)

/-- A thread holds the task of record `id` of plan `i`. -/
def Holding (i id : ℕ) (p : Position ρ β) : Prop := ∃ task, held p = some (i, task) ∧ task.id = id

/-- The tasks of the record that are in the queue. -/
def queued (s : FeederState ρ β T) (i id : ℕ) : List (Task ρ) := (s.taskQueues i).filter fun task => task.id = id

/-- The batches of the record in the order in which they were pushed. -/
def batches (s : FeederState ρ β T) (i id : ℕ) : List β :=
  (s.pushed.filter fun p => p.1 = i ∧ p.2.1 = id).map fun p => p.2.2

/-- The task of the record is neither in the queue nor with a thread. -/
def Gone (s : FeederState ρ β T) (i id : ℕ) : Prop := queued s i id = [] ∧ ∀ t, ¬ Holding i id (s.threads t)

/-- The task of a record from which `k` batches were made. -/
structure AtBatch (st : Stages assembleBatch batchSize sampleCount) (id k : ℕ) (task : Task ρ) : Prop where
  id : task.id = id
  curr : task.curr = k * batchSize
  le : k * batchSize ≤ sampleCount
  count : task.sampleCount = sampleCount
  ready : st.ready k task.recordIo

/-- Where the only task of the record is, with as many batches made of it as were pushed, or one more. -/
inductive Standing (st : Stages assembleBatch batchSize sampleCount) (i id : ℕ) (s : FeederState ρ β T) : Prop
  | queued {task : Task ρ} (hq : queued s i id = [task]) (hfree : ∀ t, ¬ Holding i id (s.threads t))
      (h : AtBatch st id (batches s i id).length task)
  | assemble {t : Fin T} {task : Task ρ} (hq : FeederState.queued s i id = []) (ht : s.threads t = .assemble i task)
      (hfree : ∀ u ≠ t, ¬ Holding i id (s.threads u)) (h : AtBatch st id (batches s i id).length task)
  | push {t : Fin T} {task : Task ρ} {batch : β} (hq : FeederState.queued s i id = []) (ht : s.threads t = .push i task batch)
      (hfree : ∀ u ≠ t, ¬ Holding i id (s.threads u)) (h : AtBatch st id ((batches s i id).length + 1) task)
      (hgood : st.good (batches s i id).length batch)
  | putBack {t : Fin T} {task : Task ρ} (hq : FeederState.queued s i id = []) (ht : s.threads t = .putBack i task)
      (hfree : ∀ u ≠ t, ¬ Holding i id (s.threads u)) (h : AtBatch st id (batches s i id).length task)
  | gone (h : Gone s i id) (hcount : (batches s i id).length = sampleCount / batchSize)

/-- All batches that were pushed are good. -/
structure Handed (st : Stages assembleBatch batchSize sampleCount) (i id : ℕ) (s : FeederState ρ β T) : Prop where
  standing : Standing st i id s
  good : ∀ k batch, (batches s i id)[k]? = some batch → st.good k batch

theorem holding_of_held (h : held p = some (j, task)) : Holding i id p ↔ j = i ∧ task.id = id := by
  constructor
  · rintro ⟨task', h', hid⟩
    cases h.symm.trans h'
    exact ⟨rfl, hid⟩
  · rintro ⟨rfl, hid⟩
    exact ⟨task, h, hid⟩

theorem not_holding (h : held p = none) : ¬ Holding i id p := by
  rintro ⟨task, htask, -⟩
  cases h.symm.trans htask

theorem not_holding_other (h : held p = some (j, task)) (hmine : ¬ (j = i ∧ task.id = id)) : ¬ Holding i id p :=
  fun hno => hmine ((holding_of_held h).mp hno)

/-- What is done without the task of the record. -/
theorem Standing.frame (h : Standing st i id s) (hq : FeederState.queued s' i id = FeederState.queued s i id)
    (hb : batches s' i id = batches s i id)
    (hthreads : ∀ u, s'.threads u = s.threads u ∨ ¬ Holding i id (s.threads u) ∧ ¬ Holding i id (s'.threads u)) :
    Standing st i id s' := by
  have hfree : ∀ u, ¬ Holding i id (s.threads u) → ¬ Holding i id (s'.threads u) := by
    intro u hu
    rcases hthreads u with heq | ⟨-, hno⟩
    · rwa [heq]
    · exact hno
  have hsame : ∀ u, Holding i id (s.threads u) → s'.threads u = s.threads u := by
    intro u hu
    rcases hthreads u with heq | ⟨hno, -⟩
    · exact heq
    · exact absurd hu hno
  cases h with
  | queued hq' hfree' h => exact .queued (hq.trans hq') (fun u => hfree u (hfree' u)) (hb ▸ h)
  | assemble hq' ht hfree' h =>
    exact .assemble (hq.trans hq') ((hsame _ ⟨_, by rw [ht]; rfl, h.id⟩).trans ht) (fun u hu => hfree u (hfree' u hu)) (hb ▸ h)
  | push hq' ht hfree' h hgood =>
    exact .push (hq.trans hq') ((hsame _ ⟨_, by rw [ht]; rfl, h.id⟩).trans ht) (fun u hu => hfree u (hfree' u hu)) (hb ▸ h)
      (hb ▸ hgood)
  | putBack hq' ht hfree' h =>
    exact .putBack (hq.trans hq') ((hsame _ ⟨_, by rw [ht]; rfl, h.id⟩).trans ht) (fun u hu => hfree u (hfree' u hu)) (hb ▸ h)
  | gone h hcount => exact .gone ⟨hq.trans h.1, fun u => hfree u (h.2 u)⟩ (by rw [hb, hcount])

/-- A thread that holds the task is the only one, and the task is not in the queue. -/
theorem Standing.of_holding (h : Standing st i id s) (ht : Holding i id (s.threads t)) :
    FeederState.queued s i id = [] ∧ (∀ u ≠ t, ¬ Holding i id (s.threads u)) ∧
      ((∃ task, s.threads t = .assemble i task ∧ AtBatch st id (batches s i id).length task) ∨
        (∃ task batch, s.threads t = .push i task batch ∧ AtBatch st id ((batches s i id).length + 1) task ∧
          st.good (batches s i id).length batch) ∨
        ∃ task, s.threads t = .putBack i task ∧ AtBatch st id (batches s i id).length task) := by
  have honly : ∀ u, (∀ v ≠ u, ¬ Holding i id (s.threads v)) → t = u := by
    intro u hfree
    by_contra hne
    exact hfree t hne ht
  cases h with
  | queued hq hfree h => exact absurd ht (hfree t)
  | assemble hq ht' hfree h =>
    obtain rfl := honly _ hfree
    exact ⟨hq, hfree, .inl ⟨_, ht', h⟩⟩
  | push hq ht' hfree h hgood =>
    obtain rfl := honly _ hfree
    exact ⟨hq, hfree, .inr (.inl ⟨_, _, ht', h, hgood⟩)⟩
  | putBack hq ht' hfree h =>
    obtain rfl := honly _ hfree
    exact ⟨hq, hfree, .inr (.inr ⟨_, ht', h⟩)⟩
  | gone h hcount => exact absurd ht (h.2 t)

theorem Standing.of_assemble (h : Standing st i id s) (ht : s.threads t = .assemble i task) (hid : task.id = id) :
    FeederState.queued s i id = [] ∧ (∀ u ≠ t, ¬ Holding i id (s.threads u)) ∧
      AtBatch st id (batches s i id).length task := by
  obtain ⟨hq, hfree, ⟨task', ht', hat⟩ | ⟨task', batch', ht', -⟩ | ⟨task', ht', -⟩⟩ :=
    h.of_holding (t := t) (by rw [ht]; exact ⟨task, rfl, hid⟩)
  · cases ht.symm.trans ht'
    exact ⟨hq, hfree, hat⟩
  · cases ht.symm.trans ht'
  · cases ht.symm.trans ht'

theorem Standing.of_push (h : Standing st i id s) (ht : s.threads t = .push i task batch) (hid : task.id = id) :
    FeederState.queued s i id = [] ∧ (∀ u ≠ t, ¬ Holding i id (s.threads u)) ∧
      AtBatch st id ((batches s i id).length + 1) task ∧ st.good (batches s i id).length batch := by
  obtain ⟨hq, hfree, ⟨task', ht', -⟩ | ⟨task', batch', ht', hat, hgood⟩ | ⟨task', ht', -⟩⟩ :=
    h.of_holding (t := t) (by rw [ht]; exact ⟨task, rfl, hid⟩)
  · cases ht.symm.trans ht'
  · cases ht.symm.trans ht'
    exact ⟨hq, hfree, hat, hgood⟩
  · cases ht.symm.trans ht'

theorem Standing.of_putBack (h : Standing st i id s) (ht : s.threads t = .putBack i task) (hid : task.id = id) :
    FeederState.queued s i id = [] ∧ (∀ u ≠ t, ¬ Holding i id (s.threads u)) ∧
      AtBatch st id (batches s i id).length task := by
  obtain ⟨hq, hfree, ⟨task', ht', -⟩ | ⟨task', batch', ht', -⟩ | ⟨task', ht', hat⟩⟩ :=
    h.of_holding (t := t) (by rw [ht]; exact ⟨task, rfl, hid⟩)
  · cases ht.symm.trans ht'
  · cases ht.symm.trans ht'
  · cases ht.symm.trans ht'
    exact ⟨hq, hfree, hat⟩

theorem Standing.of_queued (h : Standing st i id s) (hq : task ∈ FeederState.queued s i id) :
    FeederState.queued s i id = [task] ∧ (∀ t, ¬ Holding i id (s.threads t)) ∧
      AtBatch st id (batches s i id).length task := by
  cases h with
  | queued hq' hfree h =>
    rw [hq', List.mem_singleton] at hq
    subst hq
    exact ⟨hq', hfree, h⟩
  | assemble hq' | push hq' | putBack hq' =>
    rw [hq'] at hq
    exact absurd hq List.not_mem_nil
  | gone h =>
    rw [h.1] at hq
    exact absurd hq List.not_mem_nil

theorem Standing.length_le (h : Standing st i id s) (hpos : 0 < batchSize) :
    (batches s i id).length ≤ sampleCount / batchSize := by
  cases h with
  | queued _ _ h | assemble _ _ _ h | putBack _ _ _ h => exact (Nat.le_div_iff_mul_le hpos).mpr h.le
  | push _ _ _ h => exact (Nat.le_succ _).trans ((Nat.le_div_iff_mul_le hpos).mpr h.le)
  | gone _ hcount => exact hcount.le

theorem AtBatch.eq_div (h : AtBatch st id k task) (hpos : 0 < batchSize) (hlt : sampleCount < k * batchSize + batchSize) :
    k = sampleCount / batchSize := by
  have hle := (Nat.le_div_iff_mul_le hpos).mpr h.le
  have hgt : sampleCount / batchSize < k + 1 := by
    rw [Nat.div_lt_iff_lt_mul hpos, Nat.succ_mul]
    exact hlt
  omega

/-! ### A step -/

theorem Handed.frame (h : Handed st i id s) (hq : queued s' i id = queued s i id) (hb : batches s' i id = batches s i id)
    (hthreads : s'.threads = Function.update s.threads t p) (hold : ¬ Holding i id (s.threads t)) (hnew : ¬ Holding i id p) :
    Handed st i id s' := by
  refine ⟨h.standing.frame hq hb fun u => ?_, hb ▸ h.good⟩
  rw [hthreads]
  by_cases hu : u = t
  · subst hu
    rw [Function.update_self]
    exact .inr ⟨hold, hnew⟩
  · exact .inl (Function.update_of_ne hu ..)

theorem free_update (hfree : ∀ u ≠ t, ¬ Holding i id (s.threads u)) (hp : ¬ Holding i id p) :
    ∀ u, ¬ Holding i id ((s.setThread t p).threads u) := by
  intro u
  by_cases hu : u = t
  · rw [hu]
    simpa [setThread] using hp
  · simpa [setThread, hu] using hfree u hu

theorem free_update_of_ne (hfree : ∀ u ≠ t, ¬ Holding i id (s.threads u)) :
    ∀ u ≠ t, ¬ Holding i id ((s.setThread t p).threads u) := by
  intro u hu
  simpa [setThread, hu] using hfree u hu

theorem queued_update_self {tasks : List (Task ρ)} :
    queued ({ s with taskQueues := Function.update s.taskQueues j tasks }.setThread t p) j id =
      tasks.filter fun task => task.id = id := by
  simp [queued, setThread]

theorem queued_update_of_ne {tasks : List (Task ρ)} (hj : j ≠ i) :
    queued ({ s with taskQueues := Function.update s.taskQueues j tasks }.setThread t p) i id = queued s i id := by
  simp [queued, setThread, hj.symm]

theorem Handed.pop {tasks : List (Task ρ)} (h : Handed st i id s) (ht : s.threads t = .pop j)
    (hq : s.taskQueues j = task :: tasks) :
    Handed st i id ({ s with taskQueues := Function.update s.taskQueues j tasks }.setThread t (.assemble j task)) := by
  by_cases hmine : j = i ∧ task.id = id
  · obtain ⟨rfl, hid⟩ := hmine
    have hqueued : queued s j id = task :: tasks.filter fun task => task.id = id := by
      rw [queued, hq, List.filter_cons_of_pos (by simpa using hid)]
    obtain ⟨hone, hfree, hat⟩ := h.standing.of_queued
      (show task ∈ queued s j id by rw [hqueued]; exact List.mem_cons_self)
    rw [hqueued, List.cons_inj_right] at hone
    refine ⟨.assemble (t := t) ?_ (Function.update_self ..) (free_update_of_ne fun u _ => hfree u) hat, h.good⟩
    exact queued_update_self.trans hone
  · refine h.frame ?_ rfl rfl (by rw [ht]; exact not_holding rfl) (not_holding_other rfl hmine)
    by_cases hj : j = i
    · subst hj
      refine queued_update_self.trans ?_
      rw [queued, hq, List.filter_cons_of_neg (by simpa using fun hid => hmine ⟨rfl, hid⟩)]
    · exact queued_update_of_ne hj

theorem Handed.assemble {recordIo : ρ} (h : Handed st i id s) (hplan : plans[i]? = some plan)
    (hsize : plan.batchSize = batchSize) (ht : s.threads t = .assemble j task) {plan' : Plan ρ} (hp : plans[j]? = some plan')
    (hle : task.curr + plan'.batchSize ≤ task.sampleCount)
    (hok : assembleBatch plan'.batchSize task.recordIo = .ok (batch, recordIo)) :
    Handed st i id (s.setThread t (.push j { task with curr := task.curr + plan'.batchSize, recordIo } batch)) := by
  by_cases hmine : j = i ∧ task.id = id
  · obtain ⟨rfl, hid⟩ := hmine
    cases hplan.symm.trans hp
    subst hsize
    obtain ⟨hq, hfree, hat⟩ := h.standing.of_assemble ht hid
    rw [hat.curr, hat.count] at hle
    obtain ⟨hgood, hready⟩ := st.assemble _ _ _ _ hat.ready hle hok
    have hnext : AtBatch st id ((batches s j id).length + 1)
        { task with curr := task.curr + plan.batchSize, recordIo } := by
      refine ⟨hat.id, ?_, ?_, hat.count, hready⟩
      · exact (congrArg (· + plan.batchSize) hat.curr).trans (Nat.succ_mul ..).symm
      · rw [Nat.succ_mul]
        exact hle
    exact ⟨.push (t := t) hq (Function.update_self ..) (free_update_of_ne hfree) hnext hgood, h.good⟩
  · refine h.frame rfl rfl rfl (by rw [ht]; exact not_holding_other rfl hmine) fun hno => ?_
    obtain ⟨hj, hid⟩ := (holding_of_held rfl).mp hno
    exact hmine ⟨hj, hid⟩

theorem Handed.drop (h : Handed st i id s) (hplan : plans[i]? = some plan) (hsize : plan.batchSize = batchSize)
    (hpos : 0 < batchSize) (ht : s.threads t = .assemble j task) {plan' : Plan ρ} (hp : plans[j]? = some plan')
    (hlt : task.sampleCount < task.curr + plan'.batchSize) : Handed st i id (s.setThread t (.visit (j + 1))) := by
  by_cases hmine : j = i ∧ task.id = id
  · obtain ⟨rfl, hid⟩ := hmine
    cases hplan.symm.trans hp
    subst hsize
    obtain ⟨hq, hfree, hat⟩ := h.standing.of_assemble ht hid
    rw [hat.curr, hat.count] at hlt
    exact ⟨.gone ⟨hq, free_update hfree (not_holding rfl)⟩ (hat.eq_div hpos hlt), h.good⟩
  · exact h.frame rfl rfl rfl (by rw [ht]; exact not_holding_other rfl hmine) (not_holding rfl)

theorem Handed.push (h : Handed st i id s) (ht : s.threads t = .push j task batch) :
    Handed st i id ({ s with
      blockingQueues := Function.update s.blockingQueues j (s.blockingQueues j ++ [batch])
      pushed := s.pushed ++ [(j, task.id, batch)] }.setThread t (.putBack j task)) := by
  by_cases hmine : j = i ∧ task.id = id
  · obtain ⟨rfl, hid⟩ := hmine
    obtain ⟨hq, hfree, hat, hgood⟩ := h.standing.of_push ht hid
    generalize hs' : ({ s with
      blockingQueues := Function.update s.blockingQueues j (s.blockingQueues j ++ [batch])
      pushed := s.pushed ++ [(j, task.id, batch)] }.setThread t (.putBack j task) : FeederState ρ β T) = s'
    have hb : batches s' j id = batches s j id ++ [batch] := by
      subst hs'
      simp [batches, setThread, List.filter_append, hid]
    have hq' : queued s' j id = [] := by
      subst hs'
      exact hq
    have ht' : s'.threads t = .putBack j task := by
      subst hs'
      exact Function.update_self ..
    have hfree' : ∀ u ≠ t, ¬ Holding j id (s'.threads u) := by
      subst hs'
      exact free_update_of_ne hfree
    refine ⟨.putBack hq' ht' hfree' ?_, fun k b hk => ?_⟩
    · rw [hb, List.length_append, List.length_singleton]
      exact hat
    · rw [hb] at hk
      rcases lt_trichotomy k (batches s j id).length with hlt | rfl | hgt
      · rw [List.getElem?_append_left hlt] at hk
        exact h.good k b hk
      · rw [List.getElem?_concat_length, Option.some_inj] at hk
        exact hk ▸ hgood
      · rw [List.getElem?_eq_none (by simpa using hgt)] at hk
        cases hk
  · refine h.frame rfl ?_ rfl (by rw [ht]; exact not_holding_other rfl hmine)
      (not_holding_other rfl hmine)
    have hother : ([(j, task.id, batch)].filter fun p => decide (p.1 = i ∧ p.2.1 = id)) = [] :=
      List.filter_cons_of_neg (by simpa using fun hj hid => hmine ⟨hj, hid⟩)
    simp only [batches, setThread, List.filter_append, hother, List.append_nil]

theorem Handed.putBack (h : Handed st i id s) (ht : s.threads t = .putBack j task) :
    Handed st i id ({ s with taskQueues := Function.update s.taskQueues j (task :: s.taskQueues j) }.setThread t
      (.visit (j + 1))) := by
  by_cases hmine : j = i ∧ task.id = id
  · obtain ⟨rfl, hid⟩ := hmine
    obtain ⟨hq, hfree, hat⟩ := h.standing.of_putBack ht hid
    refine ⟨.queued ?_ (free_update hfree (not_holding rfl)) hat, h.good⟩
    refine queued_update_self.trans ?_
    rw [List.filter_cons_of_pos (by simpa using hid), List.cons_inj_right]
    exact hq
  · refine h.frame ?_ rfl rfl (by rw [ht]; exact not_holding_other rfl hmine) (not_holding rfl)
    by_cases hj : j = i
    · subst hj
      refine queued_update_self.trans ?_
      rw [List.filter_cons_of_neg (by simpa using fun hid => hmine ⟨rfl, hid⟩)]
      rfl
    · exact queued_update_of_ne hj

theorem Handed.finish (h : Handed st i id s) (hpos : 0 < batchSize) (ht : s.threads t = .putBack j task)
    (hge : task.sampleCount ≤ task.curr) : Handed st i id (s.setThread t (.visit (j + 1))) := by
  by_cases hmine : j = i ∧ task.id = id
  · obtain ⟨rfl, hid⟩ := hmine
    obtain ⟨hq, hfree, hat⟩ := h.standing.of_putBack ht hid
    rw [hat.curr, hat.count] at hge
    exact ⟨.gone ⟨hq, free_update hfree (not_holding rfl)⟩ (hat.eq_div hpos (by omega)), h.good⟩
  · exact h.frame rfl rfl rfl (by rw [ht]; exact not_holding_other rfl hmine) (not_holding rfl)

theorem Handed.step (h : Handed st i id s) (hplan : plans[i]? = some plan) (hsize : plan.batchSize = batchSize)
    (hpos : 0 < batchSize) (hs : step assembleBatch plans s a = some s') : Handed st i id s' := by
  cases (step_outcome hs).2 with
  | skip ht | enter ht => exact h.frame rfl rfl rfl (by rw [ht]; exact not_holding rfl) (not_holding rfl)
  | pop ht hq => exact h.pop ht hq
  | assemble ht hp hle hok => exact h.assemble hplan hsize ht hp hle hok
  | drop ht hp hlt => exact h.drop hplan hsize hpos ht hp hlt
  | push ht => exact h.push ht
  | putBack ht => exact h.putBack ht
  | finish ht hge => exact h.finish hpos ht hge
  | assembleStop | consume => exact ⟨h.standing.frame rfl rfl fun u => .inl rfl, h.good⟩

/-! ### A run -/

theorem filter_tasks {l : List (SampleRecord ρ)} {n : ℕ} :
    (((l.zipIdx n).map fun r => (⟨r.2, 0, r.1.sampleCount, r.1.recordIo⟩ : Task ρ)).filter fun task => task.id = n + k) =
      (l[k]?.map fun r => (⟨n + k, 0, r.sampleCount, r.recordIo⟩ : Task ρ)).toList := by
  induction l generalizing n k with
  | nil => rfl
  | cons r l ih =>
    rw [List.zipIdx_cons, List.map_cons]
    cases k with
    | zero =>
      have hnone : (((l.zipIdx (n + 1)).map fun r => (⟨r.2, 0, r.1.sampleCount, r.1.recordIo⟩ : Task ρ)).filter
          fun task => task.id = n) = [] := by
        rw [List.filter_eq_nil_iff]
        intro task htask
        obtain ⟨⟨r', m⟩, hr', rfl⟩ := List.mem_map.mp htask
        have := (List.mem_zipIdx hr').1
        simp only [decide_eq_true_eq]
        omega
      rw [Nat.add_zero, List.filter_cons_of_pos (by simp), hnone]
      rfl
    | succ k =>
      have hih := ih (n := n + 1) (k := k)
      rw [Nat.add_right_comm, Nat.add_assoc] at hih
      rw [List.filter_cons_of_neg (by simp), hih]
      rfl

theorem handed_init (hplan : plans[i]? = some plan) (hrecord : plan.sampleRecord[id]? = some record)
    (hcount : record.sampleCount = sampleCount) (hready : st.ready 0 record.recordIo) :
    Handed st i id (init plans : FeederState ρ β T) := by
  have hq : queued (init plans : FeederState ρ β T) i id = [⟨id, 0, record.sampleCount, record.recordIo⟩] := by
    have htasks := filter_tasks (l := plan.sampleRecord) (n := 0) (k := id)
    rw [Nat.zero_add, hrecord] at htasks
    have htasksOf : (init plans : FeederState ρ β T).taskQueues i = tasksOf plan := by simp [init, hplan]
    rw [queued, htasksOf, tasksOf]
    simpa using htasks
  exact ⟨.queued hq (fun _ => not_holding rfl) ⟨rfl, (Nat.zero_mul _).symm, by simp [batches, init], hcount, hready⟩,
    fun k batch hk => by simp [batches, init] at hk⟩

theorem handed_of_reachable (hplan : plans[i]? = some plan) (hsize : plan.batchSize = batchSize) (hpos : 0 < batchSize)
    (hrecord : plan.sampleRecord[id]? = some record) (hcount : record.sampleCount = sampleCount)
    (hready : st.ready 0 record.recordIo) (h : Reachable (FeederState.step assembleBatch plans) (init plans) s) :
    Handed st i id s :=
  h.invariant (handed_init hplan hrecord hcount hready) fun _ _ _ hx hs => hx.step hplan hsize hpos hs

/-- The `k`-th batch of a record is made from the record after `k` batches, there are no more than the record has full
batches, and just as many when its task is gone. -/
theorem Handed.over (h : Handed st i id s) (hpos : 0 < batchSize) :
    (∀ k batch, (batches s i id)[k]? = some batch → st.good k batch) ∧
      (batches s i id).length ≤ sampleCount / batchSize ∧
      (Gone s i id → (batches s i id).length = sampleCount / batchSize) := by
  refine ⟨h.good, h.standing.length_le hpos, fun hgone => ?_⟩
  cases h.standing with
  | queued hq =>
    rw [hgone.1] at hq
    cases hq
  | assemble _ ht _ h | push _ ht _ h | putBack _ ht _ h => exact absurd ⟨_, by rw [ht]; rfl, h.id⟩ (hgone.2 _)
  | gone _ hcount => exact hcount

end FeederState
end Hpps.Feeder

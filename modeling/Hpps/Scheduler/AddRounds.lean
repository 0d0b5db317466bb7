import Hpps.Lib.Rounds
import Hpps.Scheduler.Lockstep

/-! Lockstep workers whose program has no two Adds in a row: their Adds are served in rounds. -/
namespace Hpps.Scheduler.Workload

open SyncScheduler VectorClock Rounds

variable {K : ℕ} {D : Type} {W : Workload K D} {x y : System K D} {t : SyncScheduler K D}
  {u v w : Fin K} {o : Op} {l m : List (Call K D)} {c : Call K D}

/-- No Add directly follows another. -/
def Spaced (W : Workload K D) : Prop :=
  ∀ i, W.prog[i]? = some .add → W.prog[i + 1]? ≠ some .add

/-- What an arrival does that passes the CHECKs, whatever the counters of the clocks. -/
inductive Effect (W : Workload K D) (x : System K D) (w : Fin K) (t : SyncScheduler K D) : Op → Prop
  | addCached
      (served : t.served = x.sched.served)
      (adds : t.msgAddCache = x.sched.msgAddCache ++ [W.request w (x.sent w) .add])
      (gets : t.msgGetCache = x.sched.msgGetCache) : Effect W x w t .add
  | addServed
      (served : t.served = x.sched.served ++ [W.call w (x.sent w) .add])
      (adds : t.msgAddCache = x.sched.msgAddCache)
      (gets : t.msgGetCache = x.sched.msgGetCache) : Effect W x w t .add
  | addFlush
      (full : (x.sched.workerAddClocks.update w).2 = true)
      (served : t.served = x.sched.served ++ W.call w (x.sent w) .add ::
        x.sched.msgGetCache.map (Call.mk .get))
      (noAdds : x.sched.msgAddCache = []) (adds : t.msgAddCache = [])
      (gets : t.msgGetCache = []) : Effect W x w t .add
  | getCached
      (served : t.served = x.sched.served)
      (adds : t.msgAddCache = x.sched.msgAddCache)
      (gets : t.msgGetCache = x.sched.msgGetCache ++ [W.request w (x.sent w) .get]) :
      Effect W x w t .get
  | getServed
      (least : ∀ j, x.sched.count .add w ≤ x.sched.count .add j)
      (served : t.served = x.sched.served ++ [W.call w (x.sent w) .get])
      (adds : t.msgAddCache = x.sched.msgAddCache)
      (gets : t.msgGetCache = x.sched.msgGetCache) : Effect W x w t .get
  | getFlush
      (least : ∀ j, x.sched.count .add w ≤ x.sched.count .add j)
      (served : t.served = x.sched.served ++ W.call w (x.sent w) .get ::
        x.sched.msgAddCache.map (Call.mk .add))
      (adds : t.msgAddCache = []) (gets : t.msgGetCache = x.sched.msgGetCache) :
      Effect W x w t .get

theorem Ledger.effect_add (h : Ledger W x) (hidle : x.sched.replies w = x.sent w)
    (ht : processAdd x.sched (W.request w (x.sent w) .add) = some t) :
    t.Clocked ∧ Effect W x w t .add := by
  by_cases hw : ∃ j, x.sched.count .get j < x.sched.count .get w
  · obtain ⟨t', ht', hc, hs, ha, hg⟩ := processAdd_cached (m := W.request w (x.sent w) .add) h.clocked hw
    rw [ht] at ht'
    cases ht'
    exact ⟨hc, .addCached hs ha hg⟩
  push Not at hw
  cases hfull : (x.sched.workerAddClocks.update w).2 with
  | false =>
    obtain ⟨t', ht', hc, hs, ha, hg⟩ := processAdd_served (m := W.request w (x.sent w) .add) h.clocked
      data_ne_nil hw hfull
    rw [ht] at ht'
    cases ht'
    exact ⟨hc, .addServed hs ha hg⟩
  | true =>
    have hnil : x.sched.msgAddCache = [] := by
      by_contra hne
      have := processAdd_check_fails (m := W.request w (x.sent w) .add) h.clocked hw hfull hne
      rw [ht] at this
      cases this
    have hown : ∀ r ∈ x.sched.msgGetCache, r.worker ≠ w := by
      rintro r hr rfl
      have := lt_sent_of_wait h (List.mem_append_right _ hr)
      omega
    obtain ⟨t', ht', hc, hs, ha, hg⟩ := processAdd_flush (m := W.request w (x.sent w) .add) h.clocked
      data_ne_nil hw hfull hnil h.data_get hown
    rw [ht] at ht'
    cases ht'
    exact ⟨hc, .addFlush hfull hs hnil ha hg⟩

theorem Ledger.effect_get (h : Ledger W x)
    (ht : processGet x.sched (W.request w (x.sent w) .get) = some t) :
    t.Clocked ∧ Effect W x w t .get := by
  by_cases hw : (∃ j, x.sched.count .add j < x.sched.count .add w) ∨
      ∃ r ∈ x.sched.msgAddCache, r.worker = w
  · obtain ⟨t', ht', hc, hs, ha, hg⟩ := processGet_cached (m := W.request w (x.sent w) .get) h.clocked hw
    rw [ht] at ht'
    cases ht'
    exact ⟨hc, .getCached hs ha hg⟩
  push Not at hw
  cases hfull : (x.sched.workerGetClocks.update w).2 with
  | false =>
    obtain ⟨t', ht', hc, hs, ha, hg⟩ := processGet_served (m := W.request w (x.sent w) .get) h.clocked
      data_ne_nil hw.1 hw.2 hfull
    rw [ht] at ht'
    cases ht'
    exact ⟨hc, .getServed hw.1 hs ha hg⟩
  | true =>
    obtain ⟨t', ht', hc, hs, ha, hg⟩ := processGet_flush (m := W.request w (x.sent w) .get) h.clocked
      data_ne_nil hw.1 hw.2 hfull h.data_add
    rw [ht] at ht'
    cases ht'
    exact ⟨hc, .getFlush hw.1 hs ha hg⟩

theorem Ledger.effect (h : Ledger W x) (hidle : x.sched.replies w = x.sent w)
    (ht : process o x.sched (W.request w (x.sent w) o) = some t) : t.Clocked ∧ Effect W x w t o := by
  cases o with
  | get => exact h.effect_get ht
  | add => exact h.effect_add hidle ht

namespace Effect

theorem received_perm (h : Effect W x w t o) :
    t.received.Perm (x.sched.received ++ [W.call w (x.sent w) o]) := by
  classical
  rw [List.perm_iff_count]
  intro c
  cases h <;> simp only [SyncScheduler.received, call, List.count_append, List.map_append,
    List.map_cons, List.map_nil, List.count_cons, List.count_nil, *] <;> omega

theorem served_cases (h : Effect W x w t o) :
    t.served = x.sched.served ∨ ∃ o' ms,
      t.served = x.sched.served ++ W.call w (x.sent w) o :: ms.map (Call.mk o') ∧
        (ms = [] ∨ ms = x.sched.msgAddCache ∧ o' = .add ∨ ms = x.sched.msgGetCache ∧ o' = .get) := by
  cases h with
  | addCached served adds gets => exact .inl served
  | addServed served adds gets => exact .inr ⟨.add, [], served, .inl rfl⟩
  | addFlush full served noAdds adds gets =>
    exact .inr ⟨.get, _, served, .inr (.inr ⟨rfl, rfl⟩)⟩
  | getCached served adds gets => exact .inl served
  | getServed least served adds gets => exact .inr ⟨.add, [], served, .inl rfl⟩
  | getFlush least served adds gets =>
    exact .inr ⟨.add, _, served, .inr (.inl ⟨rfl, rfl⟩)⟩

theorem mem_cache (h : Effect W x w t o) {m : Request K D} (hm : m ∈ t.msgAddCache ++ t.msgGetCache) :
    m ∈ x.sched.msgAddCache ++ x.sched.msgGetCache ∨ m = W.request w (x.sent w) o := by
  cases h <;> simp_all <;> tauto

end Effect

/-! ### The log of the calls served -/

/-- The calls of each worker are its first ones. -/
def InOrder (W : Workload K D) (l : List (Call K D)) : Prop :=
  ∀ v, ∃ n ≤ W.prog.length, l.filter (fun c => c.msg.worker = v) = W.calls v n

/-- How many Adds of `v` were served. -/
def addsOf (l : List (Call K D)) (v : Fin K) : ℕ := l.countP fun c => c.op = .add ∧ c.msg.worker = v

/-- The Adds served. -/
def addLog (l : List (Call K D)) : List (Call K D) := l.filter fun c => c.op = .add

/-- The last call of `v`, if there is one, is no Add. -/
def Fresh (W : Workload K D) (l : List (Call K D)) (v : Fin K) : Prop :=
  ∀ i, (l.countP fun c => c.msg.worker = v) = i + 1 → W.prog[i]? ≠ some .add

/-- Adds come in rounds, and a worker that was not served an Add last has not been served more of them
than the others. -/
structure Level (W : Workload K D) (l : List (Call K D)) : Prop where
  fair : Fair (fun c => c.msg.worker) (addLog l)
  least : ∀ v, Fresh W l v → ∀ u, addsOf l v ≤ addsOf l u

theorem turns_addLog : turns (fun c => c.msg.worker) (addLog l) v = addsOf l v := by
  rw [turns, addLog, List.countP_filter, addsOf]
  congr 1
  funext c
  simp [Bool.and_comm]

theorem InOrder.left (h : InOrder W (l ++ m)) : InOrder W l := by
  intro v
  obtain ⟨n, hn, hv⟩ := h v
  rw [List.filter_append] at hv
  refine ⟨(l.filter fun c => c.msg.worker = v).length, ?_, ?_⟩
  · have := congrArg List.length hv
    rw [List.length_append, length_calls hn] at this
    omega
  · obtain ⟨k, hk⟩ : ∃ k, n = (l.filter fun c => c.msg.worker = v).length + k := by
      have := congrArg List.length hv
      rw [List.length_append, length_calls hn] at this
      exact ⟨n - (l.filter fun c => c.msg.worker = v).length, by omega⟩
    obtain ⟨rest, hrest⟩ := calls_append (W := W) v (l.filter fun c => c.msg.worker = v).length k
    rw [hk, hrest] at hv
    refine (List.append_inj hv ?_).1
    rw [length_calls (by omega)]

/-- The next call of a worker is the next one of its program. -/
theorem InOrder.getElem?_next (h : InOrder W (l ++ [c])) :
    W.prog[l.countP fun d => d.msg.worker = c.msg.worker]? = some c.op := by
  obtain ⟨n, hn, hv⟩ := h c.msg.worker
  have hself : [c].filter (fun d => d.msg.worker = c.msg.worker) = [c] := by simp
  rw [List.filter_append, hself] at hv
  have hlen := congrArg List.length hv
  rw [List.length_append, List.length_singleton, length_calls hn, ← List.countP_eq_length_filter] at hlen
  obtain ⟨o, ho⟩ : ∃ o, W.prog[l.countP fun d => d.msg.worker = c.msg.worker]? = some o :=
    ⟨_, List.getElem?_eq_getElem (by omega)⟩
  rw [← hlen, calls_succ ho] at hv
  have := (List.append_inj' hv rfl).2
  rw [List.singleton_inj] at this
  rw [ho, this]
  rfl

/-- Before an Add of a worker stands no Add of it. -/
theorem InOrder.fresh (h : InOrder W (l ++ [c])) (hs : W.Spaced) (hc : c.op = .add) :
    Fresh W l c.msg.worker := by
  intro i hi hadd
  have := h.getElem?_next
  rw [hi, hc] at this
  exact hs i hadd this

theorem level_nil : Level W [] where
  fair := fair_nil
  least _ _ _ := le_of_eq_of_le rfl (Nat.zero_le _)

theorem addsOf_append_singleton :
    addsOf (l ++ [c]) v = addsOf l v + if c.op = .add ∧ c.msg.worker = v then 1 else 0 := by
  simp [addsOf, List.countP_append, List.countP_cons]

theorem fresh_append_of_ne (hv : c.msg.worker ≠ v) : Fresh W (l ++ [c]) v ↔ Fresh W l v := by
  simp [Fresh, List.countP_append, hv]

theorem Level.append_add (h : Level W l) (ho : InOrder W (l ++ [c])) (hs : W.Spaced) (hc : c.op = .add) :
    Level W (l ++ [c]) := by
  have hleast := h.least c.msg.worker (ho.fresh hs hc)
  have hlog : addLog (l ++ [c]) = addLog l ++ [c] := by simp [addLog, hc]
  refine ⟨?_, fun v hv u => ?_⟩
  · rw [hlog]
    apply h.fair.append_singleton
    intro v
    simp only [turns_addLog]
    exact hleast v
  · have hne : c.msg.worker ≠ v := by
      rintro rfl
      refine hv (l.countP fun d => d.msg.worker = c.msg.worker) (by simp [List.countP_append]) ?_
      rw [ho.getElem?_next, hc]
    have := h.least v ((fresh_append_of_ne hne).mp hv) u
    simp only [addsOf_append_singleton, hne, and_false, if_false]
    omega

theorem Level.append_get (h : Level W l) (hc : c.op = .get)
    (hleast : ∀ u, addsOf l c.msg.worker ≤ addsOf l u) : Level W (l ++ [c]) := by
  have hlog : addLog (l ++ [c]) = addLog l := by simp [addLog, hc]
  refine ⟨by rw [hlog]; exact h.fair, fun v hv u => ?_⟩
  have hcount : ∀ u, addsOf (l ++ [c]) u = addsOf l u := by
    intro u
    simp [addsOf_append_singleton, hc]
  rw [hcount, hcount]
  by_cases hne : c.msg.worker = v
  · subst hne
    exact hleast u
  · exact h.least v ((fresh_append_of_ne hne).mp hv) u

theorem Level.append_adds (h : Level W l) (hs : W.Spaced) {ms : List (Request K D)}
    (ho : InOrder W (l ++ ms.map (Call.mk .add))) : Level W (l ++ ms.map (Call.mk .add)) := by
  induction ms generalizing l with
  | nil => simpa using h
  | cons m ms ih =>
    have hsplit : l ++ (m :: ms).map (Call.mk .add) = (l ++ [⟨.add, m⟩]) ++ ms.map (Call.mk .add) := by simp
    rw [hsplit] at ho ⊢
    exact ih (h.append_add ho.left hs rfl) ho

/-- Once all have been served equally many Adds, any Gets may follow. -/
theorem Level.append_gets (h : Level W l) (heq : ∀ u v, addsOf l u = addsOf l v) {ms : List (Request K D)} :
    Level W (l ++ ms.map (Call.mk .get)) := by
  induction ms generalizing l with
  | nil => simpa using h
  | cons m ms ih =>
    have hsplit : l ++ (m :: ms).map (Call.mk .get) = (l ++ [⟨.get, m⟩]) ++ ms.map (Call.mk .get) := by simp
    rw [hsplit]
    apply ih
    · apply h.append_get rfl
      intro u
      exact (heq _ u).le
    · intro u v
      simp only [addsOf_append_singleton, reduceCtorEq, false_and, if_false]
      exact congrArg (· + 0) (heq u v)

/-- A round of Adds that is complete leaves all with equally many. -/
theorem addsOf_eq_of_full (hc : x.sched.Clocked) (h : Level W x.sched.served)
    (hleast : ∀ u, x.sched.count .add w ≤ x.sched.count .add u)
    (hfull : (x.sched.workerAddClocks.update w).2 = true) (v : Fin K) :
    bump (x.sched.count .add) w v = x.sched.count .add w + 1 := by
  have hskew : x.sched.count .add v ≤ x.sched.count .add w + 1 := by
    have := h.fair.turns_le v w
    rw [turns_addLog, turns_addLog] at this
    exact this
  by_cases hv : v = w
  · subst hv
    simp
  rw [bump_of_ne hv]
  by_contra hne
  have hopen : (x.sched.workerAddClocks.update w).2 = false := by
    apply hc.adds.update_false (Ne.symm (Ne.symm hv))
    intro u
    have := hleast u
    have := hleast v
    omega
  rw [hopen] at hfull
  cases hfull

theorem Level.step (h : Level W x.sched.served) (hs : W.Spaced) (hc : x.sched.Clocked)
    (ho : InOrder W t.served) (he : Effect W x w t o) : Level W t.served := by
  cases he with
  | addCached served adds gets => rwa [served]
  | getCached served adds gets => rwa [served]
  | addServed served adds gets =>
    rw [served] at ho ⊢
    exact h.append_add ho hs rfl
  | getServed least served adds gets =>
    rw [served]
    exact h.append_get (c := W.call w (x.sent w) .get) rfl least
  | getFlush least served adds gets =>
    have hsplit : x.sched.served ++ W.call w (x.sent w) .get :: x.sched.msgAddCache.map (Call.mk .add) =
        (x.sched.served ++ [W.call w (x.sent w) .get]) ++ x.sched.msgAddCache.map (Call.mk .add) := by simp
    rw [served, hsplit] at ho ⊢
    exact (h.append_get (c := W.call w (x.sent w) .get) rfl least).append_adds hs ho
  | addFlush full served noAdds adds gets =>
    have hsplit : x.sched.served ++ W.call w (x.sent w) .add :: x.sched.msgGetCache.map (Call.mk .get) =
        (x.sched.served ++ [W.call w (x.sent w) .add]) ++ x.sched.msgGetCache.map (Call.mk .get) := by simp
    rw [served, hsplit] at ho ⊢
    have hleast := h.least w (ho.left.fresh hs rfl)
    have hall := addsOf_eq_of_full hc h hleast full
    have heq : ∀ u, addsOf (x.sched.served ++ [W.call w (x.sent w) .add]) u = x.sched.count .add w + 1 := by
      intro u
      rw [← hall u, addsOf_append_singleton]
      by_cases hu : u = w
      · subst hu
        simp [call, request, addsOf, count]
      · simp [call, request, addsOf, count, hu, Ne.symm hu]
    apply (h.append_add ho.left hs rfl).append_gets
    intro u v
    rw [heq, heq]

/-- What holds of every state that lockstep workers with such a program reach. -/
structure RoundsInv (W : Workload K D) (x : System K D) : Prop where
  ledger : Ledger W x
  one : OneOutstanding W x
  level : Level W x.sched.served

theorem RoundsInv.start : RoundsInv W (start K D) := ⟨ledger_start, .start, level_nil⟩

theorem RoundsInv.step (h : RoundsInv W x) (hs : W.Spaced) (hstep : W.lockstep x w = some y) :
    RoundsInv W y ∧ ∃ l, y.sched.served = x.sched.served ++ l := by
  unfold lockstep at hstep
  split at hstep
  · rename_i hidle
    obtain ⟨o, hop, hstep⟩ := Option.bind_eq_some_iff.mp hstep
    obtain ⟨t, ht, rfl⟩ := Option.map_eq_some_iff.mp hstep
    obtain ⟨hc, he⟩ := h.ledger.effect hidle ht
    have hone := h.one.arrival h.ledger hidle hop he.served_cases fun _ => he.mem_cache
    refine ⟨⟨h.ledger.step hop hc he.received_perm, hone,
      h.level.step hs h.ledger.clocked hone.inOrder he⟩, ?_⟩
    rcases he.served_cases with hserved | ⟨o', ms, hserved, -⟩
    · exact ⟨[], by rw [hserved, List.append_nil]⟩
    · exact ⟨_, hserved⟩
  · cases hstep

/-- The `r`-th Add of a worker stands behind `r` others in the program. -/
theorem exists_add {r n : ℕ} (hr : r < W.before .add n) (hn : n ≤ W.prog.length) :
    ∃ i < n, W.prog[i]? = some .add ∧ W.before .add i = r := by
  induction n with
  | zero => simp [before] at hr
  | succ n ih =>
    rcases getElem?_of_lt (W := W) (show n < W.prog.length by omega) with hg | ha
    · rw [before_succ_of_ne hg (by decide)] at hr
      obtain ⟨i, hi, hadd, hbefore⟩ := ih hr (by omega)
      exact ⟨i, by omega, hadd, hbefore⟩
    · rw [before_succ ha] at hr
      by_cases hlast : W.before .add n = r
      · exact ⟨n, by omega, ha, hlast⟩
      · obtain ⟨i, hi, hadd, hbefore⟩ := ih (by omega) (by omega)
        exact ⟨i, by omega, hadd, hbefore⟩

theorem getElem?_adds {r : ℕ} (h : (W.adds w)[r]? = some c) :
    ∃ i, W.before .add i = r ∧ c = W.call w i .add := by
  have hr := (List.getElem?_eq_some_iff.mp h).1
  rw [length_adds, ← List.take_length (l := W.prog)] at hr
  obtain ⟨i, hi, hadd, hbefore⟩ := exists_add hr le_rfl
  refine ⟨i, hbefore, ?_⟩
  have hfilter := filter_calls (W := W) (w := w) (i := i + 1) (by omega)
  rw [calls_succ hadd, List.filter_append, filter_calls (by omega), before_succ hadd, hbefore] at hfilter
  have hone : [W.call w i .add].filter (fun c => c.op = .add) = [W.call w i .add] := by simp [call]
  rw [hone, List.take_add_one, h, Option.toList_some, List.append_cancel_left_eq, List.singleton_inj] at hfilter
  exact hfilter.symm

/-- Each complete round of Adds consists of one Add of each worker. -/
theorem Level.round_perm (h : Level W l) (ho : InOrder W l) {r : ℕ} (hr : (r + 1) * K ≤ (addLog l).length) :
    ((((addLog l).drop (r * K)).take K).map some).Perm (List.ofFn fun w => (W.adds w)[r]?) := by
  have hperm := h.fair.round_perm hr
  refine hperm.trans (List.Perm.of_eq ?_)
  congr 1
  funext w
  obtain ⟨n, hn, hw⟩ := ho w
  have hfilter : (addLog l).filter (fun c => c.msg.worker = w) = (W.adds w).take (W.before .add n) := by
    rw [← filter_calls hn, ← hw, addLog, List.filter_filter, List.filter_filter]
    congr 1
    funext c
    exact Bool.and_comm ..
  have hsome : ((addLog l).filter fun c => c.msg.worker = w)[r]? ∈ (((addLog l).drop (r * K)).take K).map some := by
    rw [hperm.mem_iff, List.mem_ofFn]
    exact ⟨w, rfl⟩
  obtain ⟨c, -, hc⟩ := List.mem_map.mp hsome
  rw [hfilter] at hc ⊢
  have hlt := (List.getElem?_eq_some_iff.mp hc.symm).1
  rw [List.length_take] at hlt
  exact List.getElem?_take_of_lt (by omega)

end Hpps.Scheduler.Workload

import Hpps.Scheduler.Pipelined

/-! Workers that wait for each reply before they send the next request, as `Get` and `Add` do. -/
namespace Hpps.Scheduler

/-- How many replies worker `w` has got. -/
def SyncScheduler.replies {K : ℕ} {D : Type} (s : SyncScheduler K D) (w : Fin K) : ℕ :=
  s.served.countP fun c => c.msg.worker = w

theorem SyncScheduler.replies_eq {K : ℕ} {D : Type} (s : SyncScheduler K D) (w : Fin K) :
    s.replies w = s.count .get w + s.count .add w := by
  rw [replies, count, count]
  induction s.served with
  | nil => rfl
  | cons c cs ih => cases hop : c.op <;> simp only [List.countP_cons, ih, hop] <;> simp <;> omega

namespace Workload

open SyncScheduler VectorClock

variable {K : ℕ} {D : Type} {W : Workload K D} {x : System K D} {t : SyncScheduler K D}
  {v w : Fin K} {i p e n : ℕ} {o o' : Op} {ms : List (Request K D)}

/-- A worker moves only when every request it has sent is answered. -/
def lockstep (W : Workload K D) (x : System K D) (w : Fin K) : Option (System K D) :=
  if x.sched.replies w = x.sent w then W.arrive x w else none

/-- The server answers a Get from the Adds that stand before it in the program, of every worker. -/
def Snapshot (W : Workload K D) (pre : List (Call K D)) (c : Call K D) : Prop :=
  c.op = .get → W.prog[c.msg.msgId]? = some .get ∧
    ∀ v, pre.filter (fun d => d.op = .add ∧ d.msg.worker = v) =
      (W.adds v).take (W.before .add c.msg.msgId)

theorem Ledger.replies_add_waits (h : Ledger W x) (w : Fin K) :
    x.sched.replies w + x.sched.msgAddCache.countP (fun m => m.worker = w) +
      x.sched.msgGetCache.countP (fun m => m.worker = w) = x.sent w := by
  have hl := (h.received w).length_eq
  rw [length_calls (h.sent_le w), ← List.countP_eq_length_filter] at hl
  simpa [SyncScheduler.received, replies, Function.comp_def, Nat.add_assoc] using hl

theorem lt_sent_of_wait (h : Ledger W x) {m : Request K D}
    (hm : m ∈ x.sched.msgAddCache ++ x.sched.msgGetCache) :
    x.sched.replies m.worker < x.sent m.worker := by
  have hc := h.replies_add_waits m.worker
  have hp : 0 < (x.sched.msgAddCache ++ x.sched.msgGetCache).countP fun r => r.worker = m.worker :=
    List.countP_pos_iff.mpr ⟨m, hm, by simp⟩
  rw [List.countP_append] at hp
  omega

/-- Each worker's calls were served in program order, and at most its last request waits. -/
structure OneOutstanding (W : Workload K D) (x : System K D) : Prop where
  sent_le : ∀ w, x.sent w ≤ x.sched.replies w + 1
  last : ∀ m ∈ x.sched.msgAddCache ++ x.sched.msgGetCache, m.msgId + 1 = x.sent m.worker
  inOrder : ∀ w, ∃ n ≤ W.prog.length,
    x.sched.served.filter (fun c => c.msg.worker = w) = W.calls w n

namespace OneOutstanding

theorem start : OneOutstanding W (start K D) where
  sent_le _ := Nat.zero_le _
  last m hm := nomatch hm
  inOrder w := ⟨0, Nat.zero_le _, by simp [Workload.start, SyncScheduler.new, calls]⟩

variable (hO : OneOutstanding W x) (hL : Ledger W x)

include hO

theorem served_filter (w : Fin K) :
    x.sched.served.filter (fun c => c.msg.worker = w) = W.calls w (x.sched.replies w) := by
  obtain ⟨n, hn, h⟩ := hO.inOrder w
  rw [h, replies, List.countP_eq_length_filter, h, length_calls hn]

theorem replies_le (w : Fin K) : x.sched.replies w ≤ W.prog.length := by
  obtain ⟨n, hn, h⟩ := hO.inOrder w
  rw [replies, List.countP_eq_length_filter, h, length_calls hn]
  exact hn

theorem count_eq (o : Op) (w : Fin K) :
    x.sched.count o w = W.before o (x.sched.replies w) := by
  rw [← count_calls (w := w) (hO.replies_le w), ← hO.served_filter w, List.countP_filter]
  simp [count]

theorem adds_filter (w : Fin K) :
    x.sched.served.filter (fun c => c.op = .add ∧ c.msg.worker = w) =
      (W.adds w).take (x.sched.count .add w) := by
  rw [hO.count_eq, ← filter_calls (hO.replies_le w), ← hO.served_filter w, List.filter_filter]
  simp

include hL

theorem msgId_eq {m : Request K D} (hm : m ∈ x.sched.msgAddCache ++ x.sched.msgGetCache) :
    m.msgId = x.sched.replies m.worker := by
  have := hO.last m hm
  have := hO.sent_le m.worker
  have := lt_sent_of_wait hL hm
  omega

theorem countP_le (v : Fin K) :
    x.sched.msgAddCache.countP (fun m => m.worker = v) +
      x.sched.msgGetCache.countP (fun m => m.worker = v) ≤ 1 := by
  have := hL.replies_add_waits v
  have := hO.sent_le v
  omega

/-- One call of an idle worker is served, and then each request of one cache. -/
theorem inOrder_append (hidle : x.sched.replies w = x.sent w) (hop : W.prog[x.sent w]? = some o)
    (hs : t.served = x.sched.served ++ W.call w (x.sent w) o :: ms.map (Call.mk o'))
    (hms : ∀ m ∈ ms, m ∈ x.sched.msgAddCache ++ x.sched.msgGetCache ∧
      W.prog[m.msgId]? = some o' ∧ m = W.request m.worker m.msgId o')
    (hone : ∀ v, ms.countP (fun m => m.worker = v) ≤ 1) (v : Fin K) :
    ∃ n ≤ W.prog.length, t.served.filter (fun c => c.msg.worker = v) = W.calls v n := by
  have hmap : (ms.map (Call.mk o')).filter (fun c => c.msg.worker = v) =
      (ms.filter fun m => m.worker = v).map (Call.mk o') := List.filter_map
  rw [hs, List.filter_append, List.filter_cons, hmap, hO.served_filter v]
  by_cases hv : v = w
  · subst hv
    have hnil : ms.filter (fun m => m.worker = v) = [] := by
      simp only [List.filter_eq_nil_iff, decide_eq_true_eq]
      rintro m hm rfl
      have := lt_sent_of_wait hL (hms m hm).1
      omega
    refine ⟨x.sent v + 1, lt_length hop, ?_⟩
    rw [calls_succ hop, hidle, hnil]
    simp [call, request]
  · have hone' := hone v
    rw [List.countP_eq_length_filter] at hone'
    have hw : (W.call w (x.sent w) o).msg.worker ≠ v := Ne.symm hv
    rw [if_neg (by simpa using hw)]
    rcases hf : ms.filter (fun m => m.worker = v) with _ | ⟨m, _ | ⟨m', l⟩⟩
    · exact ⟨x.sched.replies v, hO.replies_le v, by simp [hf]⟩
    · have hm : m ∈ ms ∧ m.worker = v := by
        have : m ∈ ms.filter (fun m => m.worker = v) := by simp [hf]
        simpa using this
      obtain ⟨hmc, hmp, hmr⟩ := hms m hm.1
      have hid := hO.msgId_eq hL hmc
      rw [hm.2] at hid hmr
      rw [hid] at hmp hmr
      refine ⟨x.sched.replies v + 1, lt_length hmp, ?_⟩
      rw [calls_succ hmp, call, ← hmr, hf, List.map_singleton]
    · rw [hf] at hone'
      simp at hone'

/-- An arrival keeps this if it serves nothing, or its request and after it one cache or none. -/
theorem arrival (hidle : x.sched.replies w = x.sent w) (hop : W.prog[x.sent w]? = some o)
    (hserved : t.served = x.sched.served ∨ ∃ o' ms,
      t.served = x.sched.served ++ W.call w (x.sent w) o :: ms.map (Call.mk o') ∧
        (ms = [] ∨ ms = x.sched.msgAddCache ∧ o' = .add ∨ ms = x.sched.msgGetCache ∧ o' = .get))
    (hcache : ∀ m ∈ t.msgAddCache ++ t.msgGetCache,
      m ∈ x.sched.msgAddCache ++ x.sched.msgGetCache ∨ m = W.request w (x.sent w) o) :
    OneOutstanding W ⟨t, bump x.sent w⟩ := by
  obtain ⟨l, hl⟩ : ∃ l, t.served = x.sched.served ++ l := by
    rcases hserved with hs | ⟨o', ms, hs, -⟩
    · exact ⟨[], by simp [hs]⟩
    · exact ⟨_, hs⟩
  refine ⟨fun v => ?_, fun m hm => ?_, fun v => ?_⟩
  · have hmono : x.sched.replies v ≤ t.replies v := by simp [replies, hl]
    by_cases hv : v = w
    · subst hv
      simp only [bump_self]
      omega
    · simpa [hv] using (hO.sent_le v).trans (by omega)
  · rcases hcache m hm with hmx | rfl
    · have hmw : m.worker ≠ w := by
        intro hmw
        have := lt_sent_of_wait hL hmx
        rw [hmw] at this
        omega
      simpa [hmw] using hO.last m hmx
    · simp [request]
  · rcases hserved with hs | ⟨o', ms, hs, hms⟩
    · rw [show (⟨t, bump x.sent w⟩ : System K D).sched.served = x.sched.served from hs]
      exact hO.inOrder v
    · have hone := hO.countP_le hL
      rcases hms with rfl | ⟨rfl, rfl⟩ | ⟨rfl, rfl⟩
      · exact hO.inOrder_append hL hidle hop hs (by simp) (by simp) v
      · refine hO.inOrder_append hL hidle hop hs (fun m hm => ?_) (fun v => by have := hone v; omega) v
        exact ⟨List.mem_append_left _ hm, (hL.genuine_add hm).2⟩
      · refine hO.inOrder_append hL hidle hop hs (fun m hm => ?_) (fun v => by have := hone v; omega) v
        exact ⟨List.mem_append_right _ hm, (hL.genuine_get hm).2⟩

theorem step (hidle : x.sched.replies w = x.sent w) (hop : W.prog[x.sent w]? = some o)
    (h : Outcome W x w t o) : OneOutstanding W ⟨t, bump x.sent w⟩ :=
  hO.arrival hL hidle hop h.served_cases fun _ => h.mem_cache

omit hL in
/-- The overtaken Get would have been answered before its worker went on. -/
theorem not_jam : ¬ Jam W x e := by
  intro hJ
  obtain ⟨v, hlt, hg⟩ := hJ.ahead
  rw [hO.count_eq] at hlt hg
  have hlen := lt_of_before_lt hlt
  have := before_mono (W := W) (o := .get) (show e + 1 + 1 ≤ x.sched.replies v by omega)
  have := before_succ hJ.get
  have := before_succ_of_ne (o := .get) hJ.add (by decide)
  omega

end OneOutstanding

/-- Once some worker is past the horizon, every Get before it was answered. -/
def Lead (W : Workload K D) (x : System K D) (e : ℕ) : Prop :=
  (∃ u, W.before .add e < x.sched.count .add u) → ∀ v, x.sched.count .get v = W.before .get e

theorem Good.not_ahead (hG : Good W x e) (hL : Ledger W x) (hlead : Lead W x e)
    (hop : W.prog[x.sent w]? = some .get)
    (hw : ∀ j, x.sched.count .add w ≤ x.sched.count .add j)
    (hwait : ∀ r ∈ x.sched.msgAddCache, r.worker ≠ w) (u : Fin K) :
    x.sched.count .add u = W.before .add e := by
  obtain ⟨hse, -⟩ := hG.sent_lt hL hop hw hwait
  refine le_antisymm (not_lt.mp fun hlt => ?_) (hG.adds_ge u)
  have := hlead ⟨u, hlt⟩ w
  rw [hG.gets_self hse] at this
  have := before_mono (W := W) (o := .get) (show x.sent w + 1 ≤ e from hse)
  have := before_succ hop
  omega

theorem Lead.of_le (h : ∀ u, x.sched.count .add u ≤ W.before .add e) : Lead W x e := by
  rintro ⟨u, hu⟩
  have := h u
  omega

/-- An Add that waits stands at the horizon or beyond it. -/
theorem Good.le_of_wait (hG : Good W x e) (hO : OneOutstanding W x) (hL : Ledger W x)
    {m : Request K D} (hm : m ∈ x.sched.msgAddCache) : e ≤ m.msgId := by
  have hid := hO.msgId_eq hL (List.mem_append_left _ hm)
  have hop := (hL.genuine_add hm).2.1
  have := hG.adds_ge m.worker
  rw [hO.count_eq, ← hid] at this
  exact le_of_before_le hop this

theorem Lead.flushAdds (hlead : Lead W x e) (hG : Good W x e) (hO : OneOutstanding W x)
    (hL : Ledger W x) (hop : W.prog[x.sent w]? = some .get)
    (hw : ∀ j, x.sched.count .add w ≤ x.sched.count .add j)
    (hwait : ∀ r ∈ x.sched.msgAddCache, r.worker ≠ w)
    (hfull : ∀ v, v ≠ w → x.sched.count .get v = x.sched.count .get w + 1)
    (hs : t.served = x.sched.served ++ W.call w (x.sent w) .get ::
      x.sched.msgAddCache.map (Call.mk .add))
    (hGt : Good W ⟨t, bump x.sent w⟩ e) : Lead W ⟨t, bump x.sent w⟩ e := by
  obtain ⟨hgets, hadds⟩ := count_of_flush (by decide) hs
  rintro ⟨u, hu⟩ v
  have hall : t.count .get v = x.sched.count .get w + 1 := by
    rw [hgets]
    exact bump_eq_iff.mpr hfull v
  simp only [hadds, hG.not_ahead hL hlead hop hw hwait u] at hu
  have hpos : 0 < x.sched.msgAddCache.countP fun m => m.worker = u := by omega
  obtain ⟨m, hm, hmu⟩ := List.countP_pos_iff.mp hpos
  obtain rfl : m.worker = u := by simpa using hmu
  refine le_antisymm (hGt.gets_le v) ?_
  dsimp only
  rw [hall, ← hfull m.worker (hwait m hm), hO.count_eq,
    ← hO.msgId_eq hL (List.mem_append_left _ hm)]
  exact before_mono (hG.le_of_wait hO hL hm)

theorem Lead.step (hlead : Lead W x e) (hG : Good W x e) (hO : OneOutstanding W x)
    (hL : Ledger W x) (hop : W.prog[x.sent w]? = some o) (h : Outcome W x w t o)
    (hLt : Ledger W ⟨t, bump x.sent w⟩) (hOt : OneOutstanding W ⟨t, bump x.sent w⟩) :
    ∃ e', Good W ⟨t, bump x.sent w⟩ e' ∧ Lead W ⟨t, bump x.sent w⟩ e' := by
  cases h with
  | addCached ahead served adds gets =>
    refine ⟨e, hG.cacheAdd hop ahead served gets, ?_⟩
    simpa only [Lead, count_eq_of_served served] using hlead
  | addServed least open_ served adds gets =>
    have hadds : t.count .add = bump (x.sched.count .add) w := count_serve_self served rfl
    have hgets : t.count .get = x.sched.count .get := count_serve_other (by decide) served rfl
    have hall : W.before .add e < bump (x.sched.count .add) w w →
        ∀ v, x.sched.count .get v = W.before .get e := by
      intro hlt
      rcases eq_or_lt_of_le (hG.adds_ge w) with heq | hgt
      · exact (hG.at_horizon hL hop least heq.symm).2.1
      · exact hlead ⟨w, hgt⟩
    by_cases hslow : ∀ v, x.sched.count .add v = W.before .add e → v = w
    · have hGt := (hG.passHorizon hL hop least hslow open_ served adds gets).resolve_right hOt.not_jam
      refine ⟨e + 1, hGt, fun _ v => ?_⟩
      obtain ⟨u, hu⟩ := hG.adds_eq
      have hae := hslow u hu ▸ hu
      have hse := (hG.at_horizon hL hop least hae).1
      dsimp only
      rw [hgets, before_succ_of_ne (o := .get) (hse ▸ hop) (by decide)]
      exact hall (by simp [hae]) v
    · push Not at hslow
      refine ⟨e, hG.serveAdd hop hslow served adds gets, ?_⟩
      rintro ⟨u, hu⟩
      simp only [hadds, hgets] at hu ⊢
      by_cases huw : u = w
      · exact hall (huw ▸ hu)
      · exact hlead ⟨u, by simpa [huw] using hu⟩
  | addFlush least full served noAdds adds gets =>
    obtain ⟨e', hGt, -, hsent⟩ := hG.flushGets hL hop least full served adds gets hLt
    exact ⟨e', hGt, .of_le fun u => (hLt.count_le .add u).trans (before_mono (hsent u))⟩
  | getCached waits served adds gets =>
    refine ⟨e, hG.cacheGet hL hop waits served adds gets, ?_⟩
    simpa only [Lead, count_eq_of_served served] using hlead
  | getServed least noWait open_ served adds gets =>
    have hadds : t.count .add = x.sched.count .add := count_serve_other (by decide) served rfl
    refine ⟨e, hG.serveGet hL hop least noWait open_ served adds gets, .of_le fun u => ?_⟩
    dsimp only
    rw [hadds]
    exact (hG.not_ahead hL hlead hop least noWait u).le
  | getFlush least noWait full served adds gets =>
    have hGt := hG.flushAdds hL hop least noWait served adds gets
    exact ⟨e, hGt, hlead.flushAdds hG hO hL hop least noWait full served hGt⟩

theorem snapshot_add {pre : List (Call K D)} {m : Request K D} : Snapshot W pre ⟨.add, m⟩ :=
  fun h => nomatch h

/-- A Get is served on arrival when every worker has the same Adds applied. -/
theorem snapshot_arrival (hO : OneOutstanding W x) (hop : W.prog[x.sent w]? = some .get)
    (hall : ∀ v, x.sched.count .add v = W.before .add (x.sent w)) :
    Snapshot W x.sched.served (W.call w (x.sent w) .get) := by
  intro _
  refine ⟨hop, fun v => ?_⟩
  rw [hO.adds_filter v, hall v]
  rfl

theorem Good.snapshot_arrival (hG : Good W x e) (hlead : Lead W x e) (hO : OneOutstanding W x)
    (hL : Ledger W x) (hop : W.prog[x.sent w]? = some .get)
    (hw : ∀ j, x.sched.count .add w ≤ x.sched.count .add j)
    (hwait : ∀ r ∈ x.sched.msgAddCache, r.worker ≠ w) (hidle : x.sched.replies w = x.sent w) :
    Snapshot W x.sched.served (W.call w (x.sent w) .get) := by
  have hall := hG.not_ahead hL hlead hop hw hwait
  refine Workload.snapshot_arrival hO hop fun v => ?_
  rw [hall v, ← hall w, hO.count_eq, hidle]

/-- The Gets released by an Add round all see the round complete. -/
theorem snapshot_flush (hO : OneOutstanding W x) (hL : Ledger W x)
    (hidle : x.sched.replies w = x.sent w) (hOt : OneOutstanding W ⟨t, bump x.sent w⟩)
    (hfull : ∀ v, v ≠ w → x.sched.count .add v = x.sched.count .add w + 1)
    (hs : t.served = x.sched.served ++ W.call w (x.sent w) .add ::
      x.sched.msgGetCache.map (Call.mk .get))
    {m : Request K D} (hm : m ∈ x.sched.msgGetCache) {pre : List (Call K D)}
    (hpre : ∀ c ∈ pre, c.op = .get) :
    Snapshot W (x.sched.served ++ [W.call w (x.sent w) .add] ++ pre) ⟨.get, m⟩ := by
  intro _
  refine ⟨(hL.genuine_get hm).2.1, fun v => ?_⟩
  have hnil : ∀ l : List (Call K D), (∀ c ∈ l, c.op = Op.get) →
      l.filter (fun c => c.op = .add ∧ c.msg.worker = v) = [] := by
    intro l hl
    rw [List.filter_eq_nil_iff]
    intro c hc
    simp [hl c hc]
  have hv := hOt.adds_filter v
  have hgets : ∀ c ∈ x.sched.msgGetCache.map (Call.mk .get), c.op = Op.get := by simp
  rw [show t.served = x.sched.served ++ [W.call w (x.sent w) .add] ++
    x.sched.msgGetCache.map (Call.mk .get) by simp [hs], List.filter_append, hnil _ hgets,
    List.append_nil] at hv
  rw [List.filter_append, hnil _ hpre, List.append_nil, hv]
  have hmw : m.worker ≠ w := by
    intro hmw
    have := lt_sent_of_wait hL (List.mem_append_right _ hm)
    rw [hmw] at this
    omega
  have hid := hO.msgId_eq hL (List.mem_append_right _ hm)
  have hcount : (⟨t, bump x.sent w⟩ : System K D).sched.count .add v = x.sched.count .add w + 1 := by
    rw [(count_of_flush (by decide) hs).1]
    exact bump_eq_iff.mpr hfull v
  rw [hcount, ← hfull m.worker hmw, hO.count_eq, ← hid]

/-- What holds of every state reached by workers that wait for their replies. -/
structure LockstepInv (W : Workload K D) (x : System K D) : Prop where
  inv : Inv W x
  one : OneOutstanding W x
  phase : ∃ e, Good W x e ∧ Lead W x e
  snapshots : History.Each (Snapshot W) x.sched.served

namespace LockstepInv

theorem start [NeZero K] : LockstepInv W (start K D) where
  inv := Inv.start
  one := OneOutstanding.start
  phase := Good.start.imp fun _ hG => ⟨hG, .of_le fun _ => Nat.zero_le _⟩
  snapshots := History.each_nil

variable (h : LockstepInv W x)

include h

theorem snapshots_step (hidle : x.sched.replies w = x.sent w) (hop : W.prog[x.sent w]? = some o)
    (ho : Outcome W x w t o) (hOt : OneOutstanding W ⟨t, bump x.sent w⟩) :
    History.Each (Snapshot W) t.served := by
  have hL := h.inv.ledger
  obtain ⟨e, hG, hlead⟩ := h.phase
  cases ho with
  | addCached ahead served adds gets => rw [served]; exact h.snapshots
  | addServed least open_ served adds gets =>
    rw [served]
    exact History.each_append_singleton.mpr ⟨h.snapshots, snapshot_add⟩
  | addFlush least full served noAdds adds gets =>
    rw [show t.served = x.sched.served ++ [W.call w (x.sent w) .add] ++
      x.sched.msgGetCache.map (Call.mk .get) by simp [served]]
    refine History.each_append (History.each_append_singleton.mpr ⟨h.snapshots, snapshot_add⟩) ?_
    intro pre c post hc
    have hmem : ∀ d ∈ pre ++ c :: post, ∃ m ∈ x.sched.msgGetCache, Call.mk .get m = d := by
      rw [← hc]
      simp
    obtain ⟨m, hm, rfl⟩ := hmem c (by simp)
    refine snapshot_flush h.one hL hidle hOt full served hm fun d hd => ?_
    obtain ⟨m', -, rfl⟩ := hmem d (by simp [hd])
    rfl
  | getCached waits served adds gets => rw [served]; exact h.snapshots
  | getServed least noWait open_ served adds gets =>
    rw [served]
    exact History.each_append_singleton.mpr
      ⟨h.snapshots, hG.snapshot_arrival hlead h.one hL hop least noWait hidle⟩
  | getFlush least noWait full served adds gets =>
    rw [show t.served = x.sched.served ++ [W.call w (x.sent w) .get] ++
      x.sched.msgAddCache.map (Call.mk .add) by simp [served]]
    refine History.each_append (History.each_append_singleton.mpr
      ⟨h.snapshots, hG.snapshot_arrival hlead h.one hL hop least noWait hidle⟩) ?_
    intro pre c post hc
    have hmem : c ∈ x.sched.msgAddCache.map (Call.mk .add) := by rw [hc]; simp
    obtain ⟨m, -, rfl⟩ := List.mem_map.mp hmem
    exact snapshot_add

theorem step {y : System K D} (hf : W.Fits) (hs : W.lockstep x w = some y) : LockstepInv W y := by
  unfold lockstep at hs
  split at hs
  · rename_i hidle
    obtain ⟨o, hop, hs⟩ := Option.bind_eq_some_iff.mp hs
    obtain ⟨t, ht, hIt, ho⟩ := h.inv.exists_step hf hop
    rw [ht] at hs
    cases hs
    have hOt := h.one.step h.inv.ledger hidle hop ho
    obtain ⟨e, hG, hlead⟩ := h.phase
    exact ⟨hIt, hOt, hlead.step hG h.one h.inv.ledger hop ho hIt.ledger hOt,
      h.snapshots_step hidle hop ho hOt⟩
  · cases hs

/-- Some worker short of its last reply has nothing waiting at the server. -/
theorem exists_idle (hw : x.sched.replies w < W.prog.length) :
    ∃ v, x.sched.replies v < W.prog.length ∧
      ∀ m ∈ x.sched.msgAddCache ++ x.sched.msgGetCache, m.worker ≠ v := by
  have hL := h.inv.ledger
  have hO := h.one
  obtain ⟨e, hG, -⟩ := h.phase
  have hget : ∀ m ∈ x.sched.msgGetCache, e ≤ x.sched.replies m.worker := fun m hm =>
    hO.msgId_eq hL (List.mem_append_right _ hm) ▸ hG.cached_gets m hm
  have hadd : ∀ m ∈ x.sched.msgAddCache, e ≤ x.sched.replies m.worker := fun m hm =>
    hO.msgId_eq hL (List.mem_append_left _ hm) ▸ hG.le_of_wait hO hL hm
  -- a worker before the horizon is idle
  have hidle : ∀ v, x.sched.replies v < e →
      ∀ m ∈ x.sched.msgAddCache ++ x.sched.msgGetCache, m.worker ≠ v := by
    rintro v hv m hm rfl
    have : e ≤ x.sched.replies m.worker := (List.mem_append.mp hm).elim (hadd m) (hget m)
    omega
  have hel := hG.le_length
  by_cases hnil : x.sched.msgAddCache = []
  · -- no Add waits, so the slowest worker in Adds is idle unless it has finished
    obtain ⟨u, hu⟩ := hG.adds_eq
    rw [hO.count_eq] at hu
    have hmore : ∀ i, W.prog[e]? = some .add → e < i → W.before .add e < W.before .add i := by
      intro i hop hei
      have := before_succ hop
      have := before_mono (W := W) (o := .add) (show e + 1 ≤ i from hei)
      omega
    by_cases hur : x.sched.replies u < W.prog.length
    · refine ⟨u, hur, ?_⟩
      rintro m hm rfl
      rw [hnil, List.nil_append] at hm
      have hop := (hL.genuine_get hm).2.1
      rw [hO.msgId_eq hL (List.mem_append_right _ hm)] at hop
      have hlt := lt_of_le_of_ne (hget m hm) fun h => hG.not_get (h ▸ hop)
      have hadd := (getElem?_of_lt (W := W) (hlt.trans hur)).resolve_left hG.not_get
      have := hmore _ hadd hlt
      omega
    · have hend : e = W.prog.length := by
        by_contra hne
        have hadd := (getElem?_of_lt (W := W) (show e < W.prog.length by omega)).resolve_left
          hG.not_get
        have := hmore (x.sched.replies u) hadd (by omega)
        omega
      exact ⟨w, hw, hidle w (by omega)⟩
  · obtain ⟨v, hv⟩ := hG.cached_adds hnil
    rw [hO.count_eq] at hv
    have := lt_of_before_lt hv
    exact ⟨v, by omega, hidle v this⟩

omit h in
theorem replies_eq_sent (hL : Ledger W x)
    (hidle : ∀ m ∈ x.sched.msgAddCache ++ x.sched.msgGetCache, m.worker ≠ v) :
    x.sched.replies v = x.sent v := by
  have hc := hL.replies_add_waits v
  have hz : (x.sched.msgAddCache ++ x.sched.msgGetCache).countP (fun m => m.worker = v) = 0 :=
    List.countP_eq_zero.mpr (by simpa using hidle)
  rw [List.countP_append] at hz
  omega

theorem exists_move (hf : W.Fits) (hv : x.sched.replies v < W.prog.length)
    (hidle : ∀ m ∈ x.sched.msgAddCache ++ x.sched.msgGetCache, m.worker ≠ v) :
    ∃ y, lockstep W x v = some y := by
  have hs := replies_eq_sent h.inv.ledger hidle
  have hop : W.prog[x.sent v]? = some W.prog[x.sent v] := List.getElem?_eq_getElem (hs ▸ hv)
  obtain ⟨t, ht, -⟩ := h.inv.exists_step hf hop
  exact ⟨⟨t, bump x.sent v⟩, by simp [lockstep, hs, arrive, hop, ht]⟩

end LockstepInv

theorem lockstepInv_of_reachable [NeZero K] (hf : W.Fits)
    (h : TransitionSystem.Reachable (lockstep W) (start K D) x) : LockstepInv W x :=
  h.invariant .start fun _ _ _ hI hs => hI.step hf hs

theorem lockstep_eq (h : x.sched.replies w = x.sent w) : W.lockstep x w = W.arrive x w := if_pos h

theorem replies_of_served_calls (hs : x.sched.served = W.calls w n) (hn : n ≤ W.prog.length) :
    x.sched.replies = alone w n := by
  funext v
  have hw : ∀ c ∈ W.calls w n, c.msg.worker = w := by
    intro c hc
    obtain ⟨i, -, o, -, rfl⟩ := mem_calls.mp hc
    rfl
  rw [replies, hs, alone]
  by_cases hv : v = w
  · rw [if_pos hv, List.countP_eq_length.mpr fun c hc => by simpa using (hw c hc).trans hv.symm,
      length_calls hn]
  · rw [if_neg hv, List.countP_eq_zero]
    intro c hc
    simpa [hw c hc] using Ne.symm hv

theorem length_addsGetAdd : (addsGetAdd n).prog.length = n + 2 := by
  simp [addsGetAdd]

/-- With `intMax` Adds ahead of it, the first worker's Get is answered after the second worker's
first Add. -/
theorem exists_early_flush (hn : (n : ℤ) = intMax) : ∃ x,
    TransitionSystem.Reachable (lockstep (addsGetAdd n)) (start 2 ℕ) x ∧ x.sched.Clocked ∧
      x.sched.msgAddCache = [] ∧ x.sent = bump (alone 0 (n + 1)) 1 ∧
      x.sched.count .add = bump (alone 0 n) 1 ∧ x.sched.count .get = alone 0 1 ∧
      x.sched.served = (addsGetAdd n).calls 0 n ++
        [(addsGetAdd n).call 1 0 .add, (addsGetAdd n).call 0 n .get] := by
  have hpos : 0 < n := by rw [intMax] at hn; omega
  obtain ⟨x, hr, hx⟩ := exists_solo (f := lockstep (addsGetAdd n)) (W := addsGetAdd n) (v := 1)
    (w := 0) (n := n) (fun m hm x hx => lockstep_eq (by
      rw [replies_of_served_calls hx.served (by rw [length_addsGetAdd]; omega), hx.sent]))
    (fun i hi => addsGetAdd_of_lt hi) (by decide)
  have hlen : n ≤ (addsGetAdd n).prog.length := by rw [length_addsGetAdd]; omega
  obtain ⟨t, ht, hc, hs, ha, hg⟩ := hx.cacheGet (v := 1) addsGetAdd_get hpos (by decide)
  have hcount : ∀ o, t.count o = x.sched.count o := fun o =>
    count_eq_of_served (hs.trans hx.served.symm)
  have ho : Overrun (addsGetAdd n) n ⟨t, bump x.sent 0⟩ := by
    refine ⟨hc, ha, hg, ?_, ?_, ?_, ?_⟩
    · simpa [hcount, hx.count_add, alone] using hn
    · simp [hcount, hx.count_add, alone]
    · rw [hcount, hx.count_get]
    · simp [hx.sent, alone]
  obtain ⟨u, hu, huc, hua, hus⟩ := ho.flush (addsGetAdd_of_lt hpos)
  have h0 : lockstep (addsGetAdd n) x 0 = some ⟨t, bump x.sent 0⟩ :=
    (lockstep_eq (by rw [replies_of_served_calls hx.served hlen, hx.sent])).trans ht
  have h1 : lockstep (addsGetAdd n) ⟨t, bump x.sent 0⟩ 1 =
      some ⟨u, bump (bump x.sent 0) 1⟩ := by
    refine (lockstep_eq ?_).trans hu
    rw [replies_of_served_calls (x := ⟨t, bump x.sent 0⟩) hs hlen]
    simp [hx.sent, alone]
  obtain ⟨hadd, hget⟩ := count_of_flush (x := ⟨t, bump x.sent 0⟩) (a := .add) (b := .get)
    (l := [(addsGetAdd n).request 0 n .get]) (by decide) hus
  refine ⟨_, (hr.tail h0).tail h1, huc, hua, ?_, ?_, ?_, ?_⟩
  · dsimp only
    rw [hx.sent, bump_alone]
  · rw [hadd, hcount, hx.count_add]
  · funext v
    dsimp only
    rw [hget, hcount, hx.count_get]
    simp [alone, request, List.countP_cons, eq_comm]
  · dsimp only at hus ⊢
    rw [hus, hs]

/-- The `i`-th Gets of all workers are answered from the first Adds of every worker, as many as
precede the Get in the program. -/
theorem get_snapshot [NeZero K] (hf : W.Fits)
    (h : TransitionSystem.Reachable (lockstep W) (start K D) x) :
    History.Each (Snapshot W) x.sched.served ∧
      ∀ pre c post pre' c' post', x.sched.served = pre ++ c :: post →
        x.sched.served = pre' ++ c' :: post' → c.op = .get → c'.op = .get →
        W.before .get c.msg.msgId = W.before .get c'.msg.msgId →
        ∀ v, pre.filter (fun d => d.op = .add ∧ d.msg.worker = v) =
          pre'.filter (fun d => d.op = .add ∧ d.msg.worker = v) := by
  have hsnap := (lockstepInv_of_reachable hf h).snapshots
  refine ⟨hsnap, fun pre c post pre' c' post' hc hc' hget hget' hi v => ?_⟩
  obtain ⟨hop, hv⟩ := hsnap pre c post hc hget
  obtain ⟨hop', hv'⟩ := hsnap pre' c' post' hc' hget'
  have hid := le_antisymm (le_of_before_le hop' hi.le) (le_of_before_le hop hi.ge)
  rw [hv v, hv' v, hid]

theorem get_snapshot_two : ∃ x, TransitionSystem.Reachable (lockstep (addsGetAdd 1)) (start 2 ℕ) x ∧
    x.sched.served.length = 6 ∧ History.Each (Snapshot (addsGetAdd 1)) x.sched.served := by
  have hf : Fits (addsGetAdd 1) := by
    intro o
    cases o <;> decide
  have hx : TransitionSystem.Reachable (lockstep (addsGetAdd 1)) (start 2 ℕ)
      ((TransitionSystem.exec (lockstep (addsGetAdd 1)) (start 2 ℕ) [0, 0, 1, 1, 1, 0]).getD
        (start 2 ℕ)) := ⟨[0, 0, 1, 1, 1, 0], by rfl⟩
  exact ⟨_, hx, by rfl, (get_snapshot hf hx).1⟩

/-- At `intMax` Adds the Get misses all but the first Add of the other worker. -/
theorem get_snapshot_fails : ∃ x, TransitionSystem.Reachable (lockstep (addsGetAdd 2147483647))
    (start 2 ℕ) x ∧ ¬ History.Each (Snapshot (addsGetAdd 2147483647)) x.sched.served := by
  generalize hn : 2147483647 = n
  obtain ⟨x, hr, -, -, -, hadd, -, hs⟩ := exists_early_flush (n := n) (by subst hn; rfl)
  refine ⟨x, hr, fun hE => ?_⟩
  have hpost : x.sched.served = ((addsGetAdd n).calls 0 n ++ [(addsGetAdd n).call 1 0 .add]) ++
      (addsGetAdd n).call 0 n .get :: [] := by simp [hs]
  have hlen := congrArg List.length ((hE _ _ _ hpost rfl).2 1)
  have hone : x.sched.count .add 1 = 1 := by simp [hadd, alone]
  rw [SyncScheduler.count, hpost, List.countP_append, List.countP_eq_length_filter, hlen,
    List.length_take, length_adds] at hone
  have hpre : (addsGetAdd n).before .add n = n := by simp [before, addsGetAdd]
  have hall : (addsGetAdd n).prog.count .add = n + 1 := by simp [addsGetAdd]
  simp [call, request, hpre, hall] at hone
  omega

/-- No arrival fails a CHECK, and some unfinished worker can always move. -/
theorem checks_hold_and_some_worker_moves [NeZero K] (hf : W.Fits)
    (h : TransitionSystem.Reachable (lockstep W) (start K D) x) :
    (∀ w, x.sched.replies w = x.sent w → ¬ CheckFails W x w) ∧
      ((∃ w, x.sched.replies w < W.prog.length) → ∃ v, x.sched.replies v < W.prog.length ∧
        (∀ m ∈ x.sched.msgAddCache ++ x.sched.msgGetCache, m.worker ≠ v) ∧
        ∃ y, lockstep W x v = some y) := by
  have hI := lockstepInv_of_reachable hf h
  constructor
  · rintro w - ⟨o, hop, hnone⟩
    obtain ⟨t, ht, -⟩ := hI.inv.exists_step hf hop
    rw [ht] at hnone
    cases hnone
  · rintro ⟨w, hw⟩
    obtain ⟨v, hv, hidle⟩ := hI.exists_idle hw
    exact ⟨v, hv, hidle, hI.exists_move hf hv hidle⟩

theorem checks_hold_and_some_worker_moves_two : ∃ x : System 2 ℕ, x.sched.msgGetCache.length = 1 ∧
    ((∀ w, x.sched.replies w = x.sent w → ¬ CheckFails (addsGetAdd 1) x w) ∧
      ((∃ w, x.sched.replies w < (addsGetAdd 1).prog.length) →
        ∃ v, x.sched.replies v < (addsGetAdd 1).prog.length ∧
          (∀ m ∈ x.sched.msgAddCache ++ x.sched.msgGetCache, m.worker ≠ v) ∧
          ∃ y, lockstep (addsGetAdd 1) x v = some y)) := by
  have hf : Fits (addsGetAdd 1) := by
    intro o
    cases o <;> decide
  have hx : TransitionSystem.Reachable (lockstep (addsGetAdd 1)) (start 2 ℕ)
      ((TransitionSystem.exec (lockstep (addsGetAdd 1)) (start 2 ℕ) [0, 0]).getD (start 2 ℕ)) :=
    ⟨[0, 0], by rfl⟩
  exact ⟨_, by rfl, checks_hold_and_some_worker_moves hf hx⟩

/-- At `intMax` Adds the second worker's next Add ends a round while the first worker's waits. -/
theorem checks_fail_at_intMax : ∃ x, TransitionSystem.Reachable (lockstep (addsGetAdd 2147483647))
    (start 2 ℕ) x ∧ x.sched.replies 1 = x.sent 1 ∧ CheckFails (addsGetAdd 2147483647) x 1 := by
  generalize hn : 2147483647 = n
  have hmax : (n : ℤ) = intMax := by subst hn; rfl
  obtain ⟨x, hr, hc, ha, hsent, hadd, hget, -⟩ := exists_early_flush hmax
  obtain ⟨t, ht, htc, hts, hta, -⟩ := processAdd_cached (m := (addsGetAdd n).request 0 (n + 1) .add)
    hc ⟨1, by simp [hget, alone, request]⟩
  have hcount : ∀ o, t.count o = x.sched.count o := fun o => count_eq_of_served hts
  have hx : lockstep (addsGetAdd n) x 0 = some ⟨t, bump x.sent 0⟩ := by
    have hop : (addsGetAdd n).prog[x.sent 0]? = some .add := by simp [hsent, alone, addsGetAdd_add]
    have hs0 : x.sent 0 = n + 1 := by simp [hsent, alone]
    rw [lockstep_eq (by simp [replies_eq, hadd, hget, hsent, alone, Nat.add_comm]), arrive, hop]
    simp only [Option.bind_some, process, hs0, ht, Option.map_some]
  have hs1 : bump x.sent 0 1 = 1 := by simp [hsent, alone]
  refine ⟨_, hr.tail hx, ?_, .add, ?_, ?_⟩
  · simp [replies_eq, hcount, hadd, hget, hsent, alone]
  · dsimp only
    rw [hs1]
    exact addsGetAdd_of_lt (by omega)
  · have hfull : (t.workerAddClocks.update 1).2 = true := by
      refine htc.adds.update_true_of_intMax ?_ fun j hj => ?_
      · simp [hcount, hadd, alone, intMax]
      · obtain rfl : j = 0 := by omega
        simpa [hcount, hadd, alone] using hmax
    exact processAdd_check_fails htc (by simp [hcount, hget, alone, request]) hfull (by simp [hta])

end Workload
end Hpps.Scheduler

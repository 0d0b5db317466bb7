import Hpps.Lib.History
import Hpps.Scheduler.Sentinel

/-! Workers that send ahead of their replies: requests of one worker arrive in program order,
those of different workers in any order. -/
namespace Hpps.Scheduler.Workload

open SyncScheduler VectorClock

variable {K : ℕ} {D : Type} {W : Workload K D} {x : System K D} {t : SyncScheduler K D}
  {v w : Fin K} {i p e : ℕ} {o : Op}

/-- A Get is answered from exactly those Adds of its own worker that precede it. -/
def OwnOrder (W : Workload K D) (pre : List (Call K D)) (c : Call K D) : Prop :=
  c.op = .get → W.prog[c.msg.msgId]? = some .get ∧
    ∀ i, W.prog[i]? = some .add → (W.call c.msg.worker i .add ∈ pre ↔ i < c.msg.msgId)

/-- Gets before position `e` are answered on arrival, later ones wait; `e` is where the slowest
worker's next Add stands. -/
structure Good (W : Workload K D) (x : System K D) (e : ℕ) : Prop where
  le_length : e ≤ W.prog.length
  not_get : W.prog[e]? ≠ some .get
  adds_ge : ∀ w, W.before .add e ≤ x.sched.count .add w
  adds_eq : ∃ w, x.sched.count .add w = W.before .add e
  gets_eq : ∀ w, x.sched.count .get w = W.before .get (min (x.sent w) e)
  cached_gets : ∀ m ∈ x.sched.msgGetCache, e ≤ m.msgId
  cached_adds : x.sched.msgAddCache ≠ [] → ∃ w, x.sched.count .get w < W.before .get e

/-- One worker's Get after position `e` was overtaken by its own Add while another worker is past
that Get: from here on neither cache is flushed again. -/
structure Jam (W : Workload K D) (x : System K D) (e : ℕ) : Prop where
  add : W.prog[e]? = some .add
  get : W.prog[e + 1]? = some .get
  adds_ge : ∀ w, W.before .add (e + 1) ≤ x.sched.count .add w
  gets_ge : ∀ w, W.before .get e ≤ x.sched.count .get w
  ahead : ∃ w, W.before .add (e + 1) < x.sched.count .add w ∧
    x.sched.count .get w = W.before .get e
  behind : ∃ w, x.sched.count .add w = W.before .add (e + 1) ∧
    (x.sent w = e + 1 ∨ W.before .get e < x.sched.count .get w)

theorem count_eq_of_served (ht : t.served = x.sched.served) : t.count o = x.sched.count o := by
  funext v
  simp [SyncScheduler.count, ht]

/-- One call and then the other cache as a whole. -/
theorem count_of_flush {a b : Op} {l : List (Request K D)} (hne : b ≠ a)
    (ht : t.served = x.sched.served ++ W.call w i a :: l.map (Call.mk b)) :
    t.count a = bump (x.sched.count a) w ∧
      ∀ v, t.count b v = x.sched.count b v + l.countP fun m => m.worker = v := by
  constructor
  · funext v
    by_cases hv : v = w
    · subst hv; simp [SyncScheduler.count, ht, Function.comp_def, call, request, hne]
    · simp [SyncScheduler.count, ht, Function.comp_def, call, request, hne, hv, Ne.symm hv]
  · intro v
    simp [SyncScheduler.count, ht, Function.comp_def, call, Ne.symm hne]

theorem Ledger.complete (h : Ledger W x) (hi : i < x.sent w) (hop : W.prog[i]? = some o) :
    W.call w i o ∈ x.sched.received := by
  have hm := (h.received w).mem_iff.mpr (mem_calls.mpr ⟨i, hi, o, hop, rfl⟩)
  exact (List.mem_filter.mp hm).1

theorem mem_served_of_no_wait (h : Ledger W x) (hwait : ∀ r ∈ x.sched.msgAddCache, r.worker ≠ w)
    (hi : W.prog[i]? = some .add) : W.call w i .add ∈ x.sched.served ↔ i < x.sent w := by
  constructor
  · intro hm
    obtain ⟨j, hj, -, hc⟩ := h.genuine (c := W.call w i .add)
      (by simp [SyncScheduler.received, hm])
    have : i = j := congrArg (fun c => c.msg.msgId) hc
    exact this ▸ hj
  · intro hlt
    have hm := h.complete hlt hi
    simp only [SyncScheduler.received, List.mem_append, List.mem_map] at hm
    rcases hm with (hm | ⟨r, hr, hc⟩) | ⟨r, hr, hc⟩
    · exact hm
    · exact absurd (congrArg (fun c => c.msg.worker) hc) (hwait r hr)
    · cases congrArg Call.op hc

theorem not_mem_of_countP_eq_zero {ms : List (Request K D)}
    (h : ms.countP (fun m => m.worker = w) = 0) : ∀ m ∈ ms, m.worker ≠ w := by
  simpa [List.countP_eq_zero] using h

namespace Good

variable (hG : Good W x e) (hL : Ledger W x)

include hG

theorem gets_le (w : Fin K) : x.sched.count .get w ≤ W.before .get e := by
  rw [hG.gets_eq w]
  exact before_mono (min_le_right _ _)

/-- The Add at the horizon is the only one with that many Adds before it. -/
theorem eq_horizon (hop : W.prog[p]? = some .add) (h : W.before .add p = W.before .add e) :
    p = e := by
  have hep : e ≤ p := le_of_before_le hop h.ge
  rcases Nat.lt_or_ge e W.prog.length with hlt | hge
  · rcases getElem?_of_lt hlt with hg | ha
    · exact absurd hg hG.not_get
    · exact le_antisymm (le_of_before_le ha h.le) hep
  · have := lt_length hop
    omega

/-- A worker whose Add evens out the add counts is the slowest. -/
theorem slowest_of_full (hfull : ∀ v, v ≠ w → x.sched.count .add v = x.sched.count .add w + 1) :
    x.sched.count .add w = W.before .add e := by
  obtain ⟨v, hv⟩ := hG.adds_eq
  by_cases hvw : v = w
  · exact hvw ▸ hv
  · have := hfull v hvw
    have := hG.adds_ge w
    omega

include hL

/-- A worker with the fewest Gets answered has no Add waiting. -/
theorem no_wait (hw : ∀ j, x.sched.count .get w ≤ x.sched.count .get j) :
    x.sched.count .add w = W.before .add (x.sent w) := by
  have hc := hL.adds_add_waits w
  by_cases hnil : x.sched.msgAddCache = []
  · simpa [hnil] using hc
  · obtain ⟨j, hj⟩ := hG.cached_adds hnil
    have hlt : x.sched.count .get w < W.before .get e := (hw j).trans_lt hj
    have hse : x.sent w ≤ e := by
      by_contra hgt
      rw [hG.gets_eq w, min_eq_right (by omega)] at hlt
      exact lt_irrefl _ hlt
    have := before_mono (W := W) (o := .add) hse
    have := hG.adds_ge w
    omega

/-- The slowest worker's next Add stands at the horizon, and by then every Get before it was
answered and no Add waits. -/
theorem at_horizon (hop : W.prog[x.sent w]? = some .add)
    (hw : ∀ j, x.sched.count .get w ≤ x.sched.count .get j)
    (ha : x.sched.count .add w = W.before .add e) :
    x.sent w = e ∧ (∀ j, x.sched.count .get j = W.before .get e) ∧ x.sched.msgAddCache = [] := by
  have hse := hG.eq_horizon hop ((hG.no_wait hL hw).symm.trans ha)
  have hgw : x.sched.count .get w = W.before .get e := by rw [hG.gets_eq w, hse, min_self]
  refine ⟨hse, fun j => le_antisymm (hG.gets_le j) (hgw ▸ hw j), ?_⟩
  by_contra hnil
  obtain ⟨j, hj⟩ := hG.cached_adds hnil
  have := hw j
  omega

/-- A Get is served on arrival only before the horizon. -/
theorem sent_lt (hop : W.prog[x.sent w]? = some .get)
    (hw : ∀ j, x.sched.count .add w ≤ x.sched.count .add j)
    (hwait : ∀ r ∈ x.sched.msgAddCache, r.worker ≠ w) :
    x.sent w < e ∧ x.sched.count .add w = W.before .add e := by
  have hc := hL.adds_add_waits w
  rw [List.countP_eq_zero.mpr (by simpa using hwait), Nat.add_zero] at hc
  obtain ⟨j, hj⟩ := hG.adds_eq
  have hae : x.sched.count .add w = W.before .add e := le_antisymm (hj ▸ hw j) (hG.adds_ge w)
  refine ⟨?_, hae⟩
  by_contra hge
  rcases eq_or_lt_of_le (not_lt.mp hge) with heq | hlt
  · exact hG.not_get (heq ▸ hop)
  · have hel : e < W.prog.length := hlt.trans (lt_length hop)
    have ha := (getElem?_of_lt hel).resolve_left hG.not_get
    exact absurd (le_of_before_le ha (hc.symm.trans hae).le) (by omega)

omit hL in
theorem gets_self (hlt : x.sent w < e) : x.sched.count .get w = W.before .get (x.sent w) := by
  rw [hG.gets_eq w, min_eq_left hlt.le]

omit hL in
/-- The Add waits: nothing is served and the horizon stays. -/
theorem cacheAdd (hop : W.prog[x.sent w]? = some .add)
    (hw : ∃ j, x.sched.count .get j < x.sched.count .get w)
    (hs : t.served = x.sched.served) (hg : t.msgGetCache = x.sched.msgGetCache) :
    Good W ⟨t, bump x.sent w⟩ e where
  le_length := hG.le_length
  not_get := hG.not_get
  adds_ge := by simpa only [count_eq_of_served hs] using hG.adds_ge
  adds_eq := by simpa only [count_eq_of_served hs] using hG.adds_eq
  gets_eq v := by
    rw [count_eq_of_served hs, hG.gets_eq v]
    by_cases hv : v = w
    · subst hv
      dsimp only
      rw [bump_self]
      rcases Nat.lt_or_ge (x.sent v) e with hlt | hge
      · rw [min_eq_left hlt.le, min_eq_left hlt, before_succ_of_ne hop (by decide)]
      · rw [min_eq_right hge, min_eq_right (by omega)]
    · simp [hv]
  cached_gets := by simpa only [hg] using hG.cached_gets
  cached_adds _ := by
    obtain ⟨j, hj⟩ := hw
    exact ⟨j, by rw [count_eq_of_served hs]; exact hj.trans_le (hG.gets_le w)⟩

/-- The Get waits: it stands beyond the horizon. -/
theorem cacheGet (hop : W.prog[x.sent w]? = some .get)
    (hw : (∃ j, x.sched.count .add j < x.sched.count .add w) ∨
      ∃ r ∈ x.sched.msgAddCache, r.worker = w)
    (hs : t.served = x.sched.served) (ha : t.msgAddCache = x.sched.msgAddCache)
    (hg : t.msgGetCache = x.sched.msgGetCache ++ [W.request w (x.sent w) .get]) :
    Good W ⟨t, bump x.sent w⟩ e := by
  have hc := hL.adds_add_waits w
  have hes : e < x.sent w := by
    apply lt_of_before_lt (W := W) (o := .add)
    rcases hw with ⟨j, hj⟩ | ⟨r, hr, hrw⟩
    · have := hG.adds_ge j
      omega
    · have := List.countP_pos_iff (p := fun r : Request K D => decide (r.worker = w)).mpr
        ⟨r, hr, by simpa using hrw⟩
      have := hG.adds_ge w
      omega
  refine ⟨hG.le_length, hG.not_get, by simpa only [count_eq_of_served hs] using hG.adds_ge,
    by simpa only [count_eq_of_served hs] using hG.adds_eq, fun v => ?_, ?_, ?_⟩
  · rw [count_eq_of_served hs, hG.gets_eq v]
    by_cases hv : v = w
    · subst hv
      dsimp only
      rw [bump_self, min_eq_right hes.le, min_eq_right (by omega)]
    · simp [hv]
  · intro m hm
    rw [hg, List.mem_append, List.mem_singleton] at hm
    rcases hm with hm | rfl
    · exact hG.cached_gets m hm
    · exact hes.le
  · simpa only [count_eq_of_served hs, ha] using hG.cached_adds

/-- The Get is answered and its round stays open. -/
theorem serveGet (hop : W.prog[x.sent w]? = some .get)
    (hw : ∀ j, x.sched.count .add w ≤ x.sched.count .add j)
    (hwait : ∀ r ∈ x.sched.msgAddCache, r.worker ≠ w)
    (hopen : ∃ v, v ≠ w ∧ x.sched.count .get v ≠ x.sched.count .get w + 1)
    (hs : t.served = x.sched.served ++ [W.call w (x.sent w) .get])
    (ha : t.msgAddCache = x.sched.msgAddCache) (hg : t.msgGetCache = x.sched.msgGetCache) :
    Good W ⟨t, bump x.sent w⟩ e := by
  obtain ⟨hse, hae⟩ := hG.sent_lt hL hop hw hwait
  have hgw := hG.gets_self hse
  have hgets : t.count .get = bump (x.sched.count .get) w := count_serve_self hs rfl
  have hadds : t.count .add = x.sched.count .add := count_serve_other (by decide) hs rfl
  refine ⟨hG.le_length, hG.not_get, by simpa only [hadds] using hG.adds_ge,
    by simpa only [hadds] using hG.adds_eq, fun v => ?_, by simpa only [hg] using hG.cached_gets,
    fun hne => ?_⟩
  · rw [hgets]
    by_cases hv : v = w
    · subst hv
      dsimp only
      rw [bump_self, bump_self, hgw, min_eq_left hse, before_succ hop]
    · simpa [hv] using hG.gets_eq v
  · simp only [ha] at hne
    obtain ⟨j, hj⟩ := hG.cached_adds hne
    by_cases hjw : j = w
    · subst hjw
      obtain ⟨v, hv, hvn⟩ := hopen
      have := hG.gets_le v
      rcases Nat.lt_or_ge (x.sched.count .get j + 1) (W.before .get e) with hlt | hge
      · exact ⟨j, by rw [hgets, bump_self]; exact hlt⟩
      · exact ⟨v, by rw [hgets, bump_of_ne hv]; omega⟩
    · exact ⟨j, by rw [hgets, bump_of_ne hjw]; exact hj⟩

/-- The Get completes its round and the cached Adds are applied; the horizon stays. -/
theorem flushAdds (hop : W.prog[x.sent w]? = some .get)
    (hw : ∀ j, x.sched.count .add w ≤ x.sched.count .add j)
    (hwait : ∀ r ∈ x.sched.msgAddCache, r.worker ≠ w)
    (hs : t.served = x.sched.served ++ W.call w (x.sent w) .get ::
      x.sched.msgAddCache.map (Call.mk .add))
    (ha : t.msgAddCache = []) (hg : t.msgGetCache = x.sched.msgGetCache) :
    Good W ⟨t, bump x.sent w⟩ e := by
  obtain ⟨hse, hae⟩ := hG.sent_lt hL hop hw hwait
  have hgw := hG.gets_self hse
  obtain ⟨hgets, hadds⟩ := count_of_flush (by decide) hs
  refine ⟨hG.le_length, hG.not_get, fun v => ?_, ⟨w, ?_⟩, fun v => ?_,
    by simpa only [hg] using hG.cached_gets, fun hne => absurd ha hne⟩
  · have := hG.adds_ge v
    rw [hadds]
    omega
  · rw [hadds, hae, List.countP_eq_zero.mpr (by simpa using hwait), Nat.add_zero]
  · rw [hgets]
    by_cases hv : v = w
    · subst hv
      dsimp only
      rw [bump_self, bump_self, hgw, min_eq_left hse, before_succ hop]
    · simpa [hv] using hG.gets_eq v

omit hL in
/-- The Add is applied and some worker still has not passed the horizon. -/
theorem serveAdd (hop : W.prog[x.sent w]? = some .add)
    (hstay : ∃ v, x.sched.count .add v = W.before .add e ∧ v ≠ w)
    (hs : t.served = x.sched.served ++ [W.call w (x.sent w) .add])
    (ha : t.msgAddCache = x.sched.msgAddCache) (hg : t.msgGetCache = x.sched.msgGetCache) :
    Good W ⟨t, bump x.sent w⟩ e := by
  have hadds : t.count .add = bump (x.sched.count .add) w := count_serve_self hs rfl
  have hgets : t.count .get = x.sched.count .get := count_serve_other (by decide) hs rfl
  refine ⟨hG.le_length, hG.not_get, fun v => ?_, ?_, fun v => ?_,
    by simpa only [hg] using hG.cached_gets, by simpa only [hgets, ha] using hG.cached_adds⟩
  · rw [hadds]
    exact (hG.adds_ge v).trans le_bump
  · obtain ⟨v, hv, hvw⟩ := hstay
    exact ⟨v, by rw [hadds, bump_of_ne hvw]; exact hv⟩
  · rw [hgets, hG.gets_eq v]
    by_cases hv : v = w
    · subst hv
      dsimp only
      rw [bump_self]
      rcases Nat.lt_or_ge (x.sent v) e with hlt | hge
      · rw [min_eq_left hlt.le, min_eq_left hlt, before_succ_of_ne hop (by decide)]
      · rw [min_eq_right hge, min_eq_right (by omega)]
    · simp [hv]

/-- The slowest worker passes the horizon while another one is already further. -/
theorem passHorizon (hop : W.prog[x.sent w]? = some .add)
    (hw : ∀ j, x.sched.count .get w ≤ x.sched.count .get j)
    (hslow : ∀ v, x.sched.count .add v = W.before .add e → v = w)
    (hopen : ∃ v, v ≠ w ∧ x.sched.count .add v ≠ x.sched.count .add w + 1)
    (hs : t.served = x.sched.served ++ [W.call w (x.sent w) .add])
    (ha : t.msgAddCache = x.sched.msgAddCache) (hg : t.msgGetCache = x.sched.msgGetCache) :
    Good W ⟨t, bump x.sent w⟩ (e + 1) ∨ Jam W ⟨t, bump x.sent w⟩ e := by
  obtain ⟨w', hw'⟩ := hG.adds_eq
  have hae : x.sched.count .add w = W.before .add e := hslow w' hw' ▸ hw'
  obtain ⟨hse, hgall, hnil⟩ := hG.at_horizon hL hop hw hae
  have hope : W.prog[e]? = some .add := hse ▸ hop
  have hadds : t.count .add = bump (x.sched.count .add) w := count_serve_self hs rfl
  have hgets : t.count .get = x.sched.count .get := count_serve_other (by decide) hs rfl
  have hae1 := before_succ hope
  have hge1 := before_succ_of_ne (o := .get) hope (by decide)
  have hge : ∀ v, W.before .add (e + 1) ≤ t.count .add v := by
    intro v
    have := hG.adds_ge v
    by_cases hv : v = w
    · subst hv; simp [hadds]; omega
    · have hne : x.sched.count .add v ≠ W.before .add e := fun h => hv (hslow v h)
      simp only [hadds, bump_of_ne hv]
      omega
  obtain ⟨v, hvw, hv⟩ := hopen
  have hvlt : W.before .add (e + 1) < t.count .add v := by
    have := hge v
    simp only [hadds, bump_of_ne hvw] at this ⊢
    omega
  have hlen : e + 1 < x.sent v := by
    apply lt_of_before_lt (W := W) (o := .add)
    have := hL.count_le .add v
    rw [hadds, bump_of_ne hvw] at hvlt
    omega
  have hsent : ∀ j, e + 1 ≤ bump x.sent w j := by
    intro j
    by_cases hj : j = w
    · subst hj; simp [hse]
    · have h1 := hL.count_le .add j
      have h2 := hge j
      rw [hadds, bump_of_ne hj] at h2
      rw [bump_of_ne hj]
      by_contra hlt
      have := before_mono (W := W) (o := .add) (show x.sent j ≤ e by omega)
      omega
  have hl := hL.sent_le v
  rcases getElem?_of_lt (W := W) (show e + 1 < W.prog.length by omega) with hg1 | ha1
  · right
    refine ⟨hope, hg1, hge, fun j => by rw [hgets]; exact (hgall j).ge, ⟨v, hvlt, ?_⟩, w, ?_, Or.inl ?_⟩
    · rw [hgets]; exact hgall v
    · simp [hadds, hae, hae1]
    · simp [hse]
  · left
    refine ⟨by omega, by simp [ha1], hge, ⟨w, by simp [hadds, hae, hae1]⟩, fun j => ?_, ?_, ?_⟩
    · rw [hgets, hgall j, min_eq_right (hsent j), hge1]
    · intro m hm
      simp only [hg] at hm
      have hem := hG.cached_gets m hm
      have hmg := (hL.genuine_get hm).2.1
      rcases eq_or_lt_of_le hem with heq | hlt
      · rw [← heq, hope] at hmg
        cases hmg
      · exact hlt
    · intro hne
      exact absurd (ha.trans hnil) hne

/-- The slowest worker completes an add round: every cached Get is answered and the horizon moves
to the next Add of the program. -/
theorem flushGets (hop : W.prog[x.sent w]? = some .add)
    (hw : ∀ j, x.sched.count .get w ≤ x.sched.count .get j)
    (hfull : ∀ v, v ≠ w → x.sched.count .add v = x.sched.count .add w + 1)
    (hs : t.served = x.sched.served ++ W.call w (x.sent w) .add ::
      x.sched.msgGetCache.map (Call.mk .get))
    (ha : t.msgAddCache = []) (hg : t.msgGetCache = []) (hLt : Ledger W ⟨t, bump x.sent w⟩) :
    ∃ e', Good W ⟨t, bump x.sent w⟩ e' ∧ W.before .add e' = W.before .add e + 1 ∧
      ∀ v, bump x.sent w v ≤ e' := by
  have hae := hG.slowest_of_full hfull
  obtain ⟨hse, hgall, hnil⟩ := hG.at_horizon hL hop hw hae
  have hope : W.prog[e]? = some .add := hse ▸ hop
  have hae1 := before_succ hope
  obtain ⟨e', hee', hel, hng, haee⟩ := exists_horizon (W := W) (i := e + 1) (lt_length hope)
  have hadds : ∀ v, t.count .add v = W.before .add e' := by
    intro v
    rw [(count_of_flush (by decide) hs).1, haee, hae1]
    by_cases hv : v = w
    · subst hv; simp [hae]
    · simp [hv, hfull v hv, hae]
  have hsent : ∀ v, bump x.sent w v ≤ e' := by
    intro v
    have hc := hLt.adds_add_waits v
    simp only [ha, List.countP_nil, Nat.add_zero, hadds v] at hc
    by_contra hlt
    have hl := hLt.sent_le v
    dsimp only at hl
    have ha' := (getElem?_of_lt (W := W) (show e' < W.prog.length by omega)).resolve_left hng
    exact hlt (le_of_before_le ha' hc.ge)
  refine ⟨e', ⟨hel, hng, fun v => (hadds v).ge, ⟨w, hadds w⟩, fun v => ?_, ?_, ?_⟩,
    haee.trans hae1, hsent⟩
  · have hc := hLt.gets_add_waits v
    simp only [hg, List.countP_nil, Nat.add_zero] at hc
    rw [hc, min_eq_left (hsent v)]
  · simp [hg]
  · exact fun hne => absurd ha hne

theorem quiet (hop : W.prog[x.sent w]? = some .add) : Quiet x w := by
  intro hw hfull
  obtain ⟨hse, -, hnil⟩ := hG.at_horizon hL hop hw (hG.slowest_of_full hfull)
  refine ⟨hnil, ?_⟩
  rintro r hr rfl
  have := hG.cached_gets r hr
  have := (hL.genuine_get hr).1
  omega

theorem step (hop : W.prog[x.sent w]? = some o) (hLt : Ledger W ⟨t, bump x.sent w⟩)
    (h : Outcome W x w t o) : ∃ e', Good W ⟨t, bump x.sent w⟩ e' ∨ Jam W ⟨t, bump x.sent w⟩ e' := by
  cases h with
  | addCached ahead served adds gets => exact ⟨e, .inl (hG.cacheAdd hop ahead served gets)⟩
  | addServed least open_ served adds gets =>
    by_cases hslow : ∀ v, x.sched.count .add v = W.before .add e → v = w
    · exact (hG.passHorizon hL hop least hslow open_ served adds gets).elim
        (fun h => ⟨e + 1, .inl h⟩) fun h => ⟨e, .inr h⟩
    · push Not at hslow
      exact ⟨e, .inl (hG.serveAdd hop hslow served adds gets)⟩
  | addFlush least full served noAdds adds gets =>
    obtain ⟨e', he', -⟩ := hG.flushGets hL hop least full served adds gets hLt
    exact ⟨e', .inl he'⟩
  | getCached waits served adds gets => exact ⟨e, .inl (hG.cacheGet hL hop waits served adds gets)⟩
  | getServed least noWait open_ served adds gets =>
    exact ⟨e, .inl (hG.serveGet hL hop least noWait open_ served adds gets)⟩
  | getFlush least noWait full served adds gets =>
    exact ⟨e, .inl (hG.flushAdds hL hop least noWait served adds gets)⟩

end Good

namespace Jam

variable (hJ : Jam W x e)

include hJ

/-- An Add is served only for a worker whose Gets are jammed. -/
theorem gets_eq (hw : ∀ j, x.sched.count .get w ≤ x.sched.count .get j) :
    x.sched.count .get w = W.before .get e := by
  obtain ⟨v, -, hv⟩ := hJ.ahead
  exact le_antisymm (hv ▸ hw v) (hJ.gets_ge w)

/-- No add round ends: the slowest worker stands at the overtaken Get. -/
theorem add_open (hop : W.prog[x.sent w]? = some .add)
    (hw : ∀ j, x.sched.count .get w ≤ x.sched.count .get j) :
    ∃ v, v ≠ w ∧ x.sched.count .add v = W.before .add (e + 1) ∧
      (x.sent v = e + 1 ∨ W.before .get e < x.sched.count .get v) := by
  obtain ⟨v, hv, hb⟩ := hJ.behind
  refine ⟨v, ?_, hv, hb⟩
  rintro rfl
  rcases hb with hse | hlt
  · rw [hse, hJ.get] at hop
    cases hop
  · have := hJ.gets_eq hw
    omega

theorem quiet (hop : W.prog[x.sent w]? = some .add) : Quiet x w := by
  intro hw hfull
  obtain ⟨v, hvw, hv, -⟩ := hJ.add_open hop hw
  have := hfull v hvw
  have := hJ.adds_ge w
  omega

/-- While nothing is served, the jam stays as it is. -/
theorem of_served_eq (hs : t.served = x.sched.served)
    (hkeep : ∀ v, x.sched.count .add v = W.before .add (e + 1) → x.sent v = e + 1 → v ≠ w) :
    Jam W ⟨t, bump x.sent w⟩ e := by
  have hc : ∀ o, t.count o = x.sched.count o := fun o => count_eq_of_served hs
  refine ⟨hJ.add, hJ.get, by simpa only [hc] using hJ.adds_ge, by simpa only [hc] using hJ.gets_ge,
    by simpa only [hc] using hJ.ahead, ?_⟩
  obtain ⟨v, hv, hse | hlt⟩ := hJ.behind
  · exact ⟨v, by rw [hc]; exact hv, .inl (by simpa [hkeep v hv hse] using hse)⟩
  · exact ⟨v, by rw [hc]; exact hv, .inr (by rw [hc]; exact hlt)⟩

theorem serveAdd (hop : W.prog[x.sent w]? = some .add)
    (hw : ∀ j, x.sched.count .get w ≤ x.sched.count .get j)
    (hs : t.served = x.sched.served ++ [W.call w (x.sent w) .add]) :
    Jam W ⟨t, bump x.sent w⟩ e := by
  have hadds : t.count .add = bump (x.sched.count .add) w := count_serve_self hs rfl
  have hgets : t.count .get = x.sched.count .get := count_serve_other (by decide) hs rfl
  obtain ⟨v, hvw, hv, hb⟩ := hJ.add_open hop hw
  obtain ⟨u, hu, hug⟩ := hJ.ahead
  refine ⟨hJ.add, hJ.get, fun j => by rw [hadds]; exact (hJ.adds_ge j).trans le_bump,
    by simpa only [hgets] using hJ.gets_ge,
    ⟨u, by rw [hadds]; exact hu.trans_le le_bump, by rw [hgets]; exact hug⟩, v, ?_, ?_⟩
  · rw [hadds, bump_of_ne hvw]
    exact hv
  · rw [hgets]
    simpa only [bump_of_ne hvw] using hb

/-- A Get that is served is not the overtaken one. -/
theorem serveGet (hw : ∀ j, x.sched.count .add w ≤ x.sched.count .add j)
    (hs : t.served = x.sched.served ++ [W.call w (x.sent w) .get]) :
    Jam W ⟨t, bump x.sent w⟩ e := by
  have hgets : t.count .get = bump (x.sched.count .get) w := count_serve_self hs rfl
  have hadds : t.count .add = x.sched.count .add := count_serve_other (by decide) hs rfl
  obtain ⟨v, hv, hb⟩ := hJ.behind
  obtain ⟨u, hu, hug⟩ := hJ.ahead
  have huw : u ≠ w := by
    rintro rfl
    have := hw v
    omega
  refine ⟨hJ.add, hJ.get, by simpa only [hadds] using hJ.adds_ge,
    fun j => by rw [hgets]; exact (hJ.gets_ge j).trans le_bump,
    ⟨u, by rw [hadds]; exact hu, by rw [hgets, bump_of_ne huw]; exact hug⟩,
    v, by rw [hadds]; exact hv, ?_⟩
  rw [hgets]
  by_cases hvw : v = w
  · subst hvw
    have := hJ.gets_ge v
    exact .inr (by rw [bump_self]; omega)
  · simpa only [bump_of_ne hvw] using hb

theorem step (hL : Ledger W x) (hop : W.prog[x.sent w]? = some o) (h : Outcome W x w t o) :
    Jam W ⟨t, bump x.sent w⟩ e := by
  cases h with
  | addCached ahead served adds gets =>
    refine hJ.of_served_eq served fun v _ hse => ?_
    rintro rfl
    rw [hse, hJ.get] at hop
    cases hop
  | addServed least open_ served adds gets => exact hJ.serveAdd hop least served
  | addFlush least full served noAdds adds gets =>
    obtain ⟨v, hvw, hv, -⟩ := hJ.add_open hop least
    have := full v hvw
    have := hJ.adds_ge w
    omega
  | getCached waits served adds gets =>
    refine hJ.of_served_eq served fun v hv hse => ?_
    rintro rfl
    have hc := hL.adds_add_waits v
    rw [hse, hv] at hc
    rcases waits with ⟨j, hj⟩ | ⟨r, hr, hrw⟩
    · have := hJ.adds_ge j
      omega
    · exact not_mem_of_countP_eq_zero (w := v) (by omega) r hr hrw
  | getServed least noWait open_ served adds gets => exact hJ.serveGet least served
  | getFlush least noWait full served adds gets =>
    obtain ⟨u, hu, hug⟩ := hJ.ahead
    obtain ⟨v, hv, -⟩ := hJ.behind
    have huw : u ≠ w := by
      rintro rfl
      have := least v
      omega
    have := full u huw
    have := hJ.gets_ge w
    omega

end Jam

theorem ownOrder_add {pre : List (Call K D)} {m : Request K D} : OwnOrder W pre ⟨.add, m⟩ :=
  fun h => nomatch h

/-- A Get served on arrival sees what its worker sent before it. -/
theorem ownOrder_arrival (hL : Ledger W x) (hop : W.prog[x.sent w]? = some .get)
    (hwait : ∀ r ∈ x.sched.msgAddCache, r.worker ≠ w) :
    OwnOrder W x.sched.served (W.call w (x.sent w) .get) :=
  fun _ => ⟨hop, fun _ hi => mem_served_of_no_wait hL hwait hi⟩

/-- Answered Gets leave the Adds applied so far as they are. -/
theorem mem_append_gets {l pre : List (Call K D)} (hpre : ∀ c ∈ pre, c.op = .get) :
    W.call v i .add ∈ l ++ pre ↔ W.call v i .add ∈ l := by
  rw [List.mem_append, or_iff_left]
  intro hm
  cases hpre _ hm

/-- A Get released by an Add round sees no Add of its worker that stands after it. -/
theorem Good.ownOrder_flush (hG : Good W x e) (hL : Ledger W x)
    (hop : W.prog[x.sent w]? = some .add)
    (hw : ∀ j, x.sched.count .get w ≤ x.sched.count .get j)
    (hfull : ∀ v, v ≠ w → x.sched.count .add v = x.sched.count .add w + 1)
    (hs : t.served = x.sched.served ++ W.call w (x.sent w) .add ::
      x.sched.msgGetCache.map (Call.mk .get))
    (ha : t.msgAddCache = []) (hg : t.msgGetCache = []) (hLt : Ledger W ⟨t, bump x.sent w⟩)
    {m : Request K D} (hm : m ∈ x.sched.msgGetCache) {pre : List (Call K D)}
    (hpre : ∀ c ∈ pre, c.op = .get) :
    OwnOrder W (x.sched.served ++ [W.call w (x.sent w) .add] ++ pre) ⟨.get, m⟩ := by
  obtain ⟨e', -, hae, hsent⟩ := hG.flushGets hL hop hw hfull hs ha hg hLt
  obtain ⟨hlt, hmg, -⟩ := hL.genuine_get hm
  refine fun _ => ⟨hmg, fun i hi => ?_⟩
  have hem := hG.cached_gets m hm
  have hts : t.served = x.sched.served ++ [W.call w (x.sent w) .add] ++
      x.sched.msgGetCache.map (Call.mk .get) := by simp [hs]
  have hgets : ∀ c ∈ x.sched.msgGetCache.map (Call.mk .get), c.op = Op.get := by simp
  have hall := mem_served_of_no_wait (w := m.worker) hLt (by simp [ha]) hi
  rw [hts, mem_append_gets hgets] at hall
  rw [mem_append_gets hpre]
  refine hall.trans ⟨fun his => ?_, fun him => (him.trans hlt).trans_le le_bump⟩
  have hie : i ≤ e := by
    by_contra hei
    have hope : W.prog[e]? = some .add := by
      have := lt_length hi
      exact (getElem?_of_lt (by omega)).resolve_left hG.not_get
    have := before_succ hope
    have := before_mono (W := W) (o := .add) (show e + 1 ≤ i by omega)
    have := le_of_before_le (j := e') hi (by omega)
    have := hsent m.worker
    dsimp only at his
    omega
  rcases eq_or_lt_of_le (hie.trans hem) with heq | hlt
  · rw [← heq, hi] at hmg
    cases hmg
  · exact hlt

/-- What holds of every reachable state, whatever the workers have outstanding. -/
structure Inv (W : Workload K D) (x : System K D) : Prop where
  ledger : Ledger W x
  ordered : History.Each (OwnOrder W) x.sched.served
  phase : ∃ e, Good W x e ∨ Jam W x e

theorem Good.start [NeZero K] : ∃ e, Good W (start K D) e := by
  obtain ⟨e, -, hel, hng, he⟩ := exists_horizon (W := W) (Nat.zero_le _)
  have hz : ∀ o w, (Workload.start K D).sched.count o w = 0 := fun _ _ => rfl
  have h0 : ∀ o, W.before o 0 = 0 := fun o => by simp [before]
  refine ⟨e, ⟨hel, hng, fun w => ?_, ⟨0, ?_⟩, fun w => ?_, fun m hm => absurd hm List.not_mem_nil,
    fun h => absurd rfl h⟩⟩
  · rw [he, h0]
    exact Nat.zero_le _
  · rw [he, h0, hz]
  · rw [hz, show (Workload.start K D).sent w = 0 from rfl, Nat.zero_min, h0]

theorem Inv.start [NeZero K] : Inv W (start K D) where
  ledger := ledger_start
  ordered := History.each_nil
  phase := Good.start.imp fun _ => .inl

theorem Inv.quiet (hI : Inv W x) (hop : W.prog[x.sent w]? = some .add) : Quiet x w := by
  obtain ⟨e, hG | hJ⟩ := hI.phase
  · exact hG.quiet hI.ledger hop
  · exact hJ.quiet hop

theorem Inv.ordered_step (hI : Inv W x) (hop : W.prog[x.sent w]? = some o)
    (hLt : Ledger W ⟨t, bump x.sent w⟩) (h : Outcome W x w t o) :
    History.Each (OwnOrder W) t.served := by
  have hL := hI.ledger
  cases h with
  | addCached ahead served adds gets => rw [served]; exact hI.ordered
  | addServed least open_ served adds gets =>
    rw [served]
    exact History.each_append_singleton.mpr ⟨hI.ordered, ownOrder_add⟩
  | addFlush least full served noAdds adds gets =>
    obtain ⟨e, hG | hJ⟩ := hI.phase
    · have hts : t.served = x.sched.served ++ [W.call w (x.sent w) .add] ++
          x.sched.msgGetCache.map (Call.mk .get) := by simp [served]
      rw [hts]
      refine History.each_append (History.each_append_singleton.mpr ⟨hI.ordered, ownOrder_add⟩) ?_
      intro pre c post hc
      have hmem : ∀ d ∈ pre ++ c :: post, ∃ m ∈ x.sched.msgGetCache, Call.mk .get m = d := by
        rw [← hc]
        simp
      obtain ⟨m, hm, rfl⟩ := hmem c (by simp)
      refine hG.ownOrder_flush hL hop least full served adds gets hLt hm fun d hd => ?_
      obtain ⟨m', -, rfl⟩ := hmem d (by simp [hd])
      rfl
    · obtain ⟨v, hvw, hv, -⟩ := hJ.add_open hop least
      have := full v hvw
      have := hJ.adds_ge w
      omega
  | getCached waits served adds gets => rw [served]; exact hI.ordered
  | getServed least noWait open_ served adds gets =>
    rw [served]
    exact History.each_append_singleton.mpr ⟨hI.ordered, ownOrder_arrival hL hop noWait⟩
  | getFlush least noWait full served adds gets =>
    have hts : t.served = x.sched.served ++ [W.call w (x.sent w) .get] ++
        x.sched.msgAddCache.map (Call.mk .add) := by simp [served]
    rw [hts]
    refine History.each_append (History.each_append_singleton.mpr
      ⟨hI.ordered, ownOrder_arrival hL hop noWait⟩) ?_
    intro pre c post hc
    have hmem : c ∈ x.sched.msgAddCache.map (Call.mk .add) := by rw [hc]; simp
    obtain ⟨m, -, rfl⟩ := List.mem_map.mp hmem
    exact ownOrder_add

/-- The next request of any worker is handled without a failed CHECK. -/
theorem Inv.exists_step (hI : Inv W x) (hf : W.Fits) (hop : W.prog[x.sent w]? = some o) :
    ∃ t, process o x.sched (W.request w (x.sent w) o) = some t ∧ Inv W ⟨t, bump x.sent w⟩ ∧
      Outcome W x w t o := by
  have hq : o = .add → Quiet x w := fun h => hI.quiet (h ▸ hop)
  obtain ⟨t, ht, hLt, ho⟩ := hI.ledger.exists_outcome hf hop hq
  refine ⟨t, ht, ⟨hLt, hI.ordered_step hop hLt ho, ?_⟩, ho⟩
  obtain ⟨e, hG | hJ⟩ := hI.phase
  · exact hG.step hI.ledger hop hLt ho
  · exact ⟨e, .inr (hJ.step hI.ledger hop ho)⟩

theorem Inv.step {y : System K D} (hI : Inv W x) (hf : W.Fits) (h : W.arrive x w = some y) :
    Inv W y := by
  obtain ⟨o, hop, h⟩ := Option.bind_eq_some_iff.mp h
  obtain ⟨t, ht, hIt, -⟩ := hI.exists_step hf hop
  rw [ht] at h
  cases h
  exact hIt

theorem inv_of_reachable [NeZero K] (hf : W.Fits)
    (h : TransitionSystem.Reachable (arrive W) (start K D) x) : Inv W x :=
  h.invariant Inv.start fun _ _ _ hI hs => hI.step hf hs

/-- Under any interleaving, each Get is answered from the Adds its worker issued before it and from
none of those it issued after. -/
theorem get_own_order [NeZero K] (hf : W.Fits)
    (h : TransitionSystem.Reachable (arrive W) (start K D) x) :
    History.Each (OwnOrder W) x.sched.served := (inv_of_reachable hf h).ordered

theorem get_own_order_two : ∃ x, TransitionSystem.Reachable (arrive (addsGetAdd 1)) (start 2 ℕ) x ∧
    x.sched.served.length = 6 ∧ History.Each (OwnOrder (addsGetAdd 1)) x.sched.served := by
  have hf : Fits (addsGetAdd 1) := by
    intro o
    cases o <;> decide
  have hx : TransitionSystem.Reachable (arrive (addsGetAdd 1)) (start 2 ℕ)
      ((TransitionSystem.exec (arrive (addsGetAdd 1)) (start 2 ℕ) [0, 0, 1, 1, 1, 0]).getD
        (start 2 ℕ)) := ⟨[0, 0, 1, 1, 1, 0], by rfl⟩
  exact ⟨_, hx, by rfl, get_own_order hf hx⟩

/-- At `intMax` Adds a Get is overtaken: its worker counts as finished and the round ends early. -/
theorem get_own_order_fails : ∃ x, TransitionSystem.Reachable (arrive (addsGetAdd 2147483646))
    (start 2 ℕ) x ∧ ¬ History.Each (OwnOrder (addsGetAdd 2147483646)) x.sched.served := by
  generalize hn : 2147483646 = n
  have hmax : ((n + 1 : ℕ) : ℤ) = intMax := by subst hn; rfl
  obtain ⟨x, hr, hx⟩ := exists_solo (v := 1) (w := 0) (W := addsGetAdd n) (fun _ _ _ _ => rfl)
    (fun i hi => addsGetAdd_of_lt hi) (by decide)
  obtain ⟨t, ht, hc, hs, ha, hg⟩ := hx.cacheGet (v := 1) addsGetAdd_get (by omega) (by decide)
  have hsent : bump x.sent 0 0 = n + 1 := by simp [hx.sent, alone]
  have hcount : ∀ o, t.count o = x.sched.count o := fun o =>
    count_eq_of_served (hs.trans hx.served.symm)
  have hfull : (t.workerAddClocks.update 0).2 = false :=
    hc.adds.update_false (j := 1) (by decide) fun k => by simp [hcount, hx.count_add, alone]
  obtain ⟨u, hu, huc, hus, hua, hug⟩ := processAdd_served (m := (addsGetAdd n).request 0 (n + 1) .add)
    hc data_ne_nil (by simp [hcount, hx.count_get]) hfull
  have hy : (addsGetAdd n).arrive ⟨t, bump x.sent 0⟩ 0 = some ⟨u, bump (bump x.sent 0) 0⟩ := by
    simp only [arrive, hsent, addsGetAdd_add, Option.bind_some, process, hu, Option.map_some]
  have hadd : u.count .add = bump (alone 0 n) 0 := by
    rw [count_serve_self hus rfl, hcount, hx.count_add]
    rfl
  have ho : Overrun (addsGetAdd n) n ⟨u, bump (bump x.sent 0) 0⟩ := by
    refine ⟨huc, hua.trans ha, hug.trans hg, ?_, ?_, ?_, ?_⟩
    · simpa [hadd, alone] using hmax
    · simp [hadd, alone]
    · rw [count_serve_other (by decide) hus rfl, hcount, hx.count_get]
    · simp [hx.sent, alone]
  obtain ⟨y, hys, -, -, hserved⟩ := ho.flush (addsGetAdd_of_lt (by omega))
  refine ⟨_, ((hr.tail ht).tail hy).tail hys, fun hE => ?_⟩
  have hpost : y.served = ((addsGetAdd n).calls 0 n ++ [(addsGetAdd n).call 0 (n + 1) .add,
      (addsGetAdd n).call 1 0 .add]) ++ (addsGetAdd n).call 0 n .get :: [] := by
    rw [hserved]
    simp [hus, hs, call]
  have := ((hE _ _ _ hpost rfl).2 (n + 1) addsGetAdd_add).mp (by simp [call, request])
  exact absurd this (by simp [call, request])

end Hpps.Scheduler.Workload

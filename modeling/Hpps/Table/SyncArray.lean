import Hpps.Lib.Refinement
import Hpps.Scheduler.AddRounds
import Hpps.Table.ArrayRead

/-! An array table in sync mode: workers that wait for the replies of all servers, and the servers with their
schedulers. -/
namespace Hpps.Scheduler.Workload

open SyncScheduler VectorClock

variable {K : ℕ} {D : Type} {W : Workload K D} {x y : System K D} {w : Fin K} {i : ℕ} {o : Op}

namespace LockstepInv

variable (h : LockstepInv W x)

include h

/-- A request that waits waits for a worker with fewer replies. -/
theorem exists_behind {m : Request K D} (hm : m ∈ x.sched.msgAddCache ++ x.sched.msgGetCache) :
    ∃ u, x.sched.replies u < x.sched.replies m.worker := by
  have hL := h.inv.ledger
  obtain ⟨e, hG, -⟩ := h.phase
  have hid := h.one.msgId_eq hL hm
  rcases List.mem_append.mp hm with hadd | hget
  · obtain ⟨u, hu⟩ := hG.cached_adds (List.ne_nil_of_mem hadd)
    rw [h.one.count_eq] at hu
    have hle := hG.le_of_wait h.one hL hadd
    exact ⟨u, (lt_of_before_lt hu).trans_le (hle.trans_eq hid)⟩
  · have hop := (hL.genuine_get hget).2.1
    have hlt : e < m.msgId := lt_of_le_of_ne (hG.cached_gets m hget) fun heq => hG.not_get (heq ▸ hop)
    have hadd := (getElem?_of_lt (W := W) (hlt.trans (lt_length hop))).resolve_left hG.not_get
    obtain ⟨u, hu⟩ := hG.adds_eq
    rw [h.one.count_eq] at hu
    refine ⟨u, lt_of_not_ge fun hle => ?_⟩
    have hsucc := before_succ hadd
    have hmono := before_mono (W := W) (o := .add) (show e + 1 ≤ x.sched.replies u by omega)
    omega

/-- A worker whose requests are answered can send its next one, and what is served comes behind what was. -/
theorem exists_arrive (hf : W.Fits) (hidle : x.sched.replies w = x.sent w) (hop : W.prog[x.sent w]? = some o) :
    ∃ y l, W.arrive x w = some y ∧ LockstepInv W y ∧ y.sched.served = x.sched.served ++ l := by
  obtain ⟨t, ht, -, ho⟩ := h.inv.exists_step hf hop
  have harrive : W.arrive x w = some ⟨t, bump x.sent w⟩ := by simp [arrive, hop, ht]
  have hy := h.step hf ((lockstep_eq hidle).trans harrive)
  rcases ho.served_cases with hs | ⟨o', ms, hs, -⟩
  · exact ⟨_, [], harrive, hy, by rw [hs, List.append_nil]⟩
  · exact ⟨_, _, harrive, hy, hs⟩

/-- The calls before a worker's `i`-th are its first, and it is served once it has more than `i` replies. -/
theorem exists_served (hop : W.prog[i]? = some o) (hi : i < x.sched.replies w) :
    ∃ pre post, x.sched.served = pre ++ W.call w i o :: post ∧ ∀ c ∈ pre, c.msg.worker = w → c.msg.msgId < i := by
  have hfilter := h.one.served_filter w
  obtain ⟨l, hl⟩ := calls_append (W := W) w (i + 1) (x.sched.replies w - (i + 1))
  rw [Nat.add_sub_cancel' hi, calls_succ hop, List.append_assoc, List.singleton_append] at hl
  rw [hl] at hfilter
  obtain ⟨pre, rest, hserved, hpre, hrest⟩ := List.filter_eq_append_iff.mp hfilter
  obtain ⟨mid, post, rfl, hmid, -, -⟩ := List.filter_eq_cons_iff.mp hrest
  refine ⟨pre ++ mid, post, by rw [hserved, List.append_assoc], fun c hc hw => ?_⟩
  rcases List.mem_append.mp hc with hc | hc
  · have hmem : c ∈ W.calls w i := by
      rw [← hpre]
      exact List.mem_filter.mpr ⟨hc, by simpa using hw⟩
    obtain ⟨i', hi', o', -, rfl⟩ := mem_calls.mp hmem
    exact hi'
  · exact absurd (by simpa using hw) (hmid c hc)

end LockstepInv
end Hpps.Scheduler.Workload

namespace Hpps.Table

open Hpps.Scheduler TransitionSystem Blocks

/-- The table and its nodes, the program that all workers run, and each worker's `r`-th Add. `AddAsync` checks the
size of an Add. -/
structure SyncArray (T : Type) (K n : ℕ) extends ArraySystem T K n where
  prog : List Op
  add : Fin K → ℕ → Add T
  length_add : ∀ w r, (add w r).delta.length = size

/-- The scheduler of each server, its table, and the replies it has sent. -/
structure SyncCluster (T : Type) (K n : ℕ) where
  systems : Fin n → System K (Blob T)
  tables : Fin n → ArrayServer T
  replied : Fin n → List (Call K (Blob T) × List (Blob T))

/-- Two workers that Get, Add and Get again. -/
def getAddGet : SyncArray ℤ 2 2 where
  toArraySystem := ArraySystem.sgdOfThree
  prog := [.get, .add, .get]
  add w _ := ⟨[1, 2 * w.val, 3], if w = ⟨0, Nat.zero_lt_two⟩ then some ⟨2⟩ else none⟩
  length_add _ _ := rfl

open TwoParties in
/-- The second Get of worker 1 waits at each server for the Add of worker 0. -/
def getAddGetMoves : List (Fin 2 × Fin 2) :=
  [(0, 0), (1, 0), (0, 1), (1, 1), (1, 1), (0, 1), (0, 1), (0, 0), (1, 1), (1, 0), (0, 0), (1, 0)]

namespace SyncArray

variable {T : Type} {K n : ℕ} (S : SyncArray T K n)

/-- What server `j` is sent. -/
def workload (j : Fin n) : Workload K (Blob T) where
  prog := S.prog
  payload w i :=
    let a := S.part (S.add w ((S.prog.take i).count .add)) j
    ⟨.key (-1), .values a.delta, a.option.map .option⟩

variable [CommRing T]

/-- `Scheduler::ProcessGet` and `Scheduler::ProcessAdd`: a call on the table and the reply. -/
def serve (st : ArrayServer T × List (Call K (Blob T) × List (Blob T))) (c : Call K (Blob T)) :
    Except Stop (ArrayServer T × List (Call K (Blob T) × List (Blob T))) :=
  match c.op with
  | .get => do
    let data ← st.1.processGet c.msg.data
    return (st.1, st.2 ++ [(c, data)])
  | .add => do
    let table ← st.1.processAdd S.rate c.msg.data
    return (table, st.2 ++ [(c, [])])

def init : SyncCluster T K n where
  systems _ := Workload.start K (Blob T)
  tables j := ArrayServer.new S.size n j S.solver fun i => S.gen (S.offset j + i)
  replied _ := []

/-- The next request of worker `w` reaches server `j`. The worker sends it when all servers have replied to the ones
before it. -/
def step (c : SyncCluster T K n) (a : Fin n × Fin K) : Option (SyncCluster T K n) :=
  let (j, w) := a
  if ∀ j', (c.systems j).sent w ≤ (c.systems j').sched.replies w then
    ((S.workload j).arrive (c.systems j) w).bind fun x =>
      let calls := x.sched.served.drop (c.systems j).sched.served.length
      (calls.foldlM S.serve (c.tables j, c.replied j)).toOption.map fun st =>
        { systems := Function.update c.systems j x
          tables := Function.update c.tables j st.1
          replied := Function.update c.replied j st.2 }
  else none

omit [CommRing T] in
/-- The reply of server `j` to the `i`-th request of worker `w`. -/
def reply (c : SyncCluster T K n) (j : Fin n) (w : Fin K) (i : ℕ) : Option (List (Blob T)) :=
  ((c.replied j).find? fun p => p.1.msg.worker = w ∧ p.1.msg.msgId = i).map Prod.snd

/-- The table with the first `m` Adds of every worker. -/
def snapshot (m : ℕ) : List T :=
  (List.range S.size).map fun k => S.gen k + ∑ w, ∑ r ∈ Finset.range m, S.effect k (S.add w r)

/-! ### The calls on the table of a server -/

/-- What a call contributes to element `k` of its server. -/
def callEffect (k : ℕ) (c : Call K (Blob T)) : T :=
  match c.op with
  | .get => 0
  | .add => ((Add.ofBlobs c.msg.data).map (S.effect k)).getD 0

/-- The table of server `j` after the calls `l`. -/
def after (j : Fin n) (l : List (Call K (Blob T))) : ArrayServer T where
  serverId := j
  size := S.share j
  storage := (List.range (S.share j)).map fun i => S.gen (S.offset j + i) + (l.map (S.callEffect i)).sum
  solver := S.solver

/-- The reply to a call that comes after the calls `pre`. -/
def answer (j : Fin n) (pre : List (Call K (Blob T))) (c : Call K (Blob T)) : List (Blob T) :=
  match c.op with
  | .get => [.key (j : ℕ), .values (S.after j pre).storage]
  | .add => []

/-- The table and the replies after the calls `l`. -/
structure Served (j : Fin n) (l : List (Call K (Blob T)))
    (st : ArrayServer T × List (Call K (Blob T) × List (Blob T))) : Prop where
  table : st.1 = S.after j l
  calls : st.2.map Prod.fst = l
  answers : ∀ pre c post, l = pre ++ c :: post →
    ∃ as bs, st.2 = as ++ (c, S.answer j pre c) :: bs ∧ as.map Prod.fst = pre

variable {S} {c c' : SyncCluster T K n} {j : Fin n} {w : Fin K} {i : ℕ} {o : Op} {l pre post : List (Call K (Blob T))}
  {st : ArrayServer T × List (Call K (Blob T) × List (Blob T))}

theorem served_nil : S.Served j [] (S.init.tables j, S.init.replied j) where
  table := by simp [init, after, ArrayServer.new]
  calls := rfl
  answers pre c post h := by simp at h

omit [CommRing T] in
theorem data_call_add : ((S.workload j).call w i .add).msg.data =
    (S.part (S.add w ((S.prog.take i).count .add)) j).blobs := rfl

theorem callEffect_add (k : ℕ) : S.callEffect k ((S.workload j).call w i .add) =
    S.effect k (S.part (S.add w ((S.prog.take i).count .add)) j) := by
  change ((Add.ofBlobs ((S.workload j).call w i .add).msg.data).map (S.effect k)).getD 0 = _
  rw [data_call_add, Add.ofBlobs_blobs]
  rfl

theorem after_add : S.after j (l ++ [(S.workload j).call w i .add]) =
    { S.after j l with
      storage := (S.after j l).storage.mapIdx fun k x =>
        x + S.effect k (S.part (S.add w ((S.prog.take i).count .add)) j) } := by
  simp only [after, ArrayServer.mk.injEq, true_and, and_true]
  symm
  rw [List.mapIdx_eq_iff]
  intro k
  rcases lt_or_ge k (S.share j) with hk | hk
  · simp [hk, callEffect_add, add_assoc]
  · rw [List.getElem?_eq_none (by simpa using hk), List.getElem?_eq_none (by simpa using hk)]
    rfl

theorem after_get : S.after j (l ++ [(S.workload j).call w i .get]) = S.after j l := by
  have hzero : ∀ k, S.callEffect k ((S.workload j).call w i .get) = 0 := fun _ => rfl
  simp [after, hzero]

/-- A call of a worker can be made, and is answered. -/
theorem Served.serve (h : S.Served j l st) (o : Op) :
    ∃ st', S.serve st ((S.workload j).call w i o) = .ok st' ∧ S.Served j (l ++ [(S.workload j).call w i o]) st' := by
  have hanswers : ∀ st' : ArrayServer T × List (Call K (Blob T) × List (Blob T)),
      st'.2 = st.2 ++ [((S.workload j).call w i o, S.answer j l ((S.workload j).call w i o))] →
      st'.1 = S.after j (l ++ [(S.workload j).call w i o]) → S.Served j (l ++ [(S.workload j).call w i o]) st' := by
    rintro st' hlog htable
    refine ⟨htable, by rw [hlog, List.map_append, h.calls]; rfl, fun pre c post hl => ?_⟩
    rcases List.eq_nil_or_concat post with rfl | ⟨post, d, rfl⟩
    · obtain ⟨rfl, hc⟩ := List.append_inj' hl rfl
      cases hc
      exact ⟨st.2, [], hlog, h.calls⟩
    · have hl' : l ++ [(S.workload j).call w i o] = (pre ++ c :: post) ++ [d] := by simpa using hl
      obtain ⟨hl, -⟩ := List.append_inj' hl' rfl
      obtain ⟨as, bs, hst, has⟩ := h.answers pre c post hl
      exact ⟨as, bs ++ [((S.workload j).call w i o, S.answer j l ((S.workload j).call w i o))],
        by rw [hlog, hst]; simp, has⟩
  cases o with
  | get =>
    refine ⟨(st.1, st.2 ++ [((S.workload j).call w i .get, [.key st.1.serverId, .values st.1.storage])]), rfl,
      hanswers _ ?_ ?_⟩
    · rw [h.table]
      rfl
    · rw [after_get]
      exact h.table
  | add =>
    have hpart : (S.part (S.add w ((S.prog.take i).count .add)) j).delta.length = S.share j :=
      length_slice ((S.length_add w _).trans (offset_share_last S.pos).symm) j.isLt
    have hadd : (S.after j l).processAdd S.rate _ = _ := S.processAdd_eq rfl (by simp [after]) hpart
    refine ⟨(S.after j (l ++ [(S.workload j).call w i .add]), st.2 ++ [((S.workload j).call w i .add, [])]), ?_,
      hanswers _ rfl rfl⟩
    have hserve : S.serve st ((S.workload j).call w i .add) =
        (st.1.processAdd S.rate (S.part (S.add w ((S.prog.take i).count .add)) j).blobs).map
          fun table => (table, st.2 ++ [((S.workload j).call w i .add, [])]) := by
      rw [SyncArray.serve]
      simp only [Workload.call]
      rfl
    rw [hserve, h.table, hadd, after_add]
    rfl

theorem Served.calls_ok (h : S.Served j l st) {calls : List (Call K (Blob T))}
    (hcalls : ∀ c ∈ calls, ∃ w i o, c = (S.workload j).call w i o) :
    ∃ st', calls.foldlM S.serve st = .ok st' ∧ S.Served j (l ++ calls) st' := by
  induction calls generalizing l st with
  | nil => exact ⟨st, rfl, by simpa using h⟩
  | cons c calls ih =>
    obtain ⟨w, i, o, rfl⟩ := hcalls c List.mem_cons_self
    obtain ⟨st', hst', hserved⟩ := h.serve (w := w) (i := i) o
    obtain ⟨st'', hst'', hserved'⟩ := ih hserved fun c hc => hcalls c (List.mem_cons_of_mem _ hc)
    refine ⟨st'', ?_, by simpa using hserved'⟩
    rw [List.foldlM_cons, hst', ok_bind, hst'']

/-! ### Runs -/

/-- Each server serves as if it was the only one, and its table has seen the calls of its scheduler. -/
def Inv (S : SyncArray T K n) (c : SyncCluster T K n) : Prop :=
  ∀ j, (S.workload j).LockstepInv (c.systems j) ∧
    S.Served j (c.systems j).sched.served (c.tables j, c.replied j)

theorem inv_init [NeZero K] : Inv S S.init := fun _ => ⟨.start, served_nil⟩

/-- The counters of the schedulers do not run over. -/
def Fits (S : SyncArray T K n) : Prop := ∀ o, (S.prog.count o : ℤ) < intMax

theorem getAddGet_fits : getAddGet.Fits := by
  intro o
  cases o
  · change ((2 : ℕ) : ℤ) < intMax
    norm_num [intMax]
  · change ((1 : ℕ) : ℤ) < intMax
    norm_num [intMax]

theorem Inv.idle (h : Inv S c) (hsend : ∀ j', (c.systems j).sent w ≤ (c.systems j').sched.replies w) :
    (c.systems j).sched.replies w = (c.systems j).sent w := by
  have hle := hsend j
  have hwaits := (h j).1.inv.ledger.replies_add_waits w
  omega

/-- A worker with a request to send can send it. -/
theorem Inv.exists_step (h : Inv S c) (hf : S.Fits)
    (hsend : ∀ j', (c.systems j).sent w ≤ (c.systems j').sched.replies w)
    (hop : S.prog[(c.systems j).sent w]? = some o) : ∃ c', S.step c (j, w) = some c' ∧ Inv S c' ∧
      ∃ x, (S.workload j).arrive (c.systems j) w = some x ∧ c'.systems = Function.update c.systems j x := by
  obtain ⟨hinv, hserved⟩ := h j
  obtain ⟨x, l, harrive, hx, hl⟩ := hinv.exists_arrive (W := S.workload j) hf (h.idle hsend) hop
  have hcalls : ∀ d ∈ l, ∃ w i o, d = (S.workload j).call w i o := by
    intro d hd
    have hmem : d ∈ x.sched.received := by
      rw [SyncScheduler.received, hl]
      simp [hd]
    obtain ⟨i, -, -, hd⟩ := hx.inv.ledger.genuine hmem
    exact ⟨_, _, _, hd⟩
  obtain ⟨st, hst, hserved⟩ := hserved.calls_ok hcalls
  refine ⟨⟨Function.update c.systems j x, Function.update c.tables j st.1, Function.update c.replied j st.2⟩, ?_, ?_,
    x, harrive, rfl⟩
  · simp only [step]
    rw [if_pos hsend, harrive, Option.bind_some, hl, List.drop_left, hst]
    rfl
  · intro k
    by_cases hk : k = j
    · subst hk
      simp only [Function.update_self]
      exact ⟨hx, hl ▸ hserved⟩
    · simp only [Function.update_of_ne hk]
      exact h k

theorem Inv.step_cases (h : Inv S c) (hf : S.Fits) (hs : S.step c (j, w) = some c') : Inv S c' ∧
    ∃ x, (S.workload j).arrive (c.systems j) w = some x ∧ c'.systems = Function.update c.systems j x := by
  have hs' := hs
  simp only [step] at hs
  split at hs
  · rename_i hsend
    obtain ⟨x, harrive, -⟩ := Option.bind_eq_some_iff.mp hs
    obtain ⟨o, hop, -⟩ := Option.bind_eq_some_iff.mp harrive
    obtain ⟨c'', hc'', hinv⟩ := h.exists_step hf hsend hop
    rw [hs'] at hc''
    cases hc''
    exact hinv
  · cases hs

theorem reachable_inv [NeZero K] (hf : S.Fits) (h : Reachable S.step S.init c) : Inv S c :=
  h.invariant inv_init fun _ _ _ hx hs => (hx.step_cases hf hs).1

/-! ### Gets -/

/-- The calls of a server, worker by worker. -/
theorem sum_callEffect (k : ℕ) (l : List (Call K (Blob T))) : (l.map (S.callEffect k)).sum =
    ∑ v, ((l.filter fun d => d.op = .add ∧ d.msg.worker = v).map (S.callEffect k)).sum := by
  induction l with
  | nil => simp
  | cons d l ih =>
    rw [List.map_cons, List.sum_cons, ih]
    cases hop : d.op with
    | get =>
      have hzero : S.callEffect k d = 0 := by rw [callEffect, hop]
      simp [hop, hzero]
    | add =>
      have hone : ∀ v, ((d :: l).filter fun d => d.op = .add ∧ d.msg.worker = v).map (S.callEffect k) =
          (if d.msg.worker = v then [S.callEffect k d] else []) ++
            (l.filter fun d => d.op = .add ∧ d.msg.worker = v).map (S.callEffect k) := by
        intro v
        by_cases hv : d.msg.worker = v <;> simp [hop, hv]
      simp only [hone, List.sum_append, Finset.sum_add_distrib]
      congr 1
      rw [Finset.sum_eq_single d.msg.worker] <;> simp +contextual [eq_comm]

theorem sum_adds {m k : ℕ} (hm : m ≤ S.prog.count .add) (v : Fin K) :
    ((((S.workload j).adds v).take m).map (S.callEffect k)).sum =
      ∑ r ∈ Finset.range m, S.effect k (S.part (S.add v r) j) := by
  have hmap : (((S.workload j).adds v).take m).map (S.callEffect k) =
      (List.range m).map fun r => S.effect k (S.part (S.add v r) j) := by
    refine List.ext_getElem? fun r => ?_
    rcases lt_or_ge r m with hr | hr
    · have hlen : r < ((S.workload j).adds v).length := by
        rw [Workload.length_adds]
        exact hr.trans_le hm
      obtain ⟨i, hi, hcall⟩ := Workload.getElem?_adds (List.getElem?_eq_getElem hlen)
      rw [List.getElem?_map, List.getElem?_take_of_lt hr, List.getElem?_eq_getElem hlen, hcall, List.getElem?_map,
        List.getElem?_range hr, Option.map_some, Option.map_some, callEffect_add]
      rw [show (S.prog.take i).count .add = r from hi]
    · rw [List.getElem?_eq_none (by simp; omega), List.getElem?_eq_none (by simpa using hr)]
  rw [hmap]
  rfl

/-- The share of server `j` when it has the first `m` Adds of every worker. -/
theorem storage_after {m : ℕ} (hm : m ≤ S.prog.count .add)
    (h : ∀ v, l.filter (fun d => d.op = .add ∧ d.msg.worker = v) = ((S.workload j).adds v).take m) :
    (S.after j l).storage = slice S.share (S.snapshot m) j := by
  have hsnapshot : (S.snapshot m).length = S.size := by simp [snapshot]
  refine List.ext_getElem? fun k => ?_
  rcases lt_or_ge k (S.share j) with hk | hk
  · have hle : Blocks.offset S.share (j + 1) ≤ S.size := offset_le S.pos j.isLt
    rw [Blocks.offset_succ] at hle
    have hlt : S.offset j + k < S.size := (Nat.add_lt_add_left hk _).trans_le hle
    rw [getElem?_slice hk, snapshot, List.getElem?_map, List.getElem?_range hlt, after, List.getElem?_map,
      List.getElem?_range hk, Option.map_some, Option.map_some, sum_callEffect]
    simp only [h, sum_adds hm, S.effect_part hk]
  · have hslice : (slice S.share (S.snapshot m) j).length = S.share j :=
      length_slice (hsnapshot.trans (offset_share_last S.pos).symm) j.isLt
    rw [List.getElem?_eq_none (by simpa [after] using hk), List.getElem?_eq_none (hslice.trans_le hk)]

/-- A Get that a server has answered was answered with its share of the snapshot. -/
theorem Inv.reply_eq (h : Inv S c) (hop : S.prog[i]? = some .get) (hi : i < (c.systems j).sched.replies w) :
    reply c j w i = some [.key (j : ℕ), .values (slice S.share (S.snapshot ((S.prog.take i).count .add)) j)] := by
  obtain ⟨hinv, hserved⟩ := h j
  obtain ⟨pre, post, hcalls, hpre⟩ := hinv.exists_served (W := S.workload j) hop hi
  obtain ⟨-, hsnapshot⟩ := hinv.snapshots pre _ post hcalls rfl
  obtain ⟨as, bs, hreplied, has⟩ := hserved.answers pre _ post hcalls
  have hstorage : (S.after j pre).storage = slice S.share (S.snapshot ((S.prog.take i).count .add)) j :=
    storage_after (Workload.before_le (W := S.workload j)) hsnapshot
  have hfind : (c.replied j).find? (fun p => p.1.msg.worker = w ∧ p.1.msg.msgId = i) =
      some ((S.workload j).call w i .get, S.answer j pre ((S.workload j).call w i .get)) := by
    rw [List.find?_eq_some_iff_append]
    refine ⟨by simp [Workload.call, Workload.request], as, bs, hreplied, fun p hp => ?_⟩
    have hmem : p.1 ∈ pre := has ▸ List.mem_map_of_mem hp
    have hlt := hpre p.1 hmem
    simp only [Bool.not_eq_true', decide_eq_false_iff_not, not_and]
    intro hw heq
    exact absurd (hlt hw) (by omega)
  rw [reply, hfind, ← hstorage]
  rfl

omit [CommRing T] in
/-- The replies of the servers fill the buffer in any order. -/
theorem filled_of_replies {table : List T} (htable : table.length = S.size) (order : List (Fin n)) {data : List T}
    {done : List ℕ} (h : Filled S.size n table data done) : ∃ d,
      order.foldlM (fun data (j : Fin n) => (workerOf S.size n).ProcessReplyGet data
        [.key (j : ℕ), .values (slice S.share table j)]) data = .ok d ∧
      Filled S.size n table d ((order.map Fin.val).reverse ++ done) := by
  induction order generalizing data done with
  | nil => exact ⟨data, rfl, h⟩
  | cons j order ih =>
    have hlen : (slice S.share table j).length = S.share j :=
      length_slice (htable.trans (offset_share_last S.pos).symm) j.isLt
    have hreply := processReplyGet_eq S.pos (S.size_lt.trans (by norm_num)) j.isLt h.1 hlen
    obtain ⟨d, hd, hfilled⟩ := ih (h.reply S.pos j.isLt htable)
    refine ⟨d, ?_, by simpa using hfilled⟩
    rw [List.foldlM_cons, hreply, ok_bind, hd]

/-- A Get that all servers have answered reads the table with the Adds that stand before it in the program, of every
worker and on every server, in whatever order the replies arrive. -/
theorem read_whole_snapshot [NeZero K] (hf : S.Fits) (h : Reachable S.step S.init c)
    (hop : S.prog[i]? = some .get) (hreplied : ∀ j, i < (c.systems j).sched.replies w) :
    ∃ blobs : Fin n → List (Blob T), (∀ j, reply c j w i = some (blobs j)) ∧
      ∀ order : List (Fin n), (∀ j, j ∈ order) → ∀ data : List T, data.length = S.size →
        order.foldlM (fun data (j : Fin n) => (workerOf S.size n).ProcessReplyGet data (blobs j)) data =
          .ok (S.snapshot ((S.prog.take i).count .add)) := by
  have hinv := reachable_inv hf h
  refine ⟨_, fun j => hinv.reply_eq hop (hreplied j), fun order hall data hdata => ?_⟩
  have htable : (S.snapshot ((S.prog.take i).count .add)).length = S.size := by simp [snapshot]
  have hempty : Filled S.size n (S.snapshot ((S.prog.take i).count .add)) data [] := ⟨hdata, by simp⟩
  obtain ⟨d, hd, hfilled⟩ := filled_of_replies htable order hempty
  rw [hd, hfilled.eq S.pos (fun j hj => ?_) htable]
  simpa using ⟨⟨j, hj⟩, hall _, rfl⟩

open TwoParties in
theorem read_whole_snapshot_two : ∃ c, exec getAddGet.step getAddGet.init getAddGetMoves = some c ∧
    ∃ blobs : Fin 2 → List (Blob ℤ), (∀ j, reply c j 1 2 = some (blobs j)) ∧
      [(1 : Fin 2), 0].foldlM (fun data (j : Fin 2) => (workerOf 3 2).ProcessReplyGet data (blobs j)) [7, 7, 7] =
        .ok [-3, -1, -7] := by
  have hrun : exec getAddGet.step getAddGet.init getAddGetMoves =
      some ((exec getAddGet.step getAddGet.init getAddGetMoves).getD getAddGet.init) := by rfl
  have hreplied : ∀ j, 2 < (((exec getAddGet.step getAddGet.init getAddGetMoves).getD
      getAddGet.init).systems j).sched.replies 1 := by
    intro j
    fin_cases j <;> decide +kernel
  obtain ⟨blobs, hblobs, hread⟩ := read_whole_snapshot (i := 2) getAddGet_fits ⟨_, hrun⟩ rfl hreplied
  refine ⟨_, hrun, blobs, hblobs, (hread [1, 0] ?_ [7, 7, 7] rfl).trans ?_⟩
  · intro j
    fin_cases j <;> decide
  · decide +kernel

/-! ### Progress -/

/-- The requests that have still to be sent. -/
def unsent (S : SyncArray T K n) (c : SyncCluster T K n) : ℕ :=
  ∑ j, ∑ w, (S.prog.length - (c.systems j).sent w)

theorem unsent_step (h : Inv S c) (hf : S.Fits) (hs : S.step c (j, w) = some c') : S.unsent c' + 1 = S.unsent c := by
  obtain ⟨-, x, harrive, hsystems⟩ := h.step_cases hf hs
  obtain ⟨o, hop, hmap⟩ := Option.bind_eq_some_iff.mp harrive
  obtain ⟨t, -, rfl⟩ := Option.map_eq_some_iff.mp hmap
  have hlt : (c.systems j).sent w < S.prog.length := Workload.lt_length (W := S.workload j) hop
  have hj := Tally.sum_update (fun x : System K (Blob T) => ∑ w, (S.prog.length - x.sent w)) c.systems j
    ⟨t, VectorClock.bump (c.systems j).sent w⟩
  have hw := Tally.sum_update (fun m => S.prog.length - m) (c.systems j).sent w ((c.systems j).sent w + 1)
  simp only [unsent, hsystems]
  simp only [VectorClock.bump] at hj ⊢
  omega

/-- The worker of the request with the fewest replies before it can go on. -/
theorem Inv.exists_move (h : Inv S c) (hf : S.Fits) (hleft : (c.systems j).sched.replies w < S.prog.length) :
    ∃ a, (S.step c a).isSome := by
  obtain ⟨⟨k, v⟩, -, hleast⟩ := Finset.exists_min_image (Finset.univ : Finset (Fin n × Fin K))
    (fun a => (c.systems a.1).sched.replies a.2) ⟨(j, w), Finset.mem_univ _⟩
  have hidle : ∀ m ∈ (c.systems k).sched.msgAddCache ++ (c.systems k).sched.msgGetCache, m.worker ≠ v := by
    rintro m hm rfl
    obtain ⟨u, hu⟩ := (h k).1.exists_behind hm
    exact absurd (hleast (k, u) (Finset.mem_univ _)) (not_le.mpr hu)
  have hsent := Workload.LockstepInv.replies_eq_sent (h k).1.inv.ledger hidle
  have hlt : (c.systems k).sent v < S.prog.length :=
    hsent ▸ (hleast (j, w) (Finset.mem_univ _)).trans_lt hleft
  obtain ⟨c', hc', -⟩ := h.exists_step (j := k) hf
    (fun j' => hsent ▸ hleast (j', v) (Finset.mem_univ _)) (List.getElem?_eq_getElem hlt)
  exact ⟨(k, v), by rw [hc']; rfl⟩

/-- No CHECK fails, each run ends, and when no worker can go on all requests are answered and the servers hold the
table with all Adds. -/
theorem training_completes [NeZero K] (hf : S.Fits) {as : List (Fin n × Fin K)} (h : exec S.step S.init as = some c) :
    (∀ j w, (∀ j', (c.systems j).sent w ≤ (c.systems j').sched.replies w) →
      (c.systems j).sent w < S.prog.length → (S.step c (j, w)).isSome) ∧
      as.length ≤ n * (K * S.prog.length) ∧
      ((∀ a, S.step c a = none) → (∀ j w, (c.systems j).sched.replies w = S.prog.length) ∧
        ∀ j, (c.tables j).storage = slice S.share (S.snapshot (S.prog.count .add)) j) := by
  have hinv := reachable_inv hf ⟨as, h⟩
  refine ⟨fun j w hsend hlt => ?_, ?_, fun hstuck => ?_⟩
  · obtain ⟨c', hc', -⟩ := hinv.exists_step hf hsend (List.getElem?_eq_getElem hlt)
    rw [hc']
    rfl
  · have hle := exec_countP_le (Inv S) S.unsent (fun _ => true) (fun _ => false) 0 (fun c a c' hc hs => by
      have := unsent_step (j := a.1) (w := a.2) hc hf hs
      exact ⟨(hc.step_cases (j := a.1) (w := a.2) hf hs).1, by simp; omega⟩) inv_init h
    have hstart : S.unsent S.init = n * (K * S.prog.length) := by simp [unsent, init, Workload.start]
    rw [hstart] at hle
    simp at hle
    omega
  · have hall : ∀ j w, (c.systems j).sched.replies w = S.prog.length := by
      intro j w
      refine le_antisymm ((hinv j).1.one.replies_le w) (not_lt.mp fun hlt => ?_)
      obtain ⟨a, ha⟩ := hinv.exists_move hf hlt
      rw [hstuck a] at ha
      cases ha
    refine ⟨hall, fun j => ?_⟩
    obtain ⟨hlock, hserved⟩ := hinv j
    have htable : c.tables j = S.after j (c.systems j).sched.served := hserved.table
    rw [htable, storage_after le_rfl]
    intro v
    rw [hlock.one.adds_filter v, hlock.one.count_eq, hall j v, Workload.before]
    rw [show (S.workload j).prog = S.prog from rfl, List.take_length]

open TwoParties in
theorem training_completes_two : ∃ c, exec getAddGet.step getAddGet.init getAddGetMoves = some c ∧
    (∀ a, getAddGet.step c a = none) ∧ ∀ j, (c.tables j).storage = slice getAddGet.share (getAddGet.snapshot 1) j := by
  have hrun : exec getAddGet.step getAddGet.init getAddGetMoves =
      some ((exec getAddGet.step getAddGet.init getAddGetMoves).getD getAddGet.init) := by rfl
  have hstuck : ∀ a, getAddGet.step ((exec getAddGet.step getAddGet.init getAddGetMoves).getD getAddGet.init) a =
      none := by
    rintro ⟨j, w⟩
    fin_cases j <;> fin_cases w <;> rfl
  exact ⟨_, hrun, hstuck, ((training_completes getAddGet_fits hrun).2.2 hstuck).2⟩

end SyncArray
end Hpps.Table

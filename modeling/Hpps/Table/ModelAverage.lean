import Hpps.Lib.Single
import Hpps.Table.AvgServer

/-! Model averaging: lockstep workers and the servers of an array table in sync mode. -/
namespace Hpps.Table

open Hpps.Scheduler TransitionSystem

/-- The common program, the row and the option of each worker's `r`-th Add, and the values that the
servers' random generators fill in. -/
structure Averaging (T : Type) (K n : ℕ) where
  size : ℕ
  prog : List Op
  delta : Fin K → ℕ → List T
  option : Fin K → ℕ → Option (AddOption T)
  gen : Fin n → ℕ → T

/-- The scheduler of each server and its table. -/
structure AvgCluster (T : Type) (K n : ℕ) where
  systems : Fin n → System K (Blob T)
  tables : Fin n → AvgServer T

namespace Averaging

variable {T : Type} {K n : ℕ} (S : Averaging T K n)

/-- The blobs of a worker's `r`-th Add. -/
def blobs (w : Fin K) (r : ℕ) : List (Blob T) :=
  .key (-1) :: .values (S.delta w r) :: ((S.option w r).map .option).toList

/-- What the worker makes of it for the servers. -/
def partition (w : Fin K) (r : ℕ) : Except Stop (ℕ × List (ℕ × List (Blob T))) := do
  let worker ← ArrayWorker.new S.size n
  worker.Partition (List.range n) (S.blobs w r)

/-- The slice of it for server `j`. -/
def part (j : Fin n) (w : Fin K) (r : ℕ) : List T :=
  (do let worker ← ArrayWorker.new S.size n; worker.slice (S.delta w r) j : Except Stop (List T)).toOption.getD []

/-- What server `j` is sent. -/
def workload (j : Fin n) : Workload K (Blob T) where
  prog := S.prog
  payload w i :=
    let r := (S.prog.take i).count .add
    ⟨.key (-1), .values (S.part j w r), (S.option w r).map .option⟩

section Code

variable [Zero T] [HAdd T T T] [Div T] [NatCast T]

/-- The table of server `j` before the first call. -/
def table (j : Fin n) : AvgServer T := AvgServer.new S.size n j (S.gen j)

def init : AvgCluster T K n := ⟨fun _ => Workload.start K (Blob T), S.table⟩

/-- The next request of worker `w` reaches server `j`. The worker sends it once every server has replied
to the ones before it; an Add that it fails to partition is not sent. -/
def step (c : AvgCluster T K n) (a : Fin n × Fin K) : Option (AvgCluster T K n) :=
  let (j, w) := a
  let i := (c.systems j).sent w
  if (∀ j', i ≤ (c.systems j').sched.replies w) ∧
      (S.prog[i]? = some .add → (S.partition w ((S.prog.take i).count .add)).isOk) then
    ((S.workload j).arrive (c.systems j) w).bind fun x =>
      let calls := x.sched.served.drop (c.systems j).sched.served.length
      (calls.foldlM AvgServer.call (c.tables j)).toOption.map fun t =>
        ⟨Function.update c.systems j x, Function.update c.tables j t⟩
  else none

end Code

/-! ### Slices -/

variable [Field T] {S} {c c' : AvgCluster T K n} {j : Fin n} {w : Fin K} {r : ℕ}

omit [Field T] in
/-- The slice of a row that has the size of the table. -/
theorem part_eq (hlt : n < S.size) (h31 : S.size < 2 ^ 31) (hlen : (S.delta w r).length = S.size) :
    S.part j w r = Blocks.slice (share S.size n) (S.delta w r) j := by
  have hn : 0 < n := Nat.zero_lt_of_lt j.isLt
  rw [part, new_eq hn hlt h31, ok_bind, slice_eq hn (h31.trans (by norm_num)) j.isLt hlen]
  rfl

omit [Field T] in
theorem delta_adds {a : Call K (Blob T)} (h : ((S.workload j).adds w)[r]? = some a) :
    AvgServer.delta a = S.part j w r := by
  obtain ⟨i, rfl, rfl⟩ := Workload.getElem?_adds h
  rfl

/-! ### Runs -/

/-- Each server's scheduler serves Adds in rounds, and its table has seen the calls of the scheduler. -/
def Inv (S : Averaging T K n) (c : AvgCluster T K n) : Prop :=
  ∀ j, Workload.RoundsInv (S.workload j) (c.systems j) ∧
    (c.systems j).sched.served.foldlM AvgServer.call (S.table j) = .ok (c.tables j)

theorem inv_init : Inv S S.init := fun _ => ⟨.start, rfl⟩

theorem inv_step {a : Fin n × Fin K} (hs : ∀ j, (S.workload j).Spaced) (h : Inv S c)
    (hstep : S.step c a = some c') : Inv S c' := by
  obtain ⟨j, w⟩ := a
  unfold step at hstep
  dsimp only at hstep
  split at hstep
  · rename_i hsend
    obtain ⟨x, harrive, hstep⟩ := Option.bind_eq_some_iff.mp hstep
    obtain ⟨t, ht, rfl⟩ := Option.map_eq_some_iff.mp hstep
    obtain ⟨hinv, hfold⟩ := h j
    have hidle : (c.systems j).sched.replies w = (c.systems j).sent w := by
      have := hsend.1 j
      have := hinv.ledger.replies_add_waits w
      omega
    rw [← Workload.lockstep_eq hidle] at harrive
    obtain ⟨hx, l, hl⟩ := hinv.step (hs j) harrive
    rw [hl, List.drop_left] at ht
    intro k
    by_cases hk : k = j
    · subst hk
      simp only [Function.update_self]
      refine ⟨hx, ?_⟩
      rw [hl, List.foldlM_append, hfold, ok_bind]
      cases hcalls : l.foldlM AvgServer.call (c.tables k) with
      | error e =>
        rw [hcalls] at ht
        cases ht
      | ok t' =>
        rw [hcalls] at ht
        cases ht
        rfl
    · simp only [Function.update_of_ne hk]
      exact h k
  · cases hstep

/-- What a group of Adds adds up to. -/
theorem total_round {l : List (Call K (Blob T))} {i : ℕ}
    (hperm : ((((Workload.addLog l).drop (r * K)).take K).map some).Perm
      (List.ofFn fun w => ((S.workload j).adds w)[r]?)) :
    AvgServer.total (AvgServer.round K (AvgServer.deltas l) r) i = ∑ w, (S.part j w r).getD i 0 := by
  have hround : AvgServer.round K (AvgServer.deltas l) r =
      (((Workload.addLog l).drop (r * K)).take K).map AvgServer.delta := by
    rw [AvgServer.round, AvgServer.deltas, List.map_take, List.map_drop]
  have hsum := (hperm.map fun o => o.elim 0 fun a => (AvgServer.delta a).getD i 0).sum_eq
  rw [List.map_map, List.map_ofFn, List.sum_ofFn] at hsum
  rw [hround, AvgServer.total, List.map_map]
  refine hsum.trans (Finset.sum_congr rfl fun w _ => ?_)
  have hmem : ((S.workload j).adds w)[r]? ∈ (((Workload.addLog l).drop (r * K)).take K).map some := by
    rw [hperm.mem_iff, List.mem_ofFn]
    exact ⟨w, rfl⟩
  obtain ⟨a, -, ha⟩ := List.mem_map.mp hmem
  rw [Function.comp_apply, ← ha, Option.elim_some, delta_adds ha.symm]

/-- Two workers and two servers: a Get between two Adds of three numbers. -/
def twoRounds : Averaging ℚ 2 2 where
  size := 3
  prog := [.add, .get, .add]
  delta w r := [w, r, 4]
  option _ _ := none
  gen _ _ := 0

open TwoParties in
def twoRoundsMoves : List (Fin 2 × Fin 2) :=
  [(1, 1), (0, 1), (0, 0), (1, 0), (0, 1), (1, 1), (1, 1), (0, 1), (1, 0)]

/-- One round of two workers, with deltas whose sum needs 25 bits. -/
def oneRound : Averaging Single 2 1 where
  size := 2
  prog := [.add]
  delta w _ := [⟨if w.val = 0 then 16777216 else 1⟩, 0]
  option _ _ := none
  gen _ _ := 0

end Averaging
end Hpps.Table

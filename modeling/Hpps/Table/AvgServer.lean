import Hpps.Scheduler.AddRounds
import Hpps.Table.ArrayTable
import Hpps.Updater.Updater

/-! A server of an array table with the averaging updater, and the Adds it is called with. -/
namespace Hpps.Table

open Hpps.Scheduler

/-- The state of the updater stands beside the storage. -/
structure AvgServer (T : Type) where
  serverId : ℕ
  size : ℕ
  storage : List T
  accuNum : ℕ
  sum : List T
  deriving DecidableEq

namespace AvgServer

variable {T : Type} {K : ℕ}

section Code

variable [Zero T] [HAdd T T T] [Div T] [NatCast T]

def new (size numServers serverId : ℕ) (gen : ℕ → T) : AvgServer T :=
  let size := share size numServers serverId
  ⟨serverId, size, (List.range size).map gen, 0, List.replicate size 0⟩

/-- The updater does not read the option. -/
def processAdd (numWorkers : ℕ) (s : AvgServer T) : List (Blob T) → Except Stop (AvgServer T) :=
  serverProcessAdd s.size fun vs _ => do
    let (accuNum, sum, storage) ← Updater.avgUpdate numWorkers s.accuNum s.sum s.size s.storage vs 0
    return { s with storage, accuNum, sum }

def processGet (s : AvgServer T) : List (Blob T) → Except Stop (List (Blob T)) :=
  serverProcessGet s.serverId s.storage

/-- What a call of the scheduler does to the table. -/
def call (s : AvgServer T) (c : Call K (Blob T)) : Except Stop (AvgServer T) :=
  match c.op with
  | .get => (s.processGet c.msg.data).map fun _ => s
  | .add => s.processAdd K c.msg.data

end Code

/-! ### A list of Adds -/

/-- The rows that are added up in round `r`, or so far if the round is not complete. -/
def round (K : ℕ) (ds : List (List T)) (r : ℕ) : List (List T) := (ds.drop (r * K)).take K

variable [Field T]

def total (ds : List (List T)) (i : ℕ) : T := (ds.map fun d => d.getD i 0).sum

/-- The state after the Adds `ds`: `data` is the mean of the last complete round. -/
structure After (K size : ℕ) (start : List T) (ds : List (List T)) (s : AvgServer T) : Prop where
  size_eq : s.size = size
  accuNum : s.accuNum = ds.length % K
  length_sum : s.sum.length = size
  sum : ∀ i < size, s.sum[i]? = some (total (ds.drop (ds.length / K * K)) i)
  length_storage : s.storage.length = size
  unchanged : ds.length / K = 0 → s.storage = start
  mean : ∀ r, ds.length / K = r + 1 → ∀ i < size, s.storage[i]? = some (total (round K ds r) i / K)

variable {size : ℕ} {start vs : List T} {ds : List (List T)} {s t : AvgServer T} {r : ℕ}

theorem total_append (ds : List (List T)) (i : ℕ) : total (ds ++ [vs]) i = total ds i + vs.getD i 0 := by
  simp [total]

theorem after_new {n serverId : ℕ} (gen : ℕ → T) :
    After K (share size n serverId) (AvgServer.new size n serverId gen).storage []
      (AvgServer.new size n serverId gen) where
  size_eq := rfl
  accuNum := by simp [new]
  length_sum := by simp [new]
  sum i hi := by simp [new, total, hi]
  length_storage := by simp [new]
  unchanged _ := rfl
  mean r hr := by simp at hr

omit [Field T] in
/-- A complete round stays as it is. -/
theorem round_append (h : (r + 1) * K ≤ ds.length) : round K (ds ++ [vs]) r = round K ds r := by
  rw [Nat.succ_mul] at h
  rw [round, round, List.drop_append_of_le_length (by omega), List.take_append_of_le_length]
  rw [List.length_drop]
  omega

/-- One more Add joins the open round, or completes it. -/
theorem After.add (h : After K size start ds s) (hK : 0 < K) (hvs : vs.length = size) (hlt : size < 2 ^ 31) :
    ∃ t, Updater.avgUpdate K s.accuNum s.sum s.size s.storage vs 0 = .ok t ∧
      After K size start (ds ++ [vs]) { s with accuNum := t.1, sum := t.2.1, storage := t.2.2 } := by
  have hdiv := Nat.div_add_mod ds.length K
  have hmod := Nat.mod_lt ds.length hK
  rw [Nat.mul_comm] at hdiv
  have hsum : eachInt (fun s d => s + d) s.size 0 s.sum vs = .ok (List.zipWith (fun s d => s + d) s.sum vs) := by
    rw [h.size_eq]
    exact eachInt_ok hlt h.length_sum hvs
  have hlen : (List.zipWith (fun s d => s + d) s.sum vs).length = size := by
    simp [h.length_sum, hvs]
  have hget : ∀ i < size, (List.zipWith (fun s d => s + d) s.sum vs)[i]? =
      some (total (ds.drop (ds.length / K * K) ++ [vs]) i) := by
    intro i hi
    have hd : vs[i]? = some (vs.getD i 0) := by
      rw [List.getElem?_eq_getElem (by omega), List.getD_eq_getElem _ _ (by omega)]
    rw [List.getElem?_zipWith, h.sum i hi, hd, total_append]
  simp only [Updater.avgUpdate, hsum, ok_bind, h.accuNum]
  by_cases hfull : ds.length % K + 1 = K
  · -- the last of the round
    have hone : ds.length + 1 = (ds.length / K + 1) * K := by
      rw [Nat.succ_mul]
      omega
    have hround : (ds ++ [vs]).length / K = ds.length / K + 1 := by
      rw [List.length_append, List.length_singleton, hone, Nat.mul_div_cancel _ hK]
    have hdata : eachInt (fun _ s => s / ((ds.length % K + 1 : ℕ) : T)) s.size 0 s.storage
        (List.zipWith (fun s d => s + d) s.sum vs) =
        .ok (List.zipWith (fun _ s => s / ((ds.length % K + 1 : ℕ) : T)) s.storage
          (List.zipWith (fun s d => s + d) s.sum vs)) := by
      rw [h.size_eq]
      exact eachInt_ok hlt h.length_storage hlen
    refine ⟨_, by rw [if_pos hfull, hdata]; rfl, h.size_eq, ?_, ?_, ?_, ?_, ?_, ?_⟩
    · rw [List.length_append, List.length_singleton, hone, Nat.mul_mod_left]
    · simp [hlen]
    · intro i hi
      have hdrop : (ds ++ [vs]).drop ((ds ++ [vs]).length / K * K) = [] := by
        rw [hround, ← hone]
        simp
      rw [hdrop, List.getElem?_replicate, if_pos (by rw [hlen]; exact hi)]
      rfl
    · simp [h.length_storage, hlen]
    · intro h0
      rw [hround] at h0
      cases h0
    · intro r hr i hi
      rw [hround, Nat.add_right_cancel_iff] at hr
      subst hr
      have hgroup : round K (ds ++ [vs]) (ds.length / K) = ds.drop (ds.length / K * K) ++ [vs] := by
        rw [round, List.drop_append_of_le_length (by omega), List.take_of_length_le]
        rw [List.length_append, List.length_drop, List.length_singleton]
        omega
      obtain ⟨x, hx⟩ : ∃ x, s.storage[i]? = some x := by
        rw [List.getElem?_eq_getElem (by rw [h.length_storage]; exact hi)]
        exact ⟨_, rfl⟩
      rw [List.getElem?_zipWith, hx, hget i hi, hgroup, hfull]
  · have hround : (ds ++ [vs]).length / K = ds.length / K := by
      rw [List.length_append, List.length_singleton]
      apply Nat.div_eq_of_lt_le
      · omega
      · rw [Nat.succ_mul]
        omega
    refine ⟨_, by rw [if_neg hfull]; rfl, h.size_eq, ?_, hlen, ?_, h.length_storage, ?_, ?_⟩
    · dsimp only
      rw [List.length_append, List.length_singleton, Nat.add_mod, Nat.mod_eq_of_lt (a := ds.length % K + 1 % K)]
      · by_cases hone : K = 1
        · omega
        · rw [Nat.mod_eq_of_lt (a := 1) (by omega)]
      · have := Nat.mod_le 1 K
        omega
    · intro i hi
      rw [hround, List.drop_append_of_le_length (by omega)]
      exact hget i hi
    · intro h0
      exact h.unchanged (hround ▸ h0)
    · intro r hr i hi
      rw [hround] at hr
      have hle : (r + 1) * K ≤ ds.length := by
        rw [← hr]
        omega
      rw [round_append hle]
      exact h.mean r hr i hi

/-! ### The calls of a scheduler -/

/-- The row of an Add. -/
def delta (c : Call K (Blob T)) : List T :=
  match c.msg.data with
  | _ :: .values vs :: _ => vs
  | _ => []

/-- The rows of the Adds among the calls. -/
def deltas (l : List (Call K (Blob T))) : List (List T) := (Workload.addLog l).map delta

theorem After.call {l : List (Call K (Blob T))} {c : Call K (Blob T)}
    (h : After K size start (deltas l) s) (hK : 0 < K) (hc : s.call c = .ok t) :
    After K size start (deltas (l ++ [c])) t := by
  unfold AvgServer.call at hc
  cases hop : c.op with
  | get =>
    rw [hop] at hc
    have hl : deltas (l ++ [c]) = deltas l := by simp [deltas, Workload.addLog, hop]
    rw [hl]
    dsimp only at hc
    cases hg : s.processGet c.msg.data with
    | error e =>
      rw [hg] at hc
      cases hc
    | ok data =>
      rw [hg] at hc
      cases hc
      exact h
  | add =>
    rw [hop] at hc
    have hl : deltas (l ++ [c]) = deltas l ++ [delta c] := by simp [deltas, Workload.addLog, hop]
    rw [hl]
    dsimp only at hc
    obtain ⟨vs, rest, hdata, hvs, hc⟩ := serverProcessAdd_ok hc
    obtain ⟨_, hsum, -⟩ := bind_eq_ok.mp hc
    obtain ⟨_, hsum, -⟩ := bind_eq_ok.mp hsum
    have hlt : size < 2 ^ 31 := h.size_eq ▸ (eachInt_eq_ok_iff.mp hsum).1
    obtain ⟨u, hu, hafter⟩ := h.add hK (hvs.trans h.size_eq) hlt
    rw [hu] at hc
    cases hc
    have hd : delta c = vs := by simp [delta, hdata]
    rw [hd]
    exact hafter

theorem after_calls {l : List (Call K (Blob T))} {n serverId : ℕ} {gen : ℕ → T} (hK : 0 < K)
    (h : l.foldlM call (AvgServer.new size n serverId gen) = .ok t) :
    After K (share size n serverId) (AvgServer.new size n serverId gen).storage (deltas l) t := by
  induction l using List.reverseRecOn generalizing t with
  | nil =>
    cases h
    exact after_new gen
  | append_singleton l c ih =>
    rw [List.foldlM_append] at h
    obtain ⟨s, hs, hc⟩ := bind_eq_ok.mp h
    rw [List.foldlM_cons] at hc
    obtain ⟨t', ht', hc⟩ := bind_eq_ok.mp hc
    cases hc
    exact (ih hs).call hK ht'

end AvgServer
end Hpps.Table

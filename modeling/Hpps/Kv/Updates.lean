import Hpps.Kv.Isolation
import Hpps.Kv.KVCluster
import Hpps.Lib.Tally

/-! However the requests for a KV table are spread over its servers, and in whatever order they are handled there, no
update is lost or made twice. -/
namespace Hpps

open Rows

namespace Updater

variable {T : Type} [Field T] {u u' : Updater T} {numWorkers n j : ℕ} {sqrt : T → T} {row row' delta : List T}
  {option : AddOption T}

/-- The solvers whose updates add up. -/
def Additive : Updater T → Prop
  | .default | .sgd => True
  | _ => False

/-- What an update adds to an entry. -/
def effect (u : Updater T) (option : AddOption T) (d : T) : T :=
  match u with
  | .sgd => -(d * option.learningRate)
  | _ => d

theorem Additive.stateless (h : u.Additive) : u.Stateless numWorkers := by
  cases u with
  | default | sgd | adagrad => trivial
  | avg | adam | momentum | dcasgd | dcasgda => exact h.elim

theorem Additive.update (h : u.Additive) (hrow : row.length = n) (hdelta : delta.length = n) (hj : j < n)
    (hok : u.update numWorkers sqrt n row delta option 0 = .ok (u', row')) :
    row'.length = n ∧ row'.getD j 0 = row.getD j 0 + u.effect option (delta.getD j 0) := by
  have hentry : ∀ f : T → T → T, (List.zipWith f row delta).getD j 0 = f (row.getD j 0) (delta.getD j 0) := by
    intro f
    simp [List.getD_eq_getElem?_getD, hrow, hdelta, hj]
  cases u with
  | default =>
    obtain ⟨x, hx, hok⟩ := bind_eq_ok.mp hok
    have hx := (eachInt_eq_ok_iff.mp hx).2
    rw [eachWith_ok hrow hdelta] at hx
    cases hx
    cases hok
    exact ⟨by simp [hrow, hdelta], hentry _⟩
  | sgd =>
    rw [Updater.update, sgdUpdate, eachWith_ok hrow hdelta] at hok
    cases hok
    exact ⟨by simp [hrow, hdelta], (hentry _).trans (sub_eq_add_neg _ _)⟩
  | adam | avg | adagrad | momentum | dcasgd | dcasgda => exact h.elim

end Updater

namespace Kv

open KVStore TransitionSystem

variable {ρ Val : Type} [Field Val]

/-- What an Add contributes to the entry `j` of the row of `key`. -/
def KVAdd.contribution (P : KVProcess ρ Val) (u : Updater Val) (n key j : ℕ) (a : KVAdd Val) : Val :=
  ((a.addressed n key).map fun p => u.effect (p.2.getD (.new P.workerRank)) (p.1.getD j 0)).sum

namespace KVServerTable

variable {P : KVProcess ρ Val} {st t : KVServerTable ρ Val} {u u' : Updater Val} {n key j : ℕ} {r r' : List Val}
  {a : KVAdd Val} {pairs : List (List Val × Option (AddOption Val))}

omit [Field Val] in
theorem length_of_view (h : st.store.view key = some (r, false)) : r.length = st.store.valueLen := by
  obtain ⟨i, -, heq⟩ := lookup_eq_some_iff.mp (view_eq_some_iff_lookup.mp h)
  rw [(Prod.mk.inj heq).1, length_read]

theorem keys_of_processAdd (hok : processAdd P st a = .ok t) : a.keys.length * st.store.valueLen = a.vals.length := by
  unfold processAdd at hok
  dsimp only at hok
  split at hok
  · assumption
  · cases hok

theorem applyPairs_entry (hu : u.Additive) (hr : r.length = n) (hpairs : ∀ p ∈ pairs, p.1.length = n) (hj : j < n)
    (hok : applyPairs P n (u, r) pairs = .ok (u', r')) : r'.getD j 0 =
      r.getD j 0 + (pairs.map fun p => u.effect (p.2.getD (.new P.workerRank)) (p.1.getD j 0)).sum := by
  induction pairs generalizing r with
  | nil =>
    cases hok
    simp
  | cons p pairs ih =>
    rw [List.forall_mem_cons] at hpairs
    rw [applyPairs, List.foldlM_cons] at hok
    obtain ⟨⟨v, r₁⟩, hone, hrest⟩ := bind_eq_ok.mp hok
    obtain ⟨hr₁, hentry⟩ := hu.update hr hpairs.1 hj hone
    obtain rfl := hu.stateless.update hone
    rw [ih hr₁ hpairs.2 hrest, hentry, List.map_cons, List.sum_cons, add_assoc]

/-- An Add changes the row of a key by what it contributes to it. -/
theorem processAdd_entry (h : Sound st.store) (hu : st.updater.Additive) (hrow : st.store.view key = some (r, false))
    (hfits : (a.keys.length - 1) * st.store.valueLen < 2 ^ 32) (hok : processAdd P st a = .ok t) :
    ∃ r', t.store.view key = some (r', false) ∧ ∀ j < st.store.valueLen,
      r'.getD j 0 = r.getD j 0 + a.contribution P st.updater st.store.valueLen key j := by
  have halone : Alone P st key (a.keys ++ []) := .inl hu.stateless
  obtain ⟨-, -, -, r', hpairs, hview⟩ := processAdd_own h hrow halone hfits hok
  refine ⟨r', hview, fun j hj => applyPairs_entry hu (length_of_view hrow) (fun p hp => ?_) hj hpairs⟩
  obtain ⟨q, hq, rfl⟩ := List.mem_map.mp hp
  have hi := List.snd_lt_of_mem_zipIdx (List.mem_of_mem_filter hq)
  refine length_row ?_
  rw [← keys_of_processAdd hok]
  exact Nat.mul_le_mul_right _ (by omega)

/-- What an Add leaves as it was. -/
theorem processAdd_keeps (h : Sound st.store) (hu : st.updater.Additive) (hok : processAdd P st a = .ok t) :
    Sound t.store ∧ t.store.valueLen = st.store.valueLen ∧ t.updater = st.updater := by
  apply processAdd_induct (Q := fun v => Sound v.store ∧ v.store.valueLen = st.store.valueLen ∧
    v.updater = st.updater) (fun v option key delta w _ hv hone => ?_) ⟨h, rfl, rfl⟩ hok
  obtain ⟨hs, hlen, -, hcase⟩ := addOne_cases hv.1 hone
  refine ⟨hs, hlen.trans hv.2.1, ?_⟩
  rcases hcase with ⟨row, -, -, hupdater, -⟩ | ⟨row, row', -, hone, -⟩
  · exact hupdater.trans hv.2.2
  · have hadd : v.updater.Additive := hv.2.2 ▸ hu
    exact (hadd.stateless.update hone).trans hv.2.2

/-- A Get leaves each row that is there as it is. -/
theorem getLoop_keeps {i : ℕ} {keys : List ℕ} {vals vals' : List Val} (h : Sound st.store)
    (hok : getLoop P i keys st vals = .ok (t, vals')) :
    Sound t.store ∧ t.store.valueLen = st.store.valueLen ∧ Keeps st.store t.store := by
  apply getLoop_induct (Q := fun v => Sound v.store ∧ v.store.valueLen = st.store.valueLen ∧ Keeps st.store v.store)
    (fun v vals i k w vals' hv hone => ?_) ⟨h, rfl, .refl⟩ hok
  obtain ⟨hs, hlen, -, -, hcase⟩ := getOne_cases hv.1 hone
  refine ⟨hs, hlen.trans hv.2.1, hv.2.2.trans ?_⟩
  rcases hcase with ⟨r, -, hview, -⟩ | ⟨row, -, hnew, hview, -⟩
  · exact fun k r hr => hview ▸ hr
  · exact keeps_update hnew hview

/-- The loop of `ServerTable`, with logs. -/
theorem exists_getLoop {i : ℕ} {keys : List ℕ} {vals : List Val} {q : ServerTable ρ Val × List Val}
    (hok : ServerTable.getLoop P.random i keys st.toServerTable vals = .ok q) :
    ∃ v, getLoop P i keys st vals = .ok (v, q.2) ∧ v.toServerTable = q.1 := by
  induction keys generalizing st vals i with
  | nil =>
    cases hok
    exact ⟨st, rfl, rfl⟩
  | cons key keys ih =>
    obtain ⟨⟨w, vals₁⟩, hone, hrest⟩ := bind_eq_ok.mp hok
    set u : KVServerTable ρ Val := { st with
      toServerTable := w
      log := st.log ++ (if st.isNew key then [.fill key, .reply key] else [.reply key]) } with hu
    obtain ⟨j, hj, hrest⟩ := bind_eq_ok.mp hrest
    have hloop : ServerTable.getLoop P.random j keys u.toServerTable vals₁ = .ok q := hrest
    obtain ⟨v, hv, heq⟩ := ih hloop
    refine ⟨v, ?_, heq⟩
    rw [getLoop, getOne, hone, ok_bind]
    dsimp only [pure, Except.pure, ok_bind]
    rw [hj]
    exact hv

theorem processGet_keeps {keys keys' : List ℕ} {vals : List Val} {w : ServerTable ρ Val} (h : Sound st.store)
    (hok : ServerTable.processGet P.random P.garbage st.toServerTable keys = .ok (w, keys', vals)) :
    Sound w.store ∧ w.store.valueLen = st.store.valueLen ∧ Keeps st.store w.store := by
  unfold ServerTable.processGet at hok
  dsimp only at hok
  split at hok
  · cases hok
  · obtain ⟨q, hloop, hok⟩ := bind_eq_ok.mp hok
    cases hok
    obtain ⟨v, hv, heq⟩ := exists_getLoop hloop
    rw [← heq]
    exact getLoop_keeps h hv

end KVServerTable

/-- The part of an Add that goes to server `dst`. -/
def KVAdd.part (numServers n dst : ℕ) (a : KVAdd Val) : KVAdd Val where
  keys := (Partition.owned numServers a.keys dst).map Prod.fst
  vals := (Partition.owned numServers a.keys dst).flatMap fun p => row n a.vals p.2
  option := a.option

section Parts

variable {P : KVProcess ρ Val} {u : Updater Val} {numServers n key j dst : ℕ} {a : KVAdd Val}

omit [Field Val] in
/-- What is addressed to a key goes to the server that owns it. -/
theorem addressed_part (hvals : a.keys.length * n = a.vals.length)
    (ha : Partition.Addressable n a.keys true) : (a.part numServers n dst).addressed n key =
      if key % numServers = dst then a.addressed n key else [] := by
  have hrange : Partition.InRange n a.vals (Partition.owned numServers a.keys dst) :=
    Partition.inRange_owned hvals.symm ha dst
  have hrows : ((Partition.owned numServers a.keys dst).map Prod.fst).zipIdx.map (fun p =>
      (p.1, row n ((Partition.owned numServers a.keys dst).flatMap fun p => row n a.vals p.2) p.2)) =
        (Partition.owned numServers a.keys dst).map fun p => (p.1, row n a.vals p.2) := by
    rw [← Server.zipIdx_share hrange]
    refine List.map_congr_left fun p hp => ?_
    have hi := List.snd_lt_of_mem_zipIdx hp
    rw [List.length_map] at hi
    rw [Partition.rowAt_eq (hrange.2 p.2 (by omega))]
  have hpart : (a.part numServers n dst).addressed n key =
      ((((Partition.owned numServers a.keys dst).map fun p => (p.1, row n a.vals p.2)).filter
        fun p => p.1 = key).map fun p => (p.2, a.option)) := by
    rw [← hrows, List.filter_map, List.map_map]
    rfl
  rw [hpart, List.filter_map, List.map_map, Partition.owned, List.filter_filter]
  by_cases hkey : key % numServers = dst
  · rw [if_pos hkey, KVAdd.addressed]
    have hsame : ∀ p ∈ a.keys.zipIdx, (((fun p : ℕ × List Val => decide (p.1 = key)) ∘ fun p : ℕ × ℕ =>
        (p.1, row n a.vals p.2)) p && decide (p.1 % numServers = dst)) = decide (p.1 = key) := by
      intro p _
      by_cases hp : p.1 = key <;> simp [hp, hkey]
    rw [List.filter_congr hsame]
    rfl
  · rw [if_neg hkey, List.map_eq_nil_iff, List.filter_eq_nil_iff]
    intro p _
    by_cases hp : p.1 = key <;> simp [hp, hkey]

theorem contribution_part (hvals : a.keys.length * n = a.vals.length) (ha : Partition.Addressable n a.keys true) :
    (a.part numServers n dst).contribution P u n key j =
      if key % numServers = dst then a.contribution P u n key j else 0 := by
  rw [KVAdd.contribution, addressed_part hvals ha]
  split <;> rfl

theorem sum_parts (hn : 0 < numServers) (hvals : a.keys.length * n = a.vals.length)
    (ha : Partition.Addressable n a.keys true) :
    ((List.range numServers).map fun dst => (a.part numServers n dst).contribution P u n key j).sum =
      a.contribution P u n key j := by
  simp only [contribution_part hvals ha]
  change ∑ dst ∈ Finset.range numServers, (if key % numServers = dst then a.contribution P u n key j else 0) = _
  rw [Finset.sum_ite_eq, if_pos (Finset.mem_range.mpr (Nat.mod_lt key hn))]

theorem contribution_eq_zero (h : key ∉ a.keys) : a.contribution P u n key j = 0 := by
  have hnone : (a.keys.zipIdx.filter fun p => p.1 = key) = [] := by
    rw [List.filter_eq_nil_iff]
    intro p hp heq
    exact h (of_decide_eq_true heq ▸ List.fst_mem_of_mem_zipIdx hp)
  rw [KVAdd.contribution, KVAdd.addressed, hnone]
  rfl

end Parts

/-! ### The cluster -/

/-- What a request will contribute when it is handled. -/
def KVRequest.contribution (P : KVProcess ρ Val) (u : Updater Val) (n key j : ℕ) : KVRequest Val → Val
  | .get _ => 0
  | .add a => a.contribution P u n key j

namespace KVMove

/-- An Add is sent without an option, since one with an option does not get past the worker actor, and 32-bit offsets
reach its rows. -/
def Plain (n : ℕ) : KVMove Val → Prop
  | .add _ a => a.option = none ∧ (a.keys.length - 1) * n < 2 ^ 32
  | _ => True

def contribution (P : KVProcess ρ Val) (u : Updater Val) (n key j : ℕ) : KVMove Val → Val
  | .add _ a => a.contribution P u n key j
  | _ => 0

end KVMove

namespace KVCluster

variable {P : KVProcess ρ Val} {u : Updater Val} {numServers n key j i : ℕ} {s₀ s s' t : KVCluster ρ Val}
  {a : KVMove Val} {as bs : List (KVMove Val)} {m : KVMessage Val} {r : List Val}

/-- What the requests under way will contribute. -/
def pending (P : KVProcess ρ Val) (u : Updater Val) (n key j : ℕ) (s : KVCluster ρ Val) : Val :=
  (s.requests.map fun m => m.request.contribution P u n key j).sum

/-- The row of a key at the server that owns it. -/
def row (numServers key : ℕ) (s : KVCluster ρ Val) : Option (List Val × Bool) :=
  (s.servers (key % numServers)).store.view key

/-- Every server has the solver `u`, and what is under way to it are Adds of its own keys. -/
structure Orderly (numServers n : ℕ) (u : Updater Val) (s : KVCluster ρ Val) : Prop where
  sound : ∀ d, Sound (s.servers d).store
  valueLen : ∀ d, (s.servers d).store.valueLen = n
  updater : ∀ d, (s.servers d).updater = u
  workers : ∀ w, (s.workers w).store.valueLen = n
  adds : ∀ m ∈ s.requests, ∀ a, m.request = .add a →
    (a.keys.length - 1) * n < 2 ^ 32 ∧ ∀ k ∈ a.keys, k % numServers = m.server

/-- Each row changes by what comes in and what is then no longer under way. -/
def Advances (P : KVProcess ρ Val) (numServers n : ℕ) (u : Updater Val) (a : KVMove Val) (s s' : KVCluster ρ Val) :
    Prop :=
  Orderly numServers n u s' ∧ ∀ key r, s.row numServers key = some (r, false) →
    ∃ r', s'.row numServers key = some (r', false) ∧ ∀ j < n,
      r'.getD j 0 + s'.pending P u n key j = r.getD j 0 + (s.pending P u n key j + a.contribution P u n key j)

theorem orderly_started {initCapacity : ℕ} (h : Started P numServers s initCapacity n)
    (hsolver : ∀ d, (s.servers d).updater = u) : Orderly numServers n u s where
  sound d := by
    obtain ⟨solver, seed, hd⟩ := h.servers d
    obtain ⟨store, hstore, heq⟩ := Option.map_eq_some_iff.mp hd
    rw [← heq]
    exact (Sound.new hstore).1
  valueLen d := by
    obtain ⟨solver, seed, hd⟩ := h.servers d
    obtain ⟨store, hstore, heq⟩ := Option.map_eq_some_iff.mp hd
    rw [← heq]
    exact (Sound.new hstore).2
  updater := hsolver
  workers w := by
    obtain ⟨store, hstore, hw⟩ := h.workers w
    rw [hw]
    exact (Sound.new hstore).2
  adds m hm := by simp [h.requests] at hm

theorem sum_filterMap {α β : Type} (l : List α) (f : α → Option β) (g : β → Val) :
    ((l.filterMap f).map g).sum = (l.map fun x => ((f x).map g).getD 0).sum := by
  induction l with
  | nil => rfl
  | cons x l ih =>
    cases hx : f x with
    | none => simp [hx, ih]
    | some y => simp [hx, ih]

theorem Advances.same (h : Orderly numServers n u s') (hrow : ∀ key, s'.row numServers key = s.row numServers key)
    (hpending : ∀ key j, s'.pending P u n key j = s.pending P u n key j + a.contribution P u n key j) :
    Advances P numServers n u a s s' :=
  ⟨h, fun key r hr => ⟨r, (hrow key).trans hr, fun j _ => by rw [hpending]⟩⟩

theorem pending_append {l : List (KVMessage Val)} : pending P u n key j { s with requests := s.requests ++ l } =
    s.pending P u n key j + (l.map fun m => m.request.contribution P u n key j).sum := by
  simp [pending]

theorem pending_erase (hm : s.requests[i]? = some m) :
    ((s.requests.eraseIdx i).map fun m => m.request.contribution P u n key j).sum +
      m.request.contribution P u n key j = s.pending P u n key j := by
  have hsum := ((Tally.perm_eraseIdx hm).map fun m => m.request.contribution P u n key j).sum_eq
  rw [List.map_cons, List.sum_cons, add_comm] at hsum
  exact hsum

omit [Field Val] in
theorem row_update {d : ℕ} {st : KVServerTable ρ Val} {reqs : List (KVMessage Val)} {replies : List (KVReply Val)} :
    row numServers key ⟨Function.update s.servers d st, s.workers, reqs, replies⟩ =
      if key % numServers = d then st.store.view key else s.row numServers key := by
  unfold row
  dsimp only
  by_cases hkey : key % numServers = d
  · rw [if_pos hkey, hkey, Function.update_self]
  · rw [if_neg hkey, Function.update_of_ne hkey]

theorem advances_get {worker : ℕ} {keys : List ℕ} (h : Orderly numServers n u s)
    (hok : send P numServers s worker keys none (fun b => .get b.keys) = .ok s') :
    Advances P numServers n u (.get worker keys) s s' := by
  obtain ⟨⟨num, out⟩, -, hok⟩ := bind_eq_ok.mp hok
  cases hok
  refine .same ⟨h.sound, h.valueLen, h.updater, h.workers, fun m hm a ha => ?_⟩ (fun _ => rfl) fun key j => ?_
  · rcases List.mem_append.mp hm with hm | hm
    · exact h.adds m hm a ha
    · obtain ⟨dst, -, hm⟩ := List.mem_filterMap.mp hm
      obtain ⟨b, -, rfl⟩ := Option.map_eq_some_iff.mp hm
      cases ha
  · rw [pending_append]
    congr 1
    refine List.sum_eq_zero fun x hx => ?_
    obtain ⟨m, hm, rfl⟩ := List.mem_map.mp hx
    obtain ⟨dst, -, hm⟩ := List.mem_filterMap.mp hm
    obtain ⟨b, -, rfl⟩ := Option.map_eq_some_iff.mp hm
    rfl

theorem advances_add {worker : ℕ} {x : KVAdd Val} (h : Orderly numServers n u s) (hn : 0 < numServers)
    (hplain : (x.keys.length - 1) * n < 2 ^ 32) (hvals : x.keys.length * n = x.vals.length)
    (hok : send P numServers s worker x.keys (some x.vals)
      (fun b => .add ⟨b.keys, b.vals.getD [], x.option⟩) = .ok s') :
    Advances P numServers n u (.add worker x) s s' := by
  obtain ⟨⟨num, out⟩, hp, hok⟩ := bind_eq_ok.mp hok
  rw [h.workers] at hp
  obtain ⟨hlt, hguard, -⟩ := Partition.partition_eq_ok hp
  have ha : Partition.Addressable n x.keys true :=
    ⟨hlt, fun _ hne => ⟨Nat.pos_of_ne_zero fun h0 => hguard ⟨rfl, h0, hne⟩, hplain⟩⟩
  rw [Partition.partition_eq_share (by simp [hvals]) ha] at hp
  cases hp
  have hpart : ∀ dst b, Partition.share numServers n x.keys (some x.vals) dst = some b →
      (⟨b.keys, b.vals.getD [], x.option⟩ : KVAdd Val) = x.part numServers n dst := by
    intro dst b hb
    unfold Partition.share at hb
    split at hb
    · cases hb
    · cases hb
      rfl
  cases hok
  refine .same ⟨h.sound, h.valueLen, h.updater, h.workers, fun m hm a ha => ?_⟩ (fun _ => rfl) fun key j => ?_
  · rcases List.mem_append.mp hm with hm | hm
    · exact h.adds m hm a ha
    · obtain ⟨dst, -, hm⟩ := List.mem_filterMap.mp hm
      obtain ⟨b, hb, rfl⟩ := Option.map_eq_some_iff.mp hm
      cases ha
      rw [hpart dst b hb]
      refine ⟨lt_of_le_of_lt (Nat.mul_le_mul_right n (Nat.sub_le_sub_right ?_ 1)) hplain, fun k hk => ?_⟩
      · have hle : (Partition.owned numServers x.keys dst).length ≤ x.keys.zipIdx.length := List.length_filter_le ..
        simpa [KVAdd.part] using hle
      · obtain ⟨p, hmem, rfl⟩ := List.mem_map.mp hk
        exact of_decide_eq_true (List.mem_filter.mp hmem).2
  · rw [pending_append, sum_filterMap]
    congr 1
    refine Eq.trans (congrArg List.sum (List.map_congr_left fun dst _ => ?_)) (sum_parts hn hvals ha)
    cases hshare : Partition.share numServers n x.keys (some x.vals) dst with
    | none =>
      have hempty : Partition.owned numServers x.keys dst = [] := by
        unfold Partition.share at hshare
        split at hshare
        · assumption
        · cases hshare
      refine (contribution_eq_zero ?_).symm
      simp [KVAdd.part, hempty]
    | some b => exact congrArg (KVAdd.contribution P u n key j) (hpart dst b hshare)

/-- Server `m.server` handles the request `m`. -/
theorem advances_of_server {st : KVServerTable ρ Val} {replies : List (KVReply Val)} (h : Orderly numServers n u s)
    (hm : s.requests[i]? = some m) (hsound : Sound st.store) (hlen : st.store.valueLen = n) (hupdater : st.updater = u)
    (hrow : ∀ key r, (s.servers m.server).store.view key = some (r, false) → ∃ r',
      st.store.view key = some (r', false) ∧ ∀ j < n, r'.getD j 0 = r.getD j 0 + m.request.contribution P u n key j)
    (hother : ∀ key j, key % numServers ≠ m.server → m.request.contribution P u n key j = 0) :
    Advances P numServers n u (.serve i) s { s with
      servers := Function.update s.servers m.server st
      requests := s.requests.eraseIdx i
      replies := replies } := by
  have hservers : ∀ (Q : KVServerTable ρ Val → Prop), Q st → (∀ d, Q (s.servers d)) →
      ∀ d, Q (Function.update s.servers m.server st d) := by
    intro Q hst hall d
    by_cases hd : d = m.server
    · subst hd
      rwa [Function.update_self]
    · rw [Function.update_of_ne hd]
      exact hall d
  refine ⟨⟨hservers (fun st => Sound st.store) hsound h.sound,
    hservers (fun st => st.store.valueLen = n) hlen h.valueLen,
    hservers (fun st => st.updater = u) hupdater h.updater, h.workers,
    fun m' hm' => h.adds m' (List.mem_of_mem_eraseIdx hm')⟩, fun key r hr => ?_⟩
  by_cases hkey : key % numServers = m.server
  · rw [row, hkey] at hr
    obtain ⟨r', hview, hentry⟩ := hrow key r hr
    refine ⟨r', ?_, fun j hj => ?_⟩
    · rw [row_update, if_pos hkey]
      exact hview
    · rw [hentry j hj, ← pending_erase hm]
      change _ + _ + ((s.requests.eraseIdx i).map fun m => m.request.contribution P u n key j).sum = _ + (_ + _ + 0)
      ring
  · refine ⟨r, ?_, fun j _ => ?_⟩
    · rw [row_update, if_neg hkey]
      exact hr
    · rw [← pending_erase hm, hother key j hkey]
      change _ + ((s.requests.eraseIdx i).map fun m => m.request.contribution P u n key j).sum = _ + (_ + 0 + 0)
      ring

theorem advances_serve (h : Orderly numServers n u s) (hu : u.Additive) (hm : s.requests[i]? = some m)
    (hok : serve P s i m = .ok s') : Advances P numServers n u (.serve i) s s' := by
  unfold serve at hok
  cases hr : m.request with
  | get keys =>
    rw [hr] at hok
    obtain ⟨⟨st, keys', vals⟩, hget, hok⟩ := bind_eq_ok.mp hok
    cases hok
    obtain ⟨hsound, hlen, hkeep⟩ := KVServerTable.processGet_keeps (h.sound m.server) hget
    refine advances_of_server h hm hsound (hlen.trans (h.valueLen _)) (h.updater _) (fun key r hview => ?_)
      fun key j _ => ?_
    · refine ⟨r, hkeep key _ hview, fun j _ => ?_⟩
      rw [hr]
      exact (add_zero _).symm
    · rw [hr]
      rfl
  | add x =>
    rw [hr] at hok
    obtain ⟨st, hadd, hok⟩ := bind_eq_ok.mp hok
    cases hok
    obtain ⟨hfits, howned⟩ := h.adds m (List.mem_of_getElem? hm) x hr
    have hadditive : (s.servers m.server).updater.Additive := (h.updater m.server).symm ▸ hu
    obtain ⟨hsound, hlen, hupdater⟩ := KVServerTable.processAdd_keeps (h.sound m.server) hadditive hadd
    refine advances_of_server h hm hsound (hlen.trans (h.valueLen _)) (hupdater.trans (h.updater _))
      (fun key r hview => ?_) fun key j hkey => ?_
    · have hentry := KVServerTable.processAdd_entry (h.sound m.server) hadditive hview
        (by rw [h.valueLen]; exact hfits) hadd
      rw [h.valueLen, h.updater] at hentry
      rw [hr]
      exact hentry
    · rw [hr]
      exact contribution_eq_zero fun hmem => hkey (howned key hmem)

/-- What a worker does with its own store is nothing to the servers. -/
theorem Advances.setWorker {worker : ℕ} {table : LocalTable Val} {replies : List (KVReply Val)}
    (h : Orderly numServers n u s) (hlen : table.store.valueLen = n)
    (ha : ∀ key j, a.contribution P u n key j = 0) : Advances P numServers n u a s
      { s with workers := Function.update s.workers worker table, replies := replies } := by
  refine .same ⟨h.sound, h.valueLen, h.updater, fun w => ?_, h.adds⟩ (fun _ => rfl) fun key j => ?_
  · dsimp only
    by_cases hw : w = worker
    · subst hw
      rwa [Function.update_self]
    · rw [Function.update_of_ne hw]
      exact h.workers w
  · rw [ha, add_zero]
    rfl

theorem advances_step (h : Orderly numServers n u s) (hu : u.Additive) (hn : 0 < numServers) (ha : a.Plain n)
    (hstep : step P numServers s a = some s') : Advances P numServers n u a s s' := by
  obtain ⟨x, hx, hs⟩ := Option.bind_eq_some_iff.mp hstep
  obtain rfl := toOption_eq_some.mp hs
  cases a with
  | get worker keys => exact advances_get h (Option.some.inj hx)
  | add worker x =>
    rw [outcome] at hx
    split at hx
    · rename_i hvals
      rw [h.workers] at hvals
      exact advances_add h hn ha.2 hvals (Option.some.inj hx)
    · cases hx
  | serve i =>
    obtain ⟨m, hm, hok⟩ := Option.map_eq_some_iff.mp hx
    exact advances_serve h hu hm hok
  | deliver i thread =>
    obtain ⟨reply, -, hx⟩ := Option.bind_eq_some_iff.mp hx
    split at hx
    · obtain ⟨t, ht, hok⟩ := bind_eq_ok.mp (Option.some.inj hx)
      cases hok
      unfold LocalTable.processReplyGet at ht
      split at ht
      · cases ht
        exact .setWorker h (h.workers _) fun _ _ => rfl
      · cases ht
    · cases hx
  | getFromLocal worker c keys val =>
    rw [outcome] at hx
    split at hx
    · obtain ⟨t, ht, hok⟩ := bind_eq_ok.mp (Option.some.inj hx)
      obtain ⟨val', -, ht⟩ := bind_eq_ok.mp ht
      cases hok
      cases ht
      exact .setWorker h (h.workers _) fun _ _ => rfl
    · cases hx
  | access worker thread =>
    obtain ⟨y, hy, hok⟩ := Option.map_eq_some_iff.mp hx
    obtain ⟨t, rfl, hok⟩ := bind_eq_ok.mp hok
    cases hok
    obtain ⟨g, -, ht⟩ := Option.map_eq_some_iff.mp hy
    obtain ⟨⟨store, o⟩, haccess, ht⟩ := bind_eq_ok.mp ht
    cases ht
    exact .setWorker h ((Handling.valueLen_advance haccess).trans (h.workers _)) fun _ _ => rfl

theorem advances_exec (h : Orderly numServers n u s) (hu : u.Additive) (hn : 0 < numServers)
    (hplain : ∀ a ∈ as, a.Plain n) (hexec : exec (step P numServers) s as = some t) :
    Orderly numServers n u t ∧ ∀ key r, s.row numServers key = some (r, false) →
      ∃ r', t.row numServers key = some (r', false) ∧ ∀ j < n, r'.getD j 0 + t.pending P u n key j =
        r.getD j 0 + (s.pending P u n key j + (as.map (KVMove.contribution P u n key j)).sum) := by
  induction as generalizing s with
  | nil =>
    cases hexec
    exact ⟨h, fun key r hr => ⟨r, hr, fun j _ => by simp⟩⟩
  | cons a as ih =>
    obtain ⟨v, hv, hexec⟩ := exec_cons.mp hexec
    rw [List.forall_mem_cons] at hplain
    obtain ⟨hord, hrows⟩ := advances_step h hu hn hplain.1 hv
    obtain ⟨ht, hrest⟩ := ih hord hplain.2 hexec
    refine ⟨ht, fun key r hr => ?_⟩
    obtain ⟨r₁, hr₁, hone⟩ := hrows key r hr
    obtain ⟨r', hr', hall⟩ := hrest key r₁ hr₁
    refine ⟨r', hr', fun j hj => ?_⟩
    rw [hall j hj, ← add_assoc, hone j hj, List.map_cons, List.sum_cons]
    ring

/-- From when a key has a row, the row has all that was added to it, but for what is still under way. -/
theorem updates_conserved {initCapacity : ℕ} (hn : 0 < numServers) (hu : u.Additive)
    (h₀ : Started P numServers s₀ initCapacity n) (hsolver : ∀ d, (s₀.servers d).updater = u)
    (hs : exec (step P numServers) s₀ as = some s) (ht : exec (step P numServers) s bs = some t)
    (hplain : ∀ a ∈ as ++ bs, a.Plain n) (hrow : s.row numServers key = some (r, false)) :
    ∃ r', t.row numServers key = some (r', false) ∧ ∀ j < n, r'.getD j 0 + t.pending P u n key j =
      r.getD j 0 + (s.pending P u n key j + (bs.map (KVMove.contribution P u n key j)).sum) := by
  rw [List.forall_mem_append] at hplain
  obtain ⟨hord, -⟩ := advances_exec (orderly_started h₀ hsolver) hu hn hplain.1 hs
  obtain ⟨-, hrows⟩ := advances_exec hord hu hn hplain.2 ht
  exact hrows key r hrow

/-- Two servers with plain gradient descent. -/
def startSgd : Option (KVCluster Unit ℚ) :=
  (KVServerTable.new testProcess 4 1 "sgd" ()).bind fun st =>
    (KVStore.new 4 1 testProcess.garbage).map fun store => ⟨fun _ => st, fun _ => .new store, [], []⟩

theorem started_sgd {c : KVCluster Unit ℚ} (h : startSgd = some c) : Started testProcess 2 c 8 1 := by
  obtain ⟨st, hst, h⟩ := Option.bind_eq_some_iff.mp h
  obtain ⟨store, hstore, rfl⟩ := Option.map_eq_some_iff.mp h
  exact ⟨fun _ => ⟨"sgd", (), hst⟩, fun _ => ⟨store, hstore, rfl⟩, rfl, rfl⟩

/-- Both keys have a row, and then an Add names key 1 twice. -/
theorem updates_conserved_two : ∃ s t : KVCluster Unit ℚ,
    exec (step testProcess 2) s [.add 0 ⟨[1, 2, 1], [10, 20, 30], none⟩, .serve 0, .serve 0] = some t ∧
      s.row 2 1 = some ([5], false) ∧ ∃ r', t.row 2 1 = some (r', false) ∧ ∀ j < 1,
        r'.getD j 0 + t.pending testProcess .sgd 1 1 j = [5].getD j 0 + (s.pending testProcess .sgd 1 1 j +
          (([.add 0 ⟨[1, 2, 1], [10, 20, 30], none⟩, .serve 0, .serve 0] : List (KVMove ℚ)).map
            (KVMove.contribution testProcess .sgd 1 1 j)).sum) := by
  have hrun : (startSgd.bind fun s₀ => (exec (step testProcess 2) s₀ [.get 0 [1, 2], .serve 0, .serve 0]).bind fun s =>
      (exec (step testProcess 2) s [.add 0 ⟨[1, 2, 1], [10, 20, 30], none⟩, .serve 0, .serve 0]).map fun _ =>
        s.row 2 1) = some (some ([5], false)) := by decide +kernel
  obtain ⟨s₀, h₀, hrun⟩ := Option.bind_eq_some_iff.mp hrun
  obtain ⟨s, hs, hrun⟩ := Option.bind_eq_some_iff.mp hrun
  obtain ⟨t, ht, hrow⟩ := Option.map_eq_some_iff.mp hrun
  have hsolver : ∀ d, (s₀.servers d).updater = .sgd := by
    obtain ⟨st, hst, h₀⟩ := Option.bind_eq_some_iff.mp h₀
    obtain ⟨store, -, rfl⟩ := Option.map_eq_some_iff.mp h₀
    obtain ⟨store', -, rfl⟩ := Option.map_eq_some_iff.mp hst
    intro d
    rfl
  refine ⟨s, t, ht, hrow, updates_conserved two_pos trivial (started_sgd h₀) hsolver hs ht ?_ hrow⟩
  simp [KVMove.Plain]

end KVCluster
end Kv
end Hpps

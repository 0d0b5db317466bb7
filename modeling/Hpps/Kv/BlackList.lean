import Hpps.Kv.KVServerTable
import Hpps.Lib.TransitionSystem

/-! The black-listed key of a server's table: it stays zero and immutable. -/
namespace Hpps.Kv.KVServerTable

open Rows KVStore TransitionSystem

variable {ρ Val : Type} [Field Val] {P : KVProcess ρ Val} {st t : KVServerTable ρ Val} {key i n : ℕ}
  {keys : List ℕ} {vals vals' delta : List Val} {option : AddOption Val} {a : KVAdd Val}

/-- Key 0 is mapped to zeros and is the only immutable key. -/
structure BlackListed (n : ℕ) (st : KVServerTable ρ Val) : Prop where
  sound : Sound st.store
  valueLen : st.store.valueLen = n
  zero : st.store.view 0 = some (List.replicate n 0, true)
  mutable : ∀ k row flag, k ≠ 0 → st.store.view k = some (row, flag) → flag = false
  notUpdated : .update 0 ∉ st.log

theorem BlackListed.new {initCapacity : ℕ} {solver : String} {seed : ρ}
    (h : KVServerTable.new P initCapacity n solver seed = some st) : BlackListed n st := by
  obtain ⟨store, hstore, rfl⟩ := Option.map_eq_some_iff.mp h
  obtain ⟨hs, hv, -, hview⟩ := sound_alloc.set (List.length_replicate ..) hstore
  refine ⟨hs, hv, ?_, fun k row flag hk hr => ?_, by simp⟩
  · dsimp only
    rw [hview, Function.update_self]
    rfl
  · dsimp only at hr
    have hnone : (alloc initCapacity n P.garbage).view k = none := by
      rw [sound_alloc.view_eq_none_iff]
      simp [slot_alloc]
    rw [hview, Function.update_of_ne hk, hnone] at hr
    cases hr

/-- A row that is written for another key as mutable changes nothing of this. -/
theorem BlackListed.write (h : BlackListed n st) (hs : Sound t.store)
    (hv : t.store.valueLen = st.store.valueLen) {row : List Val} (hk : key ≠ 0)
    (hview : t.store.view = Function.update st.store.view key (some (row, false)))
    (hlog : .update 0 ∉ t.log) : BlackListed n t where
  sound := hs
  valueLen := hv.trans h.valueLen
  zero := by
    rw [hview, Function.update_of_ne (Ne.symm hk)]
    exact h.zero
  mutable k r flag hk' hr := by
    rw [hview] at hr
    by_cases hkk : k = key
    · subst hkk
      rw [Function.update_self] at hr
      cases hr
      rfl
    · rw [Function.update_of_ne hkk] at hr
      exact h.mutable k r flag hk' hr
  notUpdated := hlog

theorem BlackListed.getOne (h : BlackListed n st) (hok : getOne P st vals i key = .ok (t, vals')) :
    BlackListed n t := by
  obtain ⟨hs, hv, -, -, hcase⟩ := getOne_cases h.sound hok
  rcases hcase with ⟨r, -, hview, hlog⟩ | ⟨row, -, hnone, hview, hlog⟩
  · refine ⟨hs, hv.trans h.valueLen, hview ▸ h.zero, hview ▸ h.mutable, ?_⟩
    simpa [hlog] using h.notUpdated
  · have hk : key ≠ 0 := by
      rintro rfl
      rw [h.zero] at hnone
      cases hnone
    apply h.write hs hv hk hview
    simpa [hlog] using h.notUpdated

theorem BlackListed.addOne (h : BlackListed n st) (hok : addOne P st option key delta = .ok t) :
    BlackListed n t := by
  obtain ⟨hs, hv, -, hcase⟩ := addOne_cases h.sound hok
  rcases hcase with ⟨row, -, hview, -, hlog⟩ | ⟨row, row', hrow, -, hview, hlog⟩
  · exact ⟨hs, hv.trans h.valueLen, hview ▸ h.zero, hview ▸ h.mutable, hlog ▸ h.notUpdated⟩
  · have hk : key ≠ 0 := by
      rintro rfl
      rw [h.zero] at hrow
      rcases hrow with hrow | hrow <;> cases hrow
    apply h.write hs hv hk hview
    simpa [hlog, Ne.symm hk] using h.notUpdated

theorem BlackListed.processGet (h : BlackListed n st) (hok : processGet P st keys = .ok t) :
    BlackListed n t := by
  obtain ⟨u, vals, hloop, -, rfl⟩ := processGet_cases hok
  have hu : BlackListed n u := getLoop_induct (fun _ _ _ _ _ _ h hone => h.getOne hone) h hloop
  exact ⟨hu.sound, hu.valueLen, hu.zero, hu.mutable, hu.notUpdated⟩

theorem BlackListed.processAdd (h : BlackListed n st) (hok : processAdd P st a = .ok t) : BlackListed n t :=
  processAdd_induct (fun _ _ _ _ _ _ h hone => h.addOne hone) h hok

theorem BlackListed.step {m : KVRequest Val} (h : BlackListed n st) (hstep : step P st m = some t) :
    BlackListed n t := by
  rcases step_eq_some hstep with ⟨keys, -, hok⟩ | ⟨a, -, hok⟩
  · exact h.processGet hok
  · exact h.processAdd hok

/-- A reply whose rows all start below `2 ^ 32` holds zeros for key 0. -/
def ZeroRows (n : ℕ) (reply : List ℕ × List Val) : Prop :=
  ∀ i, reply.1[i]? = some 0 → row n reply.2 i = List.replicate n 0

theorem BlackListed.zeroRows (h : BlackListed n st) (hok : KVServerTable.processGet P st keys = .ok t) :
    ∃ vals, t.replies = st.replies ++ [(keys, vals)] ∧
      ((keys.length - 1) * n < 2 ^ 32 → ZeroRows n (keys, vals)) := by
  obtain ⟨u, vals, hloop, hpos, rfl⟩ := processGet_cases hok
  have hkeep : u.replies = st.replies :=
    getLoop_induct (Q := fun u => u.replies = st.replies)
      (fun _ _ _ _ _ _ hv hone => (getOne_replies hone).trans hv) rfl hloop
  refine ⟨vals, by rw [hkeep], fun hfits => ?_⟩
  have hu : BlackListed n u := getLoop_induct (fun _ _ _ _ _ _ h hone => h.getOne hone) h hloop
  have hwrap : ∀ j < 0 + keys.length, j * st.store.valueLen < 2 ^ 32 := by
    intro j hj
    rw [h.valueLen]
    exact (Nat.mul_le_mul_right n (by omega)).trans_lt hfits
  have hroom : ((List.range (keys.length * st.store.valueLen)).map P.garbage.val).length =
      keys.length * st.store.valueLen := by simp
  have hint := lt_of_getLoop hloop (by norm_num)
  have hspec := ServerTable.getLoop_spec (R := P.random) h.sound [] (i := 0) (by simp) hroom hwrap hint
  rw [List.nil_append, getLoop_toServerTable hloop] at hspec
  rcases hspec with hfatal | ⟨r, hr, -, -, -, hrows, hvals⟩
  · cases hfatal
  cases hr
  intro i hi
  obtain ⟨hlt, hkey⟩ := List.getElem?_eq_some_iff.mp hi
  have hlen : ∀ k ∈ keys, (ServerTable.rowOf u.store k).length = n := by
    intro k hk
    obtain ⟨r, flag, hview, hr⟩ := hrows k hk
    rw [ServerTable.rowOf, hview]
    exact hr.trans h.valueLen
  dsimp only at hvals ⊢
  rw [hvals, List.nil_append, row_flatMap hlen hlt, hkey, ServerTable.rowOf, hu.zero]
  rfl

/-- In every run key 0 is mapped to zeros, it is the only immutable key, the updater is not called on it,
and it is answered with zeros unless a row of the reply starts past `2 ^ 32`. -/
theorem black_list_kept {initCapacity : ℕ} {solver : String} {seed : ρ} {st₀ : KVServerTable ρ Val}
    (hnew : KVServerTable.new P initCapacity n solver seed = some st₀)
    (h : Reachable (KVServerTable.step P) st₀ st) :
    st.store.view 0 = some (List.replicate n 0, true) ∧
      (∀ k row flag, k ≠ 0 → st.store.view k = some (row, flag) → flag = false) ∧ .update 0 ∉ st.log ∧
      ∀ reply ∈ st.replies, (reply.1.length - 1) * n < 2 ^ 32 → ZeroRows n reply := by
  have hinv : BlackListed n st ∧ ∀ reply ∈ st.replies, (reply.1.length - 1) * n < 2 ^ 32 → ZeroRows n reply := by
    apply h.invariant (P := fun st => BlackListed n st ∧
      ∀ reply ∈ st.replies, (reply.1.length - 1) * n < 2 ^ 32 → ZeroRows n reply)
    · refine ⟨.new hnew, ?_⟩
      obtain ⟨store, -, rfl⟩ := Option.map_eq_some_iff.mp hnew
      simp
    · rintro u m v ⟨hu, hreplies⟩ hstep
      refine ⟨hu.step hstep, ?_⟩
      rcases step_eq_some hstep with ⟨keys, -, hok⟩ | ⟨a, -, hok⟩
      · obtain ⟨vals, hv, hzero⟩ := hu.zeroRows hok
        rw [hv]
        intro reply hmem
        rcases List.mem_append.mp hmem with hmem | hmem
        · exact hreplies reply hmem
        · rw [List.mem_singleton.mp hmem]
          exact hzero
      · rw [processAdd_replies hu.sound hok]
        exact hreplies
  exact ⟨hinv.1.zero, hinv.1.mutable, hinv.1.notUpdated, hinv.2⟩

/-- Key 0 asked for, updated and asked for again beside another key. -/
theorem black_list_kept_mixed : ∃ st₀ st, KVServerTable.new testProcess 4 2 "sgd" () = some st₀ ∧
    Reachable (KVServerTable.step testProcess) st₀ st ∧ st.replies.length = 2 ∧
      ∀ reply ∈ st.replies, ZeroRows 2 reply := by
  have hrun : ((KVServerTable.new testProcess 4 2 "sgd" ()).bind fun st₀ =>
      exec (KVServerTable.step testProcess) st₀
        [.get [0, 5], .add ⟨[5, 0, 0], [1, 2, 3, 4, 5, 6], none⟩, .get [5, 0]]).map
          (fun st => st.replies.map Prod.fst) = some [[0, 5], [5, 0]] := by rfl
  obtain ⟨st, hst, hreplies⟩ := Option.map_eq_some_iff.mp hrun
  obtain ⟨st₀, hnew, hexec⟩ := Option.bind_eq_some_iff.mp hst
  have hlen := congrArg List.length hreplies
  rw [List.length_map] at hlen
  refine ⟨st₀, st, hnew, ⟨_, hexec⟩, hlen, fun reply hmem => ?_⟩
  obtain ⟨-, -, -, hzero⟩ := black_list_kept hnew ⟨_, hexec⟩
  apply hzero reply hmem
  have hkeys : reply.1 ∈ st.replies.map Prod.fst := List.mem_map_of_mem hmem
  rw [hreplies] at hkeys
  rcases List.mem_cons.mp hkeys with h | h
  · rw [h]
    decide
  · rw [List.mem_singleton.mp h]
    decide

/-! ### A reply that wraps -/

theorem BlackListed.getOne_zero (h : BlackListed n st) (hroom : i * n % 2 ^ 32 + n ≤ vals.length) :
    KVServerTable.getOne P st vals i 0 = .ok ({ st with log := st.log ++ [.reply 0] },
      overwrite vals (i * n % 2 ^ 32) (List.replicate n 0)) := by
  obtain ⟨b, hb, hrow⟩ := h.sound.view_eq_some_iff.mp h.zero
  have hread : st.store.read (st.store.node b).offset.toNat = List.replicate n 0 := (Prod.mk.inj hrow).1.symm
  have himm : (st.store.node b).immutable = true := (Prod.mk.inj hrow).2.symm
  have hget : st.store.get 0 false = some (st.store, some ⟨b, (st.store.node b).offset.toNat, true, false⟩) := by
    rw [KVStore.get, h.sound.find_hit_iff.mpr hb]
    simp only [himm, Bool.or_true]
  have hcopy : memcpy vals (i * n % 2 ^ 32) (List.replicate n 0) =
      .ok (overwrite vals (i * n % 2 ^ 32) (List.replicate n 0)) := by
    rw [memcpy, if_pos (by rw [List.length_replicate]; exact hroom)]
  have hone : ServerTable.getOne P.random st.toServerTable vals i 0 =
      .ok (st.toServerTable, overwrite vals (i * n % 2 ^ 32) (List.replicate n 0)) := by
    simp only [ServerTable.getOne, hget, orFatal, Option.elim_some, ok_bind, Bool.false_eq_true, if_false,
      h.valueLen, hread, hcopy]
    rfl
  rw [KVServerTable.getOne, hone, isNew_eq hget]
  rfl

/-- What no row of a reply reaches stays as it was allocated. -/
theorem BlackListed.getLoop_zeros (h : BlackListed n st) {p m : ℕ}
    (hroom : ∀ i, i * n % 2 ^ 32 + n ≤ vals.length) (hp : ∀ i, i * n % 2 ^ 32 + n ≤ p)
    (hint : i + m < 2 ^ 31) :
    ∃ t vals', getLoop P i (List.replicate m 0) st vals = .ok (t, vals') ∧ vals'[p]? = vals[p]? := by
  induction m generalizing st i vals with
  | zero => exact ⟨st, vals, rfl, rfl⟩
  | succ m ih =>
    have hone := h.getOne_zero (P := P) (hroom i)
    have hlen : (List.replicate n (0 : Val)).length = n := List.length_replicate ..
    have hsame : (overwrite vals (i * n % 2 ^ 32) (List.replicate n 0)).length = vals.length :=
      length_overwrite (by rw [hlen]; exact hroom i)
    obtain ⟨t, vals', hloop, hget⟩ := ih (h.getOne hone) (by rw [hsame]; exact hroom) (i := i + 1) (by omega)
    refine ⟨t, vals', ?_, ?_⟩
    · rw [List.replicate_succ, getLoop, hone, ok_bind]
      dsimp only
      rw [incr_eq (by omega), ok_bind]
      exact hloop
    · have := hp i
      rw [hget, getElem?_overwrite (by rw [hlen]; exact hroom i), hlen, if_neg (by omega)]

/-- The third of three rows of `2 ^ 31` values is copied over the first. -/
theorem black_list_wraps : ∃ st₀ st, KVServerTable.new testProcess 1 (2 ^ 31) "sgd" () = some st₀ ∧
    Reachable (KVServerTable.step testProcess) st₀ st ∧ ∃ reply ∈ st.replies, ¬ ZeroRows (2 ^ 31) reply := by
  obtain ⟨store, hstore⟩ := exists_new 1 (2 ^ 31) testProcess.garbage
  obtain ⟨st₀, hnew⟩ : ∃ st₀, KVServerTable.new testProcess 1 (2 ^ 31) "sgd" () = some st₀ :=
    ⟨_, congrArg (Option.map _) hstore⟩
  have h := BlackListed.new hnew
  have hblob : (List.range (([0, 0, 0] : List ℕ).length * 2 ^ 31)).length = 3 * 2 ^ 31 := List.length_range
  have hroom : ∀ i, i * 2 ^ 31 % 2 ^ 32 + 2 ^ 31 ≤
      ((List.range (([0, 0, 0] : List ℕ).length * 2 ^ 31)).map testProcess.garbage.val).length := by
    intro i
    rw [List.length_map, hblob]
    omega
  obtain ⟨t, vals, hloop, hget⟩ := h.getLoop_zeros (P := testProcess) (i := 0) (p := 2 ^ 32) (m := 3) hroom
    (by omega) (by norm_num)
  have hone : vals[2 ^ 32]? = some 1 := by
    rw [hget, List.getElem?_map, List.getElem?_range (by norm_num)]
    rfl
  have hok : processGet testProcess st₀ [0, 0, 0] = .ok { t with replies := t.replies ++ [([0, 0, 0], vals)] } := by
    rw [processGet, h.valueLen]
    dsimp only
    rw [if_neg (by norm_num)]
    exact congrArg (· >>= _) hloop
  have hstep : KVServerTable.step testProcess st₀ (.get [0, 0, 0]) =
      some { t with replies := t.replies ++ [([0, 0, 0], vals)] } := by
    rw [KVServerTable.step, hok]
    rfl
  refine ⟨st₀, _, hnew, Reachable.refl.tail hstep, _, List.mem_append_right _ List.mem_cons_self, fun hzero => ?_⟩
  have hrow := hzero 2 rfl
  have hfirst : (row (2 ^ 31) vals 2)[0]? = some 1 := by
    rw [row, List.getElem?_take_of_lt (by norm_num), List.getElem?_drop]
    exact hone
  rw [hrow, List.getElem?_replicate] at hfirst
  simp at hfirst

end Hpps.Kv.KVServerTable

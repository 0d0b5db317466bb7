import Hpps.Kv.Checkpoint
import Hpps.Kv.FiniteMap

/-! `KVStore::Clear`, and the buckets that it leaves in use. -/
namespace Hpps.Kv.KVStore

open OpenAddressing TransitionSystem

variable {Val : Type} {s t u : KVStore Val} {g : Garbage Val} {i j k b n : ℕ} {cs : List (Call Val)}

/-- The loop frees the first `node_size_` buckets, not all `node_capacity_` of them. -/
def clear (s : KVStore Val) : KVStore Val :=
  { s with
    node := fun i => if i < s.nodeSize then ⟨(s.node i).key, -1, false⟩ else s.node i
    nodeSize := 0
    dataSize := 0 }

/-- The keys that the calls `cs` gave a row, and no others, have one each. -/
structure OwnRows (cs : List (Call Val)) (s : KVStore Val) : Prop where
  found_iff : ∀ k, (∃ e, s.get k true = some (s, some e)) ↔ ∃ c ∈ cs, c.key = k ∧ c.puts = true
  disjoint : ∀ k k' e e', s.get k true = some (s, some e) → s.get k' true = some (s, some e') →
    k ≠ k' → e.offset + s.valueLen ≤ e'.offset ∨ e'.offset + s.valueLen ≤ e.offset
  frame : ∀ c t k r, s.step c = some t → c.key ≠ k →
    (t.lookup k = some (some r) ↔ s.lookup k = some (some r))

/-- No key is found, and each key gets its own row from whatever is called next. -/
structure Emptied (s : KVStore Val) : Prop where
  lookup : ∀ k, s.lookup k = some none
  later : ∀ cs t, exec step s cs = some t → OwnRows cs t

/-! ### A store without keys -/

theorem Sound.ownRows (h : Sound s) (hnone : ∀ k, s.view k = none) (hr : exec KVStore.step s cs = some t) :
    OwnRows cs t := by
  obtain ⟨ht, -⟩ := keeps_exec h hr
  have h₀ : Agrees s fun _ => none := by
    intro k
    rw [hnone]
    exact .absent
  have ha := agrees_exec h h₀ hr
  refine ⟨fun k => ?_, fun k k' e e' => ht.rows_disjoint, fun c u k r hstep hk => ?_⟩
  · rw [exists_get_true_iff ht, Ne, ← ha.eq_none_iff, foldl_record_eq_none_iff]
    push Not
    exact ⟨fun h => h rfl, fun h _ => h⟩
  · rw [← view_eq_some_iff_lookup, ← view_eq_some_iff_lookup, view_step ht hstep hk]

theorem Sound.emptied (h : Sound s) (hfree : ∀ i, s.slot i = none) : Emptied s := by
  have hnone : ∀ k, s.view k = none := fun k => h.view_eq_none_iff.mpr fun i => by simp [hfree]
  refine ⟨fun k => ?_, fun cs t hr => h.ownRows hnone hr⟩
  have hp : ∃ i, s.find k = .free i := by
    rw [find_eq_probe h.pos, path, kMaxProbeNum, walk, probe, hfree]
    exact ⟨_, rfl⟩
  obtain ⟨i, hi⟩ := hp
  simp [KVStore.lookup, KVStore.get, hi]

theorem slot_clear : s.clear.slot i = if i < s.nodeSize then none else s.slot i := by
  by_cases hi : i < s.nodeSize <;> simp [slot, clear, hi]

theorem Sound.clear (h : Sound s) (hall : ∀ i < s.nodeCapacity, 0 ≤ (s.node i).offset → i < s.nodeSize) :
    Sound s.clear ∧ ∀ i, s.clear.slot i = none := by
  have hfree : ∀ i, s.clear.slot i = none := by
    intro i
    rw [slot_clear]
    split
    · rfl
    · rename_i hi
      refine if_neg ?_
      rintro ⟨hc, ho⟩
      exact hi (hall i hc ho)
  refine ⟨⟨h.pow, ?_, ?_, by simp [KVStore.clear], h.dataCapacity, ?_, ?_⟩, hfree⟩
  · intro i k hi
    simp [hfree] at hi
  · symm
    rw [KVStore.clear, Finset.card_eq_zero, Finset.filter_eq_empty_iff]
    intro i hi hle
    have hs := hfree i
    rw [slot, if_pos ⟨Finset.mem_range.mp hi, hle⟩] at hs
    cases hs
  · intro i k hi
    simp [hfree] at hi
  · intro i j k k' hi
    simp [hfree] at hi

/-! ### A bucket that stays in use -/

/-- A key that has its home in bucket `j`, and is not `k`. -/
def homeKey (cap k j : ℕ) : ℕ := if k = j then j + cap else j

theorem find_homeKey (h : ∃ m, s.nodeCapacity = 2 ^ m) (hj : j < s.nodeCapacity) (hfree : (s.node j).offset < 0) :
    homeKey s.nodeCapacity k j ≠ k ∧ s.find (homeKey s.nodeCapacity k j) = .free j := by
  obtain ⟨m, hm⟩ := h
  have hmask : mask s.nodeCapacity (homeKey s.nodeCapacity k j) = j := by
    rw [mask, hm, Nat.and_two_pow_sub_one_eq_mod, homeKey, ← hm]
    split
    · rw [Nat.add_mod_right, Nat.mod_eq_of_lt hj]
    · exact Nat.mod_eq_of_lt hj
  refine ⟨?_, ?_⟩
  · unfold homeKey
    split
    · omega
    · rename_i hk
      exact Ne.symm hk
  · rw [find, hmask, kMaxProbeNum, probeFrom, if_pos hj, if_pos hfree]

/-- The buckets that are free. -/
def freeBuckets (s : KVStore Val) : Finset ℕ := {j ∈ Finset.range s.nodeCapacity | (s.node j).offset < 0}

theorem card_free_insert (hj : j ∈ s.freeBuckets) :
    (s.insert b j).freeBuckets.card < s.freeBuckets.card := by
  apply Finset.card_lt_card
  rw [Finset.ssubset_iff_of_subset]
  · refine ⟨j, hj, fun h => ?_⟩
    have := (Finset.mem_filter.mp h).2
    simp [insert] at this
    omega
  · intro i hi
    obtain ⟨hlt, hneg⟩ := Finset.mem_filter.mp hi
    refine Finset.mem_filter.mpr ⟨hlt, ?_⟩
    by_cases hij : i = j
    · subst hij
      exact (Finset.mem_filter.mp hj).2
    · simpa [insert, hij] using hneg

/-- Once the free buckets before it are taken, a key that sits on its path is found again. -/
theorem exists_found (hpow : ∃ m, s.nodeCapacity = 2 ^ m) (hi : s.slot i = some k)
    (hp : i ∈ path s.nodeCapacity k) :
    ∃ cs t j, exec step s cs = some t ∧ (∀ c ∈ cs, c.key ≠ k) ∧ t.find k = .hit j := by
  induction hn : s.freeBuckets.card using Nat.strong_induction_on generalizing s with
  | _ n ih =>
    have hc : 0 < s.nodeCapacity := by
      obtain ⟨m, hm⟩ := hpow
      rw [hm]
      exact Nat.two_pow_pos m
    cases hf : s.find k with
    | hit j => exact ⟨[], s, j, rfl, by simp, hf⟩
    | exhausted =>
      rw [find_eq_probe hc] at hf
      exact absurd hf (probe_ne_exhausted hp (.inr hi))
    | free j =>
      rw [find_eq_probe hc] at hf
      obtain ⟨hs, hm⟩ := slot_of_free hf
      have hj : j < s.nodeCapacity := Sound.lt_of_mem_walk hc (mask_lt hc) hm
      have hneg : (s.node j).offset < 0 := by simpa [slot, hj] using hs
      obtain ⟨hne, hb⟩ := find_homeKey (k := k) hpow hj hneg
      have hstep : s.step (.get (homeKey s.nodeCapacity k j) false) =
          some (s.insert (homeKey s.nodeCapacity k j) j) := by
        simp [step, Call.fits, call, KVStore.get, hb]
      have hij : i ≠ j := by
        rintro rfl
        rw [hs] at hi
        cases hi
      have hi' : (s.insert (homeKey s.nodeCapacity k j) j).slot i = some k := by
        rw [Sound.slot_insert hj, Function.update_of_ne hij, hi]
      have hless : (s.insert (homeKey s.nodeCapacity k j) j).freeBuckets.card < n :=
        hn ▸ card_free_insert (Finset.mem_filter.mpr ⟨Finset.mem_range.mpr hj, hneg⟩)
      have hcap : (s.insert (homeKey s.nodeCapacity k j) j).nodeCapacity = s.nodeCapacity := rfl
      generalize s.insert (homeKey s.nodeCapacity k j) j = u at *
      obtain ⟨cs, t, l, ht, hcs, hl⟩ := ih _ hless (hcap ▸ hpow) hi' (hcap ▸ hp) rfl
      exact ⟨_ :: cs, t, l, exec_cons.mpr ⟨_, hstep, ht⟩, List.forall_mem_cons.mpr ⟨hne, hcs⟩, hl⟩

/-- Clear empties the store exactly when no bucket in use lies past the first `node_size_`. -/
theorem clear_empties_iff [Zero Val] (hs : Reachable n s) : Emptied s.clear ↔
    ∀ i < s.nodeCapacity, 0 ≤ (s.node i).offset → i < s.nodeSize := by
  obtain ⟨h, -⟩ := hs.sound
  constructor
  · intro he i hi hlive
    by_contra hge
    have hslot : s.slot i = some (s.node i).key := if_pos ⟨hi, hlive⟩
    have hkept : s.clear.slot i = some (s.node i).key := by rw [slot_clear, if_neg hge, hslot]
    obtain ⟨cs, t, j, ht, hcs, hj⟩ := exists_found (s := s.clear) h.pow hkept
      (slot_of_hit (h.findable i _ hslot)).2
    have hfound : t.get (s.node i).key true =
        some (t, some ⟨j, (t.node j).offset.toNat, true, false⟩) := by
      simp [KVStore.get, hj]
    obtain ⟨c, hc, hk, -⟩ := ((he.later cs t ht).found_iff _).mp ⟨_, hfound⟩
    exact hcs c hc hk
  · intro hall
    obtain ⟨hc, hfree⟩ := h.clear hall
    exact hc.emptied hfree

/-- Keys 0 and 1 sit in the first two buckets. -/
theorem clear_empties_two : ∃ s : KVStore ℕ, s.lookup 1 = some (some ([7], false)) ∧ Emptied s.clear := by
  obtain ⟨s₀, h₀⟩ : ∃ s₀, new 4 1 blank = some s₀ := exists_new ..
  have hs : Reachable 1 ((s₀.step (.set 1 [7] false)).getD s₀) :=
    ⟨4, blank, s₀, h₀, [.set 1 [7] false], by cases h₀; rfl⟩
  refine ⟨_, ?_, (clear_empties_iff hs).mpr ?_⟩
  · cases h₀
    decide
  · cases h₀
    decide

/-- Of keys 0 and 3, in a table of four buckets, Clear frees bucket 0 only. -/
theorem clear_leaves_key : ∃ s : KVStore ℕ, Reachable 1 s ∧ ¬ Emptied s.clear := by
  obtain ⟨s₀, h₀⟩ : ∃ s₀, new 4 1 blank = some s₀ := exists_new ..
  refine ⟨(s₀.step (.set 3 [7] false)).getD s₀, ⟨4, blank, s₀, h₀, [.set 3 [7] false], ?_⟩, ?_⟩
  · cases h₀
    rfl
  · intro he
    have hk := he.lookup 3
    cases h₀
    revert hk
    decide

end Hpps.Kv.KVStore

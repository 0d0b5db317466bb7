import Hpps.Lib.Blocks
import Hpps.Net.Topology

/-! The groups of the recursive halving map: as many as the greatest power of two that fits, those
from the `m`-th on with two machines. -/
namespace Hpps.Net.RecursiveHalvingMap

open Blocks

variable {n k m i r g d : ℕ} {len : ℕ → ℕ}

theorem count_spec (hk : ∀ i < k, 2 ^ i ≤ n) (hm : n < 2 ^ (k + m)) :
    (∀ i < count n m k, 2 ^ i ≤ n) ∧ n < 2 ^ count n m k := by
  induction m generalizing k with
  | zero => exact ⟨hk, hm⟩
  | succ m ih =>
    rw [count]
    split
    · rename_i hle
      refine ih (fun i hi => ?_) (by rwa [Nat.add_right_comm])
      rcases Nat.lt_succ_iff_lt_or_eq.mp hi with hi | rfl
      · exact hk i hi
      · exact hle
    · rename_i hlt
      exact ⟨hk, not_le.mp hlt⟩

theorem levels_spec (hn : 0 < n) : 2 ^ levels n ≤ n ∧ n < 2 ^ (levels n + 1) := by
  have hfuel : n < 2 ^ (0 + (n + 1)) := by
    rw [Nat.zero_add]
    exact Nat.lt_two_pow_self.trans (Nat.pow_lt_pow_succ Nat.one_lt_two)
  obtain ⟨hle, hlt⟩ := count_spec (n := n) (k := 0) (m := n + 1) (by simp) hfuel
  have hpos : 0 < count n (n + 1) 0 := by
    by_contra h0
    rw [Nat.eq_zero_of_not_pos h0] at hlt
    omega
  have hlevels : levels n + 1 = count n (n + 1) 0 := Nat.sub_add_cancel hpos
  exact ⟨hle _ (by omega), hlevels ▸ hlt⟩

/-- How many groups have one machine only. -/
def singles (n : ℕ) : ℕ := 2 ^ (levels n + 1) - n

theorem singles_spec (hn : 0 < n) : 0 < singles n ∧ singles n ≤ 2 ^ levels n ∧
    n + singles n = 2 * 2 ^ levels n := by
  obtain ⟨hle, hlt⟩ := levels_spec hn
  rw [singles]
  rw [pow_succ] at hlt ⊢
  omega

/-- The first machine of a group. -/
def groupStart (m g : ℕ) : ℕ := g + (g - m)

/-- The group of a machine. -/
def groupOf (m r : ℕ) : ℕ := if r < m then r else m + (r - m) / 2

/-- The type of a machine. -/
def typeOf (m r : ℕ) : NodeType :=
  if r < m then .normal else if (r - m) % 2 = 0 then .groupLeader else .other

theorem groupOf_groupStart : groupOf m (groupStart m g) = g := by
  unfold groupOf groupStart
  split <;> omega

theorem typeOf_groupStart : typeOf m (groupStart m g) = if g < m then .normal else .groupLeader := by
  unfold typeOf groupStart
  by_cases h : g < m
  · rw [if_pos (by omega), if_pos h]
  · rw [if_neg (by omega), if_pos (by omega), if_neg h]

theorem groupStart_groupOf (h : typeOf m r ≠ .other) : groupStart m (groupOf m r) = r := by
  unfold typeOf at h
  unfold groupOf groupStart
  by_cases hr : r < m
  · rw [if_pos hr]
    omega
  · rw [if_neg hr] at h ⊢
    have heven : (r - m) % 2 = 0 := by
      by_contra hodd
      exact h (if_neg hodd)
    omega

theorem groupStart_mono {a b : ℕ} (h : a ≤ b) : groupStart m a ≤ groupStart m b := by
  unfold groupStart
  omega

theorem nodeType_succ {t : ℕ} : nodeType n (t + 1) =
    Function.update (Function.update (nodeType n t) (n - t * 2 - 2) .groupLeader)
      (n - t * 2 - 1) .other := by
  simp only [nodeType, List.range_succ, List.foldl_append, List.foldl_cons, List.foldl_nil]

theorem nodeType_eq {t : ℕ} (ht : m + 2 * t = n) (hr : r < n) : nodeType n t r = typeOf m r := by
  induction t generalizing m with
  | zero => rw [typeOf, if_pos (by omega)]; rfl
  | succ t ih =>
    have ih := ih (m := m + 2) (by omega)
    rw [nodeType_succ]
    by_cases h1 : r = n - t * 2 - 1
    · rw [h1, Function.update_self, typeOf, if_neg (by omega), if_neg (by omega)]
    · rw [Function.update_of_ne h1]
      by_cases h2 : r = n - t * 2 - 2
      · rw [h2, Function.update_self, typeOf, if_neg (by omega), if_pos (by omega)]
      · rw [Function.update_of_ne h2, ih]
        have hparity : (r - (m + 2)) % 2 = (r - m) % 2 ∨ r < m := by omega
        unfold typeOf
        by_cases hrm : r < m
        · rw [if_pos hrm, if_pos (by omega)]
        · rw [if_neg hrm, if_neg (by omega), hparity.resolve_right hrm]

/-- How many machines group `g` has. -/
def groupLen (m g : ℕ) : ℕ := if g < m then 1 else 2

theorem groupStart_succ : groupStart m (g + 1) = groupStart m g + groupLen m g := by
  unfold groupStart groupLen
  split <;> omega

/-- How many groups the first `i` machines are in. -/
def groupCount (m i : ℕ) : ℕ := if i ≤ m then i else m + (i - m + 1) / 2

theorem typeOf_ne_other_iff : typeOf m r ≠ .other ↔ r < m ∨ (r - m) % 2 = 0 := by
  unfold typeOf
  by_cases hr : r < m
  · simp [hr]
  · by_cases hp : (r - m) % 2 = 0 <;> simp [hr, hp]

theorem groupCount_of_ne_other (h : typeOf m i ≠ .other) : groupCount m i = groupOf m i := by
  have h := typeOf_ne_other_iff.mp h
  unfold groupCount groupOf
  split <;> split <;> omega

theorem groupCount_of_other (h : typeOf m i = .other) : groupCount m i = groupOf m i + 1 := by
  have h := mt typeOf_ne_other_iff.mpr (not_not.mpr h)
  unfold groupCount groupOf
  split <;> split <;> omega

theorem groupCount_succ :
    groupCount m (i + 1) = if typeOf m i = .other then groupCount m i else groupCount m i + 1 := by
  have h := typeOf_ne_other_iff (m := m) (r := i)
  unfold groupCount
  by_cases ho : typeOf m i = .other
  · rw [if_pos ho]
    have := mt h.mpr (not_not.mpr ho)
    split <;> split <;> omega
  · rw [if_neg ho]
    have := h.mp ho
    split <;> split <;> omega

/-- What the loop over the machines has computed after the first `i` of them. -/
structure Grouped (m i : ℕ) (s : Groups) : Prop where
  groupCnt : s.groupCnt = groupCount m i
  groupToNode : ∀ g < s.groupCnt, s.groupToNode g = groupStart m g
  nodeToGroup : ∀ r < i, s.nodeToGroup r = groupOf m r
  groupBlockLen : ∀ g, s.groupBlockLen g = min (i - groupStart m g) (groupLen m g)

/-- Machine `i` is one more of its own group only. -/
theorem min_succ : min (i + 1 - groupStart m g) (groupLen m g) =
    if g = groupOf m i then min (i - groupStart m g) (groupLen m g) + 1
    else min (i - groupStart m g) (groupLen m g) := by
  unfold groupStart groupLen groupOf
  split <;> split <;> split <;> omega

theorem Grouped.add {s : Groups} {type : ℕ → NodeType} (h : Grouped m i s) (ht : type i = typeOf m i) :
    Grouped m (i + 1) (Groups.add type s i) := by
  have hcnt := h.groupCnt
  have hlen : ∀ x, x = groupOf m i → ∀ g, Function.update s.groupBlockLen x (s.groupBlockLen x + 1) g =
      min (i + 1 - groupStart m g) (groupLen m g) := by
    rintro x rfl g
    rw [min_succ]
    by_cases hg : g = groupOf m i
    · rw [hg, Function.update_self, if_pos rfl, h.groupBlockLen]
    · rw [Function.update_of_ne hg, if_neg hg, h.groupBlockLen]
  have hgroup : ∀ x, x = groupOf m i → ∀ r < i + 1, Function.update s.nodeToGroup i x r = groupOf m r := by
    rintro x rfl r hr
    by_cases hri : r = i
    · rw [hri, Function.update_self]
    · rw [Function.update_of_ne hri, h.nodeToGroup r (by omega)]
  unfold Groups.add
  by_cases hnew : type i = .normal ∨ type i = .groupLeader
  · -- the machine opens a new group
    rw [if_pos hnew]
    have htype : typeOf m i ≠ .other := by
      rw [← ht]
      rintro hother
      rw [hother] at hnew
      simp at hnew
    have hstart := groupStart_groupOf htype
    have hcur : s.groupCnt = groupOf m i := by
      rw [hcnt, groupCount_of_ne_other htype]
    refine ⟨?_, ?_, hgroup _ (by simpa using hcur), hlen _ (by simpa using hcur)⟩
    · dsimp only
      rw [hcnt, groupCount_succ, if_neg htype]
    · intro g hg
      dsimp only at hg ⊢
      by_cases hgc : g = s.groupCnt
      · rw [hgc, Function.update_self, hcur, hstart]
      · rw [Function.update_of_ne hgc, h.groupToNode g (by omega)]
  · rw [if_neg hnew]
    have htype : typeOf m i = .other := by
      rw [← ht]
      cases hti : type i with
      | other => rfl
      | normal => exact absurd (.inl hti) hnew
      | groupLeader => exact absurd (.inr hti) hnew
    have hcur : s.groupCnt - 1 = groupOf m i := by
      rw [hcnt, groupCount_of_other htype, Nat.add_sub_cancel]
    refine ⟨?_, h.groupToNode, hgroup _ hcur, hlen _ hcur⟩
    dsimp only
    rw [hcnt, groupCount_succ, if_pos htype]

theorem grouped_groups {type : ℕ → NodeType} (h : ∀ r < n, type r = typeOf m r) :
    Grouped m n (groups n type) := by
  unfold groups
  induction n with
  | zero => exact ⟨by simp [groupCount], by simp, by simp, by simp⟩
  | succ n ih =>
    rw [List.range_succ, List.foldl_append]
    exact (ih fun r hr => h r (by omega)).add (h n (by omega))

theorem groupBlockStart_eq (h : ∀ g < k, len g = groupLen m g) (hg : g ≤ k) :
    groupBlockStart len g = groupStart m g := by
  induction g with
  | zero => simp [groupBlockStart, groupStart]
  | succ g ih => rw [groupBlockStart, ih (by omega), h g (by omega), groupStart_succ]

theorem sumFrom_eq (h : ∀ g < k, len g = groupLen m g) (hd : g + d ≤ k) :
    sumFrom len g d = groupStart m (g + d) - groupStart m g := by
  have hmono := groupStart_mono (m := m) (Nat.le_add_right g d)
  induction d with
  | zero => simp [sumFrom]
  | succ d ih =>
    have hmono' := groupStart_mono (m := m) (Nat.le_add_right g d)
    have ih := ih (by omega) hmono'
    rw [sumFrom] at ih
    rw [sumFrom, List.range_succ, List.foldl_append, ih, List.foldl_cons, List.foldl_nil,
      h _ (by omega), ← Nat.add_assoc, groupStart_succ]
    omega

/-! ### Partners -/

theorem le_of_odd_div (h : ¬ g / d % 2 = 0) : d ≤ g := by
  have hq : 1 ≤ g / d := by
    generalize g / d = q at h ⊢
    omega
  calc d = 1 * d := (Nat.one_mul d).symm
    _ ≤ g / d * d := Nat.mul_le_mul_right d hq
    _ ≤ g := Nat.div_mul_le_self g d

theorem partner_div (hd : 0 < d) :
    partner g d / d = if g / d % 2 = 0 then g / d + 1 else g / d - 1 := by
  unfold partner
  split
  · exact Nat.add_div_right g hd
  · rename_i hodd
    have := Nat.sub_mul_div_of_le g d 1 (by simpa using le_of_odd_div hodd)
    simpa using this

theorem partner_mod : partner g d % d = g % d := by
  unfold partner
  split
  · exact Nat.add_mod_right g d
  · rename_i hodd
    have hle := le_of_odd_div hodd
    conv_rhs => rw [← Nat.sub_add_cancel hle, Nat.add_mod_right]

theorem partner_partner (hd : 0 < d) : partner (partner g d) d = g := by
  have hdiv := partner_div (g := g) hd
  have hparity : partner g d / d % 2 = 0 ↔ ¬ g / d % 2 = 0 := by
    rw [hdiv]
    split <;> omega
  by_cases h : g / d % 2 = 0
  · rw [partner, if_neg fun h' => hparity.mp h' h, partner, if_pos h, Nat.add_sub_cancel]
  · rw [partner, if_pos (hparity.mpr h), partner, if_neg h, Nat.sub_add_cancel (le_of_odd_div h)]

/-- Partners are in the same window of twice the distance. -/
theorem partner_div_two (hd : 0 < d) : partner g d / (d * 2) = g / (d * 2) := by
  rw [← Nat.div_div_eq_div_mul, ← Nat.div_div_eq_div_mul, partner_div hd]
  generalize g / d = q
  split <;> omega

theorem partner_lt (hd : 0 < d) (hk : d * 2 ∣ k) (hg : g < k) : partner g d < k := by
  obtain ⟨c, rfl⟩ := hk
  have h2 : 0 < d * 2 := by omega
  rw [Nat.mul_comm, ← Nat.div_lt_iff_lt_mul h2] at hg ⊢
  rwa [partner_div_two hd]

theorem mod_two_mul_iff (hd : 0 < d) {a b : ℕ} :
    a % (d * 2) = b % (d * 2) ↔ a % d = b % d ∧ a / d % 2 = b / d % 2 := by
  rw [Nat.mod_mul, Nat.mod_mul]
  constructor
  · intro h
    have hmod := congrArg (· % d) h
    simp only [Nat.add_mul_mod_self_left, Nat.mod_mod] at hmod
    rw [hmod] at h
    exact ⟨hmod, Nat.eq_of_mul_eq_mul_left hd (Nat.add_left_cancel h)⟩
  · rintro ⟨h, h'⟩
    rw [h, h']

/-- The groups that agree with `g` up to distance `d` are those that do so up to twice the distance
and those of the partner. -/
theorem mod_eq_iff (hd : 0 < d) {a : ℕ} : a % d = g % d ↔
    a % (d * 2) = g % (d * 2) ∨ a % (d * 2) = partner g d % (d * 2) := by
  have hparity : partner g d / d % 2 = 1 - g / d % 2 := by
    rw [partner_div hd]
    split <;> omega
  rw [mod_two_mul_iff hd, mod_two_mul_iff hd, partner_mod, hparity]
  have := Nat.mod_lt (g / d) Nat.two_pos
  have := Nat.mod_lt (a / d) Nat.two_pos
  omega

theorem mod_partner_ne (hd : 0 < d) : partner g d % (d * 2) ≠ g % (d * 2) := by
  rw [Ne, mod_two_mul_iff hd, partner_div hd]
  split <;> omega

/-- A window lies inside the one of twice the size. -/
theorem window_subset : g / (d * 2) * (d * 2) ≤ g / d * d ∧
    g / d * d + d ≤ g / (d * 2) * (d * 2) + d * 2 := by
  rw [← Nat.div_div_eq_div_mul]
  have h : g / d / 2 * (d * 2) = g / d / 2 * 2 * d := by ring
  rw [h]
  constructor
  · exact Nat.mul_le_mul_right d (Nat.div_mul_le_self ..)
  · have : (g / d + 1) * d ≤ (g / d / 2 * 2 + 2) * d := Nat.mul_le_mul_right d (by omega)
    linarith

theorem window_le (hd : 0 < d) (hk : d ∣ k) (hg : g < k) : g / d * d + d ≤ k := by
  obtain ⟨c, rfl⟩ := hk
  have hc : g / d < c := by
    rw [Nat.div_lt_iff_lt_mul hd, Nat.mul_comm]
    exact hg
  calc g / d * d + d = (g / d + 1) * d := (Nat.succ_mul ..).symm
    _ ≤ c * d := Nat.mul_le_mul_right d hc
    _ = d * c := Nat.mul_comm c d

/-! ### What the map tells a machine -/

/-- The map of machine `r`, in terms of the groups. -/
structure Told (k m r : ℕ) (map : RecursiveHalvingMap) : Prop where
  k_eq : map.k = k
  type : map.type = typeOf m r
  neighbor_leader : typeOf m r = .groupLeader → map.neighbor = r + 1
  neighbor_other : typeOf m r = .other → map.neighbor = r - 1
  ranks : typeOf m r ≠ .other → ∀ i < k,
    map.ranks i = groupStart m (partner (groupOf m r) (2 ^ (k - 1 - i)))
  recv : typeOf m r ≠ .other → ∀ i < k, ∀ d, d = 2 ^ (k - 1 - i) → ∀ g, g = groupOf m r / d * d →
    map.recvBlockStart i = groupStart m g ∧
      map.recvBlockLen i = groupStart m (g + d) - groupStart m g
  send : typeOf m r ≠ .other → ∀ i < k, ∀ d, d = 2 ^ (k - 1 - i) →
    ∀ g, g = partner (groupOf m r) d / d * d →
      map.sendBlockStart i = groupStart m g ∧
        map.sendBlockLen i = groupStart m (g + d) - groupStart m g

theorem groupStart_of_le (h : g ≤ m) : groupStart m g = g := by
  unfold groupStart
  omega

theorem dvd_levels (hi : i < k) : 2 ^ (k - 1 - i) * 2 ∣ 2 ^ k := by
  rw [← pow_succ]
  exact pow_dvd_pow 2 (by omega)

theorem groupOf_lt (hn : 0 < n) (hr : r < n) : groupOf (singles n) r < 2 ^ levels n := by
  obtain ⟨-, hle, hadd⟩ := singles_spec hn
  unfold groupOf
  split <;> omega

theorem told_construct (hr : r < n) : Told (levels n) (singles n) r (construct r n) := by
  have hn : 0 < n := r.zero_le.trans_lt hr
  obtain ⟨hpos, hle, hadd⟩ := singles_spec hn
  have hg := groupOf_lt hn hr
  have hd : ∀ i, 0 < 2 ^ (levels n - 1 - i) := fun i => Nat.two_pow_pos _
  have hwin : ∀ i < levels n, ∀ g < 2 ^ levels n,
      g / 2 ^ (levels n - 1 - i) * 2 ^ (levels n - 1 - i) + 2 ^ (levels n - 1 - i) ≤ 2 ^ levels n :=
    fun i hi g hg => window_le (hd i) (dvd_of_mul_right_dvd (dvd_levels hi)) hg
  have hpartner : ∀ i < levels n, partner (groupOf (singles n) r) (2 ^ (levels n - 1 - i)) <
      2 ^ levels n := fun i hi => partner_lt (hd i) (dvd_levels hi) hg
  unfold construct
  by_cases hpow : 2 ^ levels n = n
  · have hall : singles n = 2 ^ levels n := by omega
    have hgr : groupOf (singles n) r = r := if_pos (by omega)
    have htype : typeOf (singles n) r = .normal := if_pos (by omega)
    rw [if_pos hpow]
    rw [hgr] at hpartner hg
    refine ⟨rfl, htype.symm, by simp [htype], by simp [htype], ?_, ?_, ?_⟩
    · intro _ i hi
      rw [hgr, groupStart_of_le (hall ▸ (hpartner i hi).le)]
    · rintro - i hi d rfl g rfl
      have hle := hwin i hi _ hg
      rw [hgr, groupStart_of_le (hall ▸ (Nat.le_add_right ..).trans hle),
        groupStart_of_le (hall ▸ hle)]
      exact ⟨rfl, by simp⟩
    · rintro - i hi d rfl g rfl
      have hle := hwin i hi _ (hpartner i hi)
      rw [hgr, groupStart_of_le (hall ▸ (Nat.le_add_right ..).trans hle),
        groupStart_of_le (hall ▸ hle)]
      exact ⟨rfl, by simp⟩
  · rw [if_neg hpow]
    have htype : ∀ j < n, nodeType n (n - 2 ^ levels n) j = typeOf (singles n) j := fun j hj =>
      nodeType_eq (by have := (levels_spec hn).1; omega) hj
    have hgroups := grouped_groups htype
    have hcnt : (groups n (nodeType n (n - 2 ^ levels n))).groupCnt = 2 ^ levels n := by
      rw [hgroups.groupCnt]
      unfold groupCount
      split <;> omega
    have hlen : ∀ g < 2 ^ levels n,
        (groups n (nodeType n (n - 2 ^ levels n))).groupBlockLen g = groupLen (singles n) g := by
      intro g hg
      rw [hgroups.groupBlockLen]
      refine min_eq_right ?_
      unfold groupLen groupStart
      split <;> omega
    refine ⟨rfl, htype r hr, ?_, ?_, ?_, ?_, ?_⟩
    · intro h
      simp only [htype r hr, h]
    · intro h
      simp only [htype r hr, h]
    · intro _ i hi
      dsimp only
      rw [hgroups.nodeToGroup r hr, hgroups.groupToNode _ ((hpartner i hi).trans_eq hcnt.symm)]
    · rintro - i hi d rfl g rfl
      dsimp only
      rw [hgroups.nodeToGroup r hr]
      have hle := hwin i hi _ hg
      exact ⟨groupBlockStart_eq hlen ((Nat.le_add_right ..).trans hle), sumFrom_eq hlen hle⟩
    · rintro - i hi d rfl g rfl
      dsimp only
      rw [hgroups.nodeToGroup r hr]
      have hle := hwin i hi _ (hpartner i hi)
      exact ⟨groupBlockStart_eq hlen ((Nat.le_add_right ..).trans hle), sumFrom_eq hlen hle⟩

/-- A group leader comes before the other machine of its group. -/
theorem next_of_leader (hr : r < n) (h : typeOf (singles n) r = .groupLeader) :
    r + 1 < n ∧ typeOf (singles n) (r + 1) = .other := by
  obtain ⟨-, hle, hadd⟩ := singles_spec (r.zero_le.trans_lt hr)
  unfold typeOf at h ⊢
  split at h
  · cases h
  · split at h
    · rw [if_neg (by omega), if_neg (by omega)]
      exact ⟨by omega, rfl⟩
    · cases h

theorem prev_of_other (h : typeOf m r = .other) : 0 < r ∧ typeOf m (r - 1) = .groupLeader := by
  unfold typeOf at h ⊢
  split at h
  · cases h
  · split at h
    · cases h
    · rw [if_neg (by omega), if_pos (by omega)]
      exact ⟨by omega, rfl⟩

theorem eq_of_groupOf_eq {r' : ℕ} (h : typeOf m r = .normal) : groupOf m r' = groupOf m r ↔ r' = r := by
  unfold typeOf at h
  unfold groupOf
  split at h
  · rename_i hr
    rw [if_pos hr]
    split <;> omega
  · split at h <;> cases h

theorem groupOf_eq_leader {r' : ℕ} (h : typeOf m r = .groupLeader) :
    groupOf m r' = groupOf m r ↔ r' = r + 1 ∨ r' = r := by
  unfold typeOf at h
  unfold groupOf
  split at h
  · cases h
  · split at h
    · rename_i hr _
      rw [if_neg hr]
      split <;> omega
    · cases h

/-- The test of `ReduceScatter` agrees with the map on whether machines are grouped. -/
theorem singles_of_and_eq_zero (hn : 0 < n) (h : n &&& (n - 1) = 0) : singles n = n := by
  obtain ⟨j, rfl⟩ := (Nat.and_sub_one_eq_zero_iff_isPowerOfTwo hn.ne').mp h
  obtain ⟨hle, hlt⟩ := levels_spec hn
  have h1 := (Nat.pow_le_pow_iff_right Nat.one_lt_two).mp hle
  have h2 := (Nat.pow_lt_pow_iff_right Nat.one_lt_two).mp hlt
  rw [singles, show levels (2 ^ j) = j by omega, pow_succ]
  omega

end Hpps.Net.RecursiveHalvingMap

import Mathlib

/-! `calc_auc` of the Python binding, in exact arithmetic. -/
namespace Hpps.Eval

/-- `[neg, pos, score]`. -/
structure Record where
  neg : ℚ
  pos : ℚ
  score : ℚ
  deriving DecidableEq

/-- The running sums; those with a 1 are of the records before. -/
structure Sums where
  auc : ℚ
  fp1 : ℚ
  tp1 : ℚ
  fp2 : ℚ
  tp2 : ℚ

variable {raw arr : List Record} {s : Sums} {r : Record}

def addRecord (s : Sums) (record : Record) : Sums :=
  let fp2 := s.fp2 + record.neg
  let tp2 := s.tp2 + record.pos
  ⟨s.auc + (fp2 - s.fp1) * (tp2 - s.tp1), fp2, tp2, fp2, tp2⟩

def sums (arr : List Record) : Sums := arr.foldl addRecord ⟨0, 0, 0, 0, 0⟩

/-- `sorted` is stable. -/
def sorted (raw : List Record) : List Record := raw.mergeSort fun a b => a.score ≤ b.score

def calcAuc (raw : List Record) : Option ℚ :=
  let arr := sorted raw
  let s := sums arr
  let threshold : ℚ := arr.length - 1 / 1000
  if s.tp2 > threshold ∨ s.fp2 > threshold then some (-1 / 2)
  else if s.tp2 * s.fp2 > 0 then some (1 - s.auc / (2 * s.tp2 * s.fp2))
  else none

/-! ### What it is for -/

def positives (raw : List Record) : List Record := raw.filter fun r => r.pos = 1

def negatives (raw : List Record) : List Record := raw.filter fun r => r.neg = 1

/-- The fraction of pairs of a positive and a negative sample in which the positive one has the higher score. -/
def auc (raw : List Record) : ℚ :=
  (((positives raw).product (negatives raw)).countP fun p => p.2.score < p.1.score) /
    ((positives raw).length * (negatives raw).length)

/-- Each record is one sample, positive or negative. -/
structure Samples (raw : List Record) : Prop where
  one : ∀ r ∈ raw, r.neg = 0 ∧ r.pos = 1 ∨ r.neg = 1 ∧ r.pos = 0
  positive : ∃ r ∈ raw, r.pos = 1
  negative : ∃ r ∈ raw, r.neg = 1

/-- Each positive sample has a higher score than each negative one. -/
def Separated (raw : List Record) : Prop :=
  ∀ p ∈ positives raw, ∀ n ∈ negatives raw, n.score < p.score

/-! ### The running sums -/

/-- Each step adds the product of the two counts of its own record. -/
theorem foldl_addRecord (hfp : s.fp1 = s.fp2) (htp : s.tp1 = s.tp2) :
    (arr.foldl addRecord s).auc = s.auc + (arr.map fun r => r.neg * r.pos).sum ∧
      (arr.foldl addRecord s).fp2 = s.fp2 + (arr.map Record.neg).sum ∧
      (arr.foldl addRecord s).tp2 = s.tp2 + (arr.map Record.pos).sum := by
  induction arr generalizing s with
  | nil => simp
  | cons r arr ih =>
    obtain ⟨hauc, hfp2, htp2⟩ := ih (s := addRecord s r) rfl rfl
    rw [List.foldl_cons, hauc, hfp2, htp2]
    simp only [addRecord, List.map_cons, List.sum_cons, hfp, htp]
    refine ⟨by ring, by ring, by ring⟩

/-- One of the two counts is 0 in each record, so that nothing is ever added to the area. -/
theorem sums_auc (h : ∀ r ∈ arr, r.neg = 0 ∧ r.pos = 1 ∨ r.neg = 1 ∧ r.pos = 0) : (sums arr).auc = 0 := by
  rw [sums, (foldl_addRecord rfl rfl).1, zero_add]
  apply List.sum_eq_zero
  intro x hx
  obtain ⟨r, hr, rfl⟩ := List.mem_map.mp hx
  rcases h r hr with ⟨hn, -⟩ | ⟨-, hp⟩
  · rw [hn, zero_mul]
  · rw [hp, mul_zero]

theorem sums_counts (h : ∀ r ∈ arr, r.neg = 0 ∧ r.pos = 1 ∨ r.neg = 1 ∧ r.pos = 0) :
    (sums arr).tp2 = (positives arr).length ∧ (sums arr).fp2 = (negatives arr).length := by
  obtain ⟨-, hfp, htp⟩ := @foldl_addRecord arr ⟨0, 0, 0, 0, 0⟩ rfl rfl
  rw [sums, hfp, htp, zero_add, zero_add]
  clear hfp htp
  induction arr with
  | nil => simp [positives, negatives]
  | cons r arr ih =>
    rw [List.forall_mem_cons] at h
    obtain ⟨hpos, hneg⟩ := ih h.2
    rw [List.map_cons, List.map_cons, List.sum_cons, List.sum_cons, hpos, hneg]
    rcases h.1 with ⟨hn, hp⟩ | ⟨hn, hp⟩
    · simp [positives, negatives, hn, hp, add_comm]
    · simp [positives, negatives, hn, hp, add_comm]

theorem length_classes (h : ∀ r ∈ arr, r.neg = 0 ∧ r.pos = 1 ∨ r.neg = 1 ∧ r.pos = 0) :
    (positives arr).length + (negatives arr).length = arr.length := by
  induction arr with
  | nil => rfl
  | cons r arr ih =>
    rw [List.forall_mem_cons] at h
    have := ih h.2
    simp only [positives, negatives] at this ⊢
    rcases h.1 with ⟨hn, hp⟩ | ⟨hn, hp⟩
    · simp [hn, hp]
      omega
    · simp [hn, hp]
      omega

/-! ### The result -/

theorem sorted_perm : (sorted raw).Perm raw := List.mergeSort_perm ..

/-- Whatever the scores are, the result is 1. -/
theorem calcAuc_eq_one (h : Samples raw) : calcAuc raw = some 1 := by
  have hone : ∀ r ∈ sorted raw, r.neg = 0 ∧ r.pos = 1 ∨ r.neg = 1 ∧ r.pos = 0 :=
    fun r hr => h.one r (sorted_perm.mem_iff.mp hr)
  obtain ⟨htp, hfp⟩ := sums_counts hone
  have hlen := length_classes hone
  have hpos : 0 < (positives (sorted raw)).length := by
    obtain ⟨r, hr, hp⟩ := h.positive
    exact List.length_pos_of_mem (List.mem_filter.mpr ⟨sorted_perm.mem_iff.mpr hr, by simpa using hp⟩)
  have hneg : 0 < (negatives (sorted raw)).length := by
    obtain ⟨r, hr, hn⟩ := h.negative
    exact List.length_pos_of_mem (List.mem_filter.mpr ⟨sorted_perm.mem_iff.mpr hr, by simpa using hn⟩)
  have hlen : ((positives (sorted raw)).length : ℚ) + (negatives (sorted raw)).length = (sorted raw).length := by
    exact_mod_cast hlen
  have hpos' : (1 : ℚ) ≤ (positives (sorted raw)).length := by exact_mod_cast hpos
  have hneg' : (1 : ℚ) ≤ (negatives (sorted raw)).length := by exact_mod_cast hneg
  unfold calcAuc
  dsimp only
  rw [htp, hfp, sums_auc hone, if_neg (by push Not; constructor <;> linarith), if_pos (by positivity), zero_div, sub_zero]

/-- The fraction is 1 if all pairs are in order. -/
theorem auc_eq_one_iff (h : Samples raw) : auc raw = 1 ↔ Separated raw := by
  have hpos : (positives raw).length ≠ 0 := by
    obtain ⟨r, hr, hp⟩ := h.positive
    exact (List.length_pos_of_mem (List.mem_filter.mpr ⟨hr, by simpa using hp⟩)).ne'
  have hneg : (negatives raw).length ≠ 0 := by
    obtain ⟨r, hr, hn⟩ := h.negative
    exact (List.length_pos_of_mem (List.mem_filter.mpr ⟨hr, by simpa using hn⟩)).ne'
  have hpairs : ((positives raw).product (negatives raw)).length = (positives raw).length * (negatives raw).length :=
    List.length_product ..
  have hne : ((positives raw).length * (negatives raw).length : ℚ) ≠ 0 := by
    exact_mod_cast mul_ne_zero hpos hneg
  rw [auc, div_eq_one_iff_eq hne, ← Nat.cast_mul, Nat.cast_inj, ← hpairs, List.countP_eq_length]
  constructor
  · intro hall p hp n hn
    simpa using hall (p, n) (List.mem_product.mpr ⟨hp, hn⟩)
  · rintro hall ⟨p, n⟩ hmem
    obtain ⟨hp, hn⟩ := List.mem_product.mp hmem
    simpa using hall p hp n hn

/-- `calc_auc` computes the AUC of samples whose scores separate the two classes, and of no others. -/
theorem computes_auc_iff (h : Samples raw) : calcAuc raw = some (auc raw) ↔ Separated raw := by
  rw [calcAuc_eq_one h, Option.some_inj, eq_comm, auc_eq_one_iff h]

/-- A positive sample above a negative one. -/
theorem computes_auc_iff_two : ∃ raw : List Record, raw = [⟨0, 1, 2⟩, ⟨1, 0, 1⟩] ∧ calcAuc raw = some (auc raw) := by
  refine ⟨_, rfl, (computes_auc_iff ?_).mpr ?_⟩
  · exact ⟨by simp, ⟨⟨0, 1, 2⟩, by simp⟩, ⟨⟨1, 0, 1⟩, by simp⟩⟩
  · intro p hp n hn
    simp only [positives, negatives, List.mem_filter, List.mem_cons, List.not_mem_nil, or_false, decide_eq_true_eq] at hp hn
    obtain ⟨rfl | rfl, hp⟩ := hp
    · obtain ⟨rfl | rfl, hn⟩ := hn
      · exact absurd hn (by norm_num)
      · norm_num
    · exact absurd hp (by norm_num)

/-- The only positive sample has the lower score, and the result is 1. -/
theorem calcAuc_inverted : ¬ ∀ raw, Samples raw → (raw.map Record.score).Nodup → calcAuc raw = some (auc raw) := by
  intro h
  have hsamples : Samples [⟨0, 1, 1⟩, ⟨1, 0, 2⟩] :=
    ⟨by simp, ⟨⟨0, 1, 1⟩, by simp⟩, ⟨⟨1, 0, 2⟩, by simp⟩⟩
  have heq := h _ hsamples (by simp)
  rw [calcAuc_eq_one hsamples, Option.some_inj, eq_comm, auc_eq_one_iff hsamples] at heq
  have hlt := heq ⟨0, 1, 1⟩ (by simp [positives]) ⟨1, 0, 2⟩ (by simp [negatives])
  norm_num at hlt

end Hpps.Eval

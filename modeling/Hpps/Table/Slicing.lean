import Hpps.Table.ArrayTable

/-! Worker and servers cut an array table on their own: when the slices are the same. -/
namespace Hpps.Table
open Blocks

variable {size n : ℕ}

/-- The worker's offsets run from 0 to the size, its slices are as long as the servers' arrays, and no
reply and no Add fails a CHECK of its length. -/
structure Agrees (size n : ℕ) (w : ArrayWorker) : Prop where
  first : w.serverOffsets[0]? = some 0
  last : w.serverOffsets[n]? = some size
  share : ∀ (i : ℕ) {T : Type} (solver : Solver) (gen : ℕ → T), i < n →
    ∃ a b, w.serverOffsets[i]? = some a ∧ w.serverOffsets[i + 1]? = some b ∧ a ≤ b ∧
      b - a = (ArrayServer.new size n i solver gen).size
  replies : ∀ (i : ℕ) {T : Type} (data values : List T), i < n → data.length = size →
    values.length = Table.share size n i → ∃ r, w.ProcessReplyGet data [.key i, .values values] = .ok r
  adds : ∀ {T : Type} [Ring T] (order : List ℕ) (data : List T) (option : List (Blob T)), (∀ i ∈ order, i < n) →
    data.length = size → option.length ≤ 1 →
    ∃ out, w.Partition order (.key (-1) :: .values data :: option) = .ok (n, out) ∧
      ∀ it ∈ out, ∀ rate (s : ArrayServer T), s.size = Table.share size n it.1 →
        ∃ s', s.processAdd rate it.2 = .ok s'

theorem new_one (hlt : 1 < size) : ArrayWorker.new size 1 = .ok (workerOf size 1) := by
  have hlast : offset (share size 1) 1 = size := offset_share_last Nat.one_pos
  unfold ArrayWorker.new
  rw [if_pos hlt, if_neg one_ne_zero]
  simp [workerOf, List.range_succ, hlast]

theorem agrees_workerOf (hn : 0 < n) (h64 : size < 2 ^ 64) : Agrees size n (workerOf size n) := by
  have hget : ∀ j, j ≤ n → (workerOf size n).serverOffsets[j]? = some (offset (share size n) j) := by
    intro j hj
    simp [workerOf, Nat.lt_succ_of_le hj]
  refine ⟨hget 0 (Nat.zero_le n), (hget n le_rfl).trans (by rw [offset_share_last hn]), ?_, ?_, ?_⟩
  · intro i T solver gen hi
    refine ⟨_, _, hget i hi.le, hget (i + 1) hi, offset_mono (Nat.le_succ i), ?_⟩
    rw [offset_succ, Nat.add_sub_cancel_left, ArrayServer.new]
  · intro i T data values hi hdata hvalues
    exact ⟨_, processReplyGet_eq hn h64 hi hdata hvalues⟩
  · intro T _ order data option horder hdata hoption
    refine ⟨_, partition_add hn h64 horder hdata hoption, ?_⟩
    intro it hit rate s hs
    obtain ⟨i, hi, rfl⟩ := List.mem_map.mp hit
    have hlen : (slice (share size n) data i).length = s.size :=
      (length_slice (hdata.trans (offset_share_last hn).symm) (horder i hi)).trans hs.symm
    exact ⟨_, if_pos ⟨rfl, hlen⟩⟩

/-! ### Sizes that a 32-bit number does not hold -/

theorem toInteger_eq_bmod : toInteger size = Int.bmod size (2 ^ 32) := Int32.toInt_ofNat

/-- The second offset is the first server's share only if the cast to 32 bits keeps the size. -/
theorem lt_of_offset_eq (hn : 2 ≤ n) (hn31 : n < 2 ^ 31) (hlt : n < size) (h64 : size < 2 ^ 64)
    (h : toSize ((toInteger size).tdiv n) = size / n) : size < 2 ^ 31 := by
  have hpos : 0 < size / n := Nat.div_pos hlt.le (by omega)
  rw [toInteger_eq_bmod, Int.bmod_def] at h
  split at h
  · -- the lower half is not negative: dropping the upper half makes the quotient smaller
    rename_i hlow
    by_contra hge
    have hcast : ((size : ℤ) % ((2 ^ 32 : ℕ) : ℤ)).tdiv n = ((size % 2 ^ 32 / n : ℕ) : ℤ) := rfl
    rw [hcast, toSize_eq ((Nat.div_le_self _ _).trans_lt (by omega))] at h
    have hstep : size % 2 ^ 32 / n + 1 ≤ size / n := by
      rw [← Nat.add_div_right _ (by omega : 0 < n)]
      exact Nat.div_le_div_right (by omega)
    omega
  · -- the lower half is negative: so is the offset, or it is 0
    rename_i hlow
    exfalso
    obtain ⟨k, hk⟩ : ∃ k : ℕ, (size : ℤ) % ((2 ^ 32 : ℕ) : ℤ) - ((2 ^ 32 : ℕ) : ℤ) = -(k : ℤ) :=
      ⟨2 ^ 32 - size % 2 ^ 32, by omega⟩
    have hq : k / n ≤ k := Nat.div_le_self k n
    have hhalf : size / n ≤ size / 2 := Nat.div_le_div_left hn (by norm_num)
    have hdiv : (k : ℤ).tdiv n = ((k / n : ℕ) : ℤ) := rfl
    rw [hk, Int.neg_tdiv, hdiv, toSize] at h
    generalize k / n = q at *
    generalize size / n = r at *
    omega

/-- The slices agree with one server, or when the size fits into 32 bits; and else they do not. -/
theorem slicing_agrees_iff (hn : 0 < n) (hn31 : n < 2 ^ 31) (hlt : n < size) (h64 : size < 2 ^ 64) :
    (∃ w, ArrayWorker.new size n = .ok w ∧ Agrees size n w) ↔ n = 1 ∨ size < 2 ^ 31 := by
  constructor
  · rintro ⟨w, hw, hagrees⟩
    by_contra hno
    have hone : n ≠ 1 := fun h => hno (.inl h)
    unfold ArrayWorker.new at hw
    rw [if_pos hlt, if_neg hn.ne'] at hw
    cases hw
    obtain ⟨a, b, ha, hb, -, hshare⟩ := hagrees.share 0 .default (fun _ => ()) hn
    rw [hagrees.first] at ha
    cases ha
    obtain ⟨m, rfl⟩ : ∃ m, n = m + 2 := ⟨n - 2, by omega⟩
    have hoffset : b = toSize ((toInteger size).tdiv ((m + 2 : ℕ) : ℤ)) := by
      simpa [List.range'_succ, eq_comm] using hb
    have hself : (ArrayServer.new size (m + 2) 0 .default fun _ => ()).size = size / (m + 2) := by
      simp [ArrayServer.new, share]
    rw [Nat.sub_zero, hself, hoffset] at hshare
    exact hno (.inr (lt_of_offset_eq (by omega) hn31 hlt h64 hshare))
  · rintro (rfl | h31)
    · exact ⟨_, new_one hlt, agrees_workerOf hn h64⟩
    · exact ⟨_, new_eq hn hlt h31, agrees_workerOf hn h64⟩

theorem slicing_agrees_iff_three : ∃ w, ArrayWorker.new 10 3 = .ok w ∧ Agrees 10 3 w :=
  (slicing_agrees_iff (by norm_num) (by norm_num) (by norm_num) (by norm_num)).mpr (.inr (by norm_num))

/-- From `2 ^ 31` elements on the cast is negative, and so is the offset of the second server. -/
theorem slicing_disagrees : ArrayWorker.new (2 ^ 31) 2 = .ok ⟨2 ^ 31, 2, [0, 2 ^ 64 - 2 ^ 30, 2 ^ 31]⟩ ∧
    ¬ ∃ w, ArrayWorker.new (2 ^ 31) 2 = .ok w ∧ Agrees (2 ^ 31) 2 w := by
  have hnew : ArrayWorker.new (2 ^ 31) 2 = .ok ⟨2 ^ 31, 2, [0, 2 ^ 64 - 2 ^ 30, 2 ^ 31]⟩ := by decide
  refine ⟨hnew, ?_⟩
  rintro ⟨w, hw, hagrees⟩
  cases hnew.symm.trans hw
  obtain ⟨a, b, ha, hb, hle, -⟩ := hagrees.share 1 .default (fun _ => ()) (by norm_num)
  cases ha
  cases hb
  norm_num at hle

end Hpps.Table

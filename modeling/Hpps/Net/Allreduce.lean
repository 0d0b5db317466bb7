import Hpps.Net.ReduceScatter

/-! Allreduce: on either path every rank ends with the reduction of all inputs. -/
namespace Hpps.Net

open Blocks Network Reduction TransitionSystem

variable {α : Type} {n inputSize stepSize i : ℕ} {R : Reducer α} {input : ℕ → List α}

/-! ### The blocks -/

theorem equalStart_eq : equalStart inputSize i = i * inputSize := by
  induction i with
  | zero => exact (Nat.zero_mul _).symm
  | succ i ih => rw [equalStart, ih, Nat.succ_mul]

theorem equal_layout : Layout n (equalStart inputSize) (fun _ => inputSize) (inputSize * n) where
  start i _ := by simp [equalStart_eq, offset]
  all := by simp [offset, Nat.mul_comm]

theorem evenStart_le : evenStart stepSize inputSize i ≤ inputSize := by
  induction i with
  | zero => exact Nat.zero_le _
  | succ i ih =>
    rw [evenStart]
    omega

theorem evenStart_eq (hi : i < n) :
    evenStart stepSize inputSize i = offset (evenLen stepSize inputSize n) i := by
  induction i with
  | zero => rfl
  | succ i ih => rw [evenStart, offset_succ, ← ih (by omega), evenLen, if_pos (by omega)]

theorem even_layout (hn : 0 < n) :
    Layout n (evenStart stepSize inputSize) (evenLen stepSize inputSize n) inputSize where
  start i hi := evenStart_eq hi
  all := by
    obtain ⟨m, rfl⟩ := Nat.exists_eq_add_of_lt hn
    rw [Nat.zero_add, offset_succ, ← evenStart_eq (Nat.lt_succ_self m), evenLen, if_neg (by omega)]
    exact (Nat.add_sub_cancel' evenStart_le).symm

section Aligned

variable {w : ℕ} (hstep : w ∣ stepSize) (hsize : w ∣ inputSize)
include hstep hsize

theorem dvd_min_sub {a : ℕ} (ha : w ∣ a) : w ∣ min stepSize (inputSize - a) := by
  rcases min_choice stepSize (inputSize - a) with h | h
  · rwa [h]
  · rw [h]
    exact Nat.dvd_sub hsize ha

theorem dvd_evenStart : w ∣ evenStart stepSize inputSize i := by
  induction i with
  | zero => exact dvd_zero w
  | succ i ih => exact dvd_add ih (dvd_min_sub hstep hsize ih)

/-- Each block consists of whole elements. -/
theorem dvd_evenLen : w ∣ evenLen stepSize inputSize n i := by
  have hstart {j : ℕ} : w ∣ evenStart stepSize inputSize j := dvd_evenStart hstep hsize
  rw [evenLen]
  split
  · exact dvd_min_sub hstep hsize hstart
  · exact Nat.dvd_sub hsize hstart

end Aligned

/-! ### Reducing the gathered inputs -/

section Reduce

variable (hw : R.width ∣ inputSize) (hin : ∀ r < n, (input r).length = inputSize)
include hw hin

/-- One input more is taken in; the gathered ones stay as they are. -/
theorem reduceBlock_spec {m : ℕ} (hm : m + 1 < n) (rest : List α) :
    reduceBlock inputSize R.reduce
      (R.total input m ++ (concat (fun j => input (1 + j)) (n - 1) ++ rest)) (1 + m) =
      .ok (R.total input (m + 1) ++ (concat (fun j => input (1 + j)) (n - 1) ++ rest)) := by
  have hlen : ∀ j < m, (input (1 + j)).length = inputSize := fun j hj => hin _ (by omega)
  have htotal : ∀ k < n, (R.total input k).length = inputSize := fun k hk =>
    R.length_total (fun r hr => hin r (by omega)) hw
  have hsplit : concat (fun j => input (1 + j)) (n - 1) = concat (fun j => input (1 + j)) m ++
      (input (1 + m) ++ concat (fun j => input (1 + (m + 1 + j))) (n - 1 - (m + 1))) := by
    have hone : concat (fun j => input (1 + j)) (m + 1) = concat (fun j => input (1 + j)) m ++ input (1 + m) := by
      rw [concat, List.range_succ, List.flatMap_append, ← concat]
      simp
    rw [concat_split (show m + 1 ≤ n - 1 by omega), hone, List.append_assoc]
  have hsrc : fetch (R.total input m ++ (concat (fun j => input (1 + j)) (n - 1) ++ rest))
      (equalStart inputSize (1 + m)) inputSize = .ok (input (1 + m)) := by
    rw [hsplit, List.append_assoc, List.append_assoc, ← List.append_assoc, ← List.append_assoc]
    refine fetch_append ?_ (hin _ (by omega))
    have : (concat (fun j => input (1 + j)) m).length = offset (fun _ => inputSize) m := length_concat hlen
    rw [List.length_append, htotal m (by omega), this, equalStart_eq]
    simp [offset, Nat.add_mul]
  have hdst : fetch (R.total input m ++ (concat (fun j => input (1 + j)) (n - 1) ++ rest))
      (equalStart inputSize 0) inputSize = .ok (R.total input m) :=
    fetch_append (l := []) rfl (htotal m (by omega))
  have hnext : R.reduce (input (1 + m)) (R.total input m) = R.total input (m + 1) := by
    rw [Nat.add_comm 1 m]
    rfl
  have hcopy := @memcpy_append α [] (R.total input m ++
    (concat (fun j => input (1 + j)) (n - 1) ++ rest)) (R.total input (m + 1)) 0 rfl
    (by rw [htotal _ hm, List.length_append, htotal m (by omega)]; omega)
  rw [List.nil_append, List.nil_append, htotal _ hm, List.drop_left' (htotal m (by omega))] at hcopy
  simp only [reduceBlock, hsrc, hdst, ok_bind, hnext]
  exact hcopy

theorem reduceBlocks_spec (hn : 0 < n) (rest : List α) :
    reduceBlocks n inputSize R.reduce (concat input n ++ rest) =
      .ok (R.total input (n - 1) ++ (concat (fun j => input (1 + j)) (n - 1) ++ rest)) := by
  have hfirst : concat input n = input 0 ++ concat (fun j => input (1 + j)) (n - 1) := by
    rw [concat_split (show 1 ≤ n from hn)]
    simp [concat]
  have hfold : ∀ m < n, (List.range' 1 m).foldlM (reduceBlock inputSize R.reduce)
      (concat input n ++ rest) =
        .ok (R.total input m ++ (concat (fun j => input (1 + j)) (n - 1) ++ rest)) := by
    intro m hm
    induction m with
    | zero =>
      rw [hfirst, List.append_assoc]
      rfl
    | succ m ih =>
      rw [List.range'_1_concat, List.foldlM_append, ih (by omega), ok_bind, List.foldlM_cons,
        reduceBlock_spec hw hin hm]
      rfl
  exact hfold (n - 1) (by omega)

end Reduce

/-! ### The two paths -/

/-- All ranks together run to the end, each with the reduction of all inputs in its output. -/
def Reduces (R : Reducer α) (input : ℕ → List α) (inputSize : ℕ)
    (program : Fin n → Program n α (ReduceState α)) : Prop :=
  ∃ st : Fin n → ReduceState α, Completes program st ∧
    ∀ r, (st r).output.take inputSize = R.total input (n - 1)

section Paths

variable {output buffer : Fin n → List α} {fresh : ℕ → α} (hn : 0 < n) (hw : R.width ∣ inputSize)
  (hin : ∀ r < n, (input r).length = inputSize) (hout : ∀ r, inputSize ≤ (output r).length)
include hn hw hin hout

theorem reduces_byAllGather : Reduces R input inputSize fun r : Fin n =>
    allreduceByAllGather r inputSize R.reduce fresh ⟨⟨input r, output r⟩, buffer r⟩ := by
  have htotal : (R.total input (n - 1)).length = inputSize :=
    R.length_total (fun r hr => hin r (by omega)) hw
  let own (r : Fin n) : List α :=
    if (buffer r).length < inputSize * n then (List.range (inputSize * n)).map fresh else buffer r
  have hown : ∀ r, inputSize * n ≤ (own r).length := by
    intro r
    by_cases h : (buffer r).length < inputSize * n
    · simp [own, h]
    · rw [show own r = buffer r from if_neg h]
      omega
  have hgathered : concat (contribution (fun r : Fin n => input r) fun _ => inputSize) n = concat input n := by
    refine List.flatMap_congr fun j hj => ?_
    have hj' := List.mem_range.mp hj
    rw [contribution, dif_pos hj', ← hin j hj', List.take_length]
  let last (r : Fin n) := R.total input (n - 1) ++
    (concat (fun j => input (1 + j)) (n - 1) ++ (own r).drop (inputSize * n))
  refine ⟨fun r => ⟨⟨input r, R.total input (n - 1) ++ (output r).drop inputSize⟩, last r⟩,
    completes_of_reachable fun T => ?_, fun r => List.take_left' htotal⟩
  have hgather := reachable_allgather (T := T) equal_layout
    (fun r => (hin r r.isLt).ge) hown fun r buffer => (do
      let buffer ← reduceBlocks n inputSize R.reduce buffer
      let data ← fetch buffer 0 inputSize
      let output ← memcpy (output r) 0 data
      return ⟨⟨input r, output⟩, buffer⟩ : Program n α (ReduceState α))
  have hlocal (r : Fin n) : (do
      let buffer ← reduceBlocks n inputSize R.reduce (concat input n ++ (own r).drop (inputSize * n))
      let data ← fetch buffer 0 inputSize
      let output ← memcpy (output r) 0 data
      return ⟨⟨input r, output⟩, buffer⟩ : Program n α (ReduceState α)) =
        .ret ⟨⟨input r, R.total input (n - 1) ++ (output r).drop inputSize⟩, last r⟩ := by
    have hfetch : fetch (last r) 0 inputSize = .ok (R.total input (n - 1)) := fetch_append (l := []) rfl htotal
    have hcopy := @memcpy_append α [] (output r) (R.total input (n - 1)) 0 rfl
      (htotal.trans_le (hout r))
    rw [List.nil_append, List.nil_append, htotal] at hcopy
    rw [reduceBlocks_spec hw hin hn]
    simp only [lift_ok, Proc.ret_bind, hfetch, hcopy, last]
    rfl
  rw [hgathered, funext hlocal] at hgather
  exact hgather

theorem reduces_byBlocks : Reduces R input inputSize fun r : Fin n =>
    allreduceByBlocks r inputSize R.width R.reduce ⟨⟨input r, output r⟩, buffer r⟩ := by
  set stepSize := max ((inputSize / R.width + n - 1) / n) 1 * R.width with hstep
  have ht : Task n R input output inputSize (evenStart stepSize inputSize) (evenLen stepSize inputSize n) :=
    ⟨even_layout hn, fun j _ => dvd_evenLen (Nat.dvd_mul_left _ _) hw, hin, hout⟩
  have htotal : (R.total input (n - 1)).length = inputSize :=
    R.length_total (fun r hr => hin r (by omega)) hw
  obtain ⟨st, hst, hreach⟩ := reachable_reduceScatter (β := ReduceState α) ht
  have hgathered : concat (contribution (fun r => (st r).output) (evenLen stepSize inputSize n)) n =
      R.total input (n - 1) := by
    rw [← concat_slice (htotal.trans ht.layout.all)]
    refine List.flatMap_congr fun j hj => ?_
    rw [contribution, dif_pos (List.mem_range.mp hj)]
    exact (hst ⟨j, List.mem_range.mp hj⟩).2
  have hblock : ∀ r : Fin n, evenLen stepSize inputSize n r ≤ (st r).output.length := by
    intro r
    have hlen := length_slice (htotal.trans ht.layout.all) r.isLt
    rw [← (hst r).2, List.length_take] at hlen
    omega
  refine ⟨fun r => ⟨⟨(st r).input, R.total input (n - 1) ++ (st r).output.drop inputSize⟩, buffer r⟩,
    completes_of_reachable fun T => ?_, fun r => List.take_left' htotal⟩
  have hscatter := hreach T fun r scattered => (do
    let output ← allgather r scattered.output inputSize (evenStart stepSize inputSize)
      (evenLen stepSize inputSize n) scattered.output
    return ⟨⟨scattered.input, output⟩, buffer r⟩ : Program n α (ReduceState α))
  have hgather := reachable_allgather (T := T) (even_layout hn) hblock (fun r => (hst r).1)
    fun r output => (pure ⟨⟨(st r).input, output⟩, buffer r⟩ : Program n α (ReduceState α))
  rw [hgathered] at hgather
  exact hscatter.trans hgather

/-- Whatever the transport and the order of the steps, every rank ends with the reduction of all inputs. Both
paths do this on every input, so it does not matter which one is taken. -/
theorem allreduce_total :
    (Reduces R input inputSize fun r : Fin n =>
      allreduce r inputSize R.width R.reduce fresh ⟨⟨input r, output r⟩, buffer r⟩) ∧
    (Reduces R input inputSize fun r : Fin n =>
      allreduceByAllGather r inputSize R.reduce fresh ⟨⟨input r, output r⟩, buffer r⟩) ∧
    Reduces R input inputSize fun r : Fin n =>
      allreduceByBlocks r inputSize R.width R.reduce ⟨⟨input r, output r⟩, buffer r⟩ := by
  have hgather : Reduces R input inputSize fun r : Fin n =>
      allreduceByAllGather r inputSize R.reduce fresh ⟨⟨input r, output r⟩, buffer r⟩ :=
    reduces_byAllGather hn hw hin hout
  have hblocks : Reduces R input inputSize fun r : Fin n =>
      allreduceByBlocks r inputSize R.width R.reduce ⟨⟨input r, output r⟩, buffer r⟩ :=
    reduces_byBlocks hn hw hin hout
  refine ⟨?_, hgather, hblocks⟩
  by_cases hsmall : inputSize / R.width < n ∨ inputSize < 4096
  · simpa only [allreduce, if_pos hsmall] using hgather
  · simpa only [allreduce, if_neg hsmall] using hblocks

end Paths

/-- Three ranks and two numbers: the last block of the second path is empty. -/
theorem allreduce_total_three :
    let input : ℕ → List ℕ := fun r => [r, r + 1]
    let st : Fin 3 → ReduceState ℕ := fun r => ⟨⟨input r, [9, 9]⟩, []⟩
    (Reduces sumReducer input 2 fun r : Fin 3 => allreduce r 2 1 sumReducer.reduce id (st r)) ∧
    (Reduces sumReducer input 2 fun r : Fin 3 => allreduceByAllGather r 2 sumReducer.reduce id (st r)) ∧
    (Reduces sumReducer input 2 fun r : Fin 3 => allreduceByBlocks r 2 1 sumReducer.reduce (st r)) ∧
    sumReducer.total input 2 = [3, 6] := by
  intro input st
  have h := @allreduce_total ℕ 3 2 sumReducer input (fun _ => [9, 9]) (fun _ => []) id (by decide) (by decide)
    (fun _ _ => rfl) fun _ => le_rfl
  exact ⟨h.1, h.2.1, h.2.2, by decide +kernel⟩

end Hpps.Net

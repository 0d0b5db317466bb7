import Hpps.Lib.Blocks
import Hpps.Net.AllreduceEngine

/-! Allgather with the Bruck algorithm: every rank ends with all blocks in their order. -/
namespace Hpps.Net

open Blocks Network TransitionSystem

namespace BruckMap

variable {n k m i r : ℕ}

theorem count_spec (hk : ∀ i < k, 2 ^ i < n) (hm : n ≤ 2 ^ (k + m)) :
    (∀ i < count n m k, 2 ^ i < n) ∧ n ≤ 2 ^ count n m k := by
  induction m generalizing k with
  | zero => exact ⟨hk, hm⟩
  | succ m ih =>
    rw [count]
    split
    · rename_i hlt
      refine ih (fun i hi => ?_) (by rwa [Nat.add_right_comm])
      rcases Nat.lt_succ_iff_lt_or_eq.mp hi with hi | rfl
      · exact hk i hi
      · exact hlt
    · rename_i hge
      exact ⟨hk, not_lt.mp hge⟩

theorem pow_lt_of_lt_k (hi : i < (construct r n).k) : 2 ^ i < n :=
  (count_spec (k := 0) (m := n) (by simp) (by rw [Nat.zero_add]; exact Nat.lt_two_pow_self.le)).1 i hi

theorem le_pow_k : n ≤ 2 ^ (construct r n).k :=
  (count_spec (k := 0) (m := n) (by simp) (by rw [Nat.zero_add]; exact Nat.lt_two_pow_self.le)).2

end BruckMap

section Blocks

variable {α : Type} {n r a b : ℕ} {len : ℕ → ℕ} {block : ℕ → List α}

/-- `m` blocks from block `r` on, wrapping around. -/
def gathered (block : ℕ → List α) (n r m : ℕ) : List α :=
  (List.range m).flatMap fun j => block ((r + j) % n)

theorem gathered_add (block : ℕ → List α) (n r a b : ℕ) :
    gathered block n r (a + b) = gathered block n r a ++ gathered block n (r + a) b := by
  simp only [gathered, List.range_add, List.flatMap_append, List.flatMap_map, Nat.add_assoc]

theorem gathered_mod : gathered block n (r % n) a = gathered block n r a := by
  simp only [gathered, Nat.mod_add_mod]

theorem gathered_one (hr : r < n) : gathered block n r 1 = block r := by
  simp [gathered, Nat.mod_eq_of_lt hr]

theorem wrappedSize_succ :
    wrappedSize len n r (a + 1) = wrappedSize len n r a + len ((r + a) % n) := by
  rw [wrappedSize, List.range_succ, List.foldl_append]
  rfl

theorem length_gathered (hn : 0 < n) (hlen : ∀ j < n, (block j).length = len j) :
    (gathered block n r a).length = wrappedSize len n r a := by
  induction a with
  | zero => rfl
  | succ a ih =>
    rw [gathered_add, List.length_append, ih, wrappedSize_succ, gathered]
    simp [hlen _ (Nat.mod_lt _ hn)]

/-- All blocks from block `r` on are those up to the last one and then those before `r`. -/
theorem gathered_all (hr : r < n) : gathered block n r n =
    concat (fun j => block (r + j)) (n - r) ++ concat block r := by
  have hsplit : gathered block n r n = gathered block n r (n - r) ++ gathered block n n r := by
    have := gathered_add block n r (n - r) r
    rwa [Nat.sub_add_cancel hr.le, Nat.add_sub_cancel' hr.le] at this
  rw [hsplit]
  congr 1
  · refine List.flatMap_congr fun j hj => ?_
    rw [List.mem_range] at hj
    rw [Nat.mod_eq_of_lt (by omega)]
  · refine List.flatMap_congr fun j hj => ?_
    rw [List.mem_range] at hj
    rw [Nat.add_mod_left, Nat.mod_eq_of_lt (by omega)]

end Blocks

section Rounds

variable {α β : Type} {n : ℕ} {len : ℕ → ℕ} {block : ℕ → List α} {out : Fin n → List α}
  {T : Transport α}

theorem wrappedSize_mono {r a b : ℕ} (h : a ≤ b) : wrappedSize len n r a ≤ wrappedSize len n r b :=
  monotone_nat_of_le_succ (fun a => by rw [wrappedSize_succ]; omega) h

theorem wrappedSize_mod {r a : ℕ} : wrappedSize len n (r % n) a = wrappedSize len n r a := by
  simp only [wrappedSize, Nat.mod_add_mod]

/-- After `i` rounds rank `r` has gathered `2 ^ i` blocks, or all of them. -/
def gatherAt (len : ℕ → ℕ) (block : ℕ → List α) (n r i : ℕ) (out : List α) : GatherState α :=
  let m := min (2 ^ i) n
  ⟨gathered block n r m ++ out.drop (wrappedSize len n r m), wrappedSize len n r m, m⟩

/-- The rank that is `d` ranks further on, going around. -/
def ahead (d : ℕ) (r : Fin n) : Fin n := ⟨(r + d) % n, Nat.mod_lt _ r.pos⟩

def behind (d : ℕ) (r : Fin n) : Fin n := ⟨(r + n - d) % n, Nat.mod_lt _ r.pos⟩

theorem behind_ahead {d : ℕ} (hd : d < n) (r : Fin n) : behind d (ahead d r) = r := by
  have hr := r.isLt
  apply Fin.ext
  simp only [ahead, behind]
  by_cases h : r + d < n
  · rw [Nat.mod_eq_of_lt h, show (r : ℕ) + d + n - d = r + n by omega, Nat.add_mod_right,
      Nat.mod_eq_of_lt hr]
  · rw [Nat.mod_eq_sub_mod (not_lt.mp h), Nat.mod_eq_of_lt (by omega : (r : ℕ) + d - n < n),
      show (r : ℕ) + d - n + n - d = r by omega, Nat.mod_eq_of_lt hr]

theorem ahead_behind {d : ℕ} (hd : d < n) (r : Fin n) : ahead d (behind d r) = r := by
  have hr := r.isLt
  apply Fin.ext
  simp only [ahead, behind]
  by_cases h : d ≤ r
  · rw [show (r : ℕ) + n - d = r - d + n by omega, Nat.add_mod_right,
      Nat.mod_eq_of_lt (by omega : (r : ℕ) - d < n), Nat.sub_add_cancel h, Nat.mod_eq_of_lt hr]
  · rw [Nat.mod_eq_of_lt (by omega : (r : ℕ) + n - d < n), show (r : ℕ) + n - d + d = r + n by omega,
      Nat.add_mod_right, Nat.mod_eq_of_lt hr]

theorem gatherRound_bind (hlen : ∀ j < n, (block j).length = len j) {i : ℕ} (hi : 2 ^ i < n)
    (r : Fin n) (K : GatherState α → Program n α β) :
    gatherRound r len (gatherAt len block n r i (out r)) i >>= K =
      .send (behind (2 ^ i) r) (gathered block n r (min (2 ^ i) (n - 2 ^ i)))
        (.recv (ahead (2 ^ i) r) (wrappedSize len n (r + 2 ^ i) (min (2 ^ i) (n - 2 ^ i))) fun data =>
          liftM (memcpy (gatherAt len block n r i (out r)).output (wrappedSize len n r (2 ^ i)) data) >>=
            fun output => K ⟨output, wrappedSize len n r (2 ^ i) +
              wrappedSize len n (r + 2 ^ i) (min (2 ^ i) (n - 2 ^ i)), min (2 ^ (i + 1)) n⟩) := by
  have hacc : min (2 ^ i) n = 2 ^ i := min_eq_left hi.le
  have hnext : 2 ^ i + min (2 ^ i) (n - 2 ^ i) = min (2 ^ (i + 1)) n := by
    rw [pow_succ]
    omega
  have hsplit : gathered block n r (2 ^ i) = gathered block n r (min (2 ^ i) (n - 2 ^ i)) ++
      gathered block n (r + min (2 ^ i) (n - 2 ^ i)) (2 ^ i - min (2 ^ i) (n - 2 ^ i)) := by
    rw [← gathered_add, Nat.add_sub_cancel' (min_le_left ..)]
  have hfetch : fetch (gathered block n r (2 ^ i) ++ (out r).drop (wrappedSize len n r (2 ^ i))) 0
      (wrappedSize len n r (min (2 ^ i) (n - 2 ^ i))) =
        .ok (gathered block n r (min (2 ^ i) (n - 2 ^ i))) := by
    rw [hsplit, List.append_assoc, ← List.nil_append (gathered block n r _), List.append_assoc,
      ← List.append_assoc []]
    exact fetch_append rfl (length_gathered r.pos hlen)
  have hout : (r + n - 2 ^ i) % n < n := Nat.mod_lt _ r.pos
  have hin : (r + 2 ^ i) % n < n := Nat.mod_lt _ r.pos
  simp only [gatherRound, gatherAt, hacc, hfetch, lift_ok, Proc.ret_bind, bind_assoc,
    BruckMap.construct, sendRecv_bind hout hin, Proc.send_bind, Proc.recv_bind, hnext, Proc.pure_eq_ret]
  rfl

/-- What a rank receives in a round is put behind what it has. -/
theorem gatherRound_recv (hlen : ∀ j < n, (block j).length = len j) (r : Fin n)
    (hout : wrappedSize len n r n ≤ (out r).length) {i : ℕ} (hi : 2 ^ i < n)
    (K : GatherState α → Program n α β) :
    (liftM (memcpy (gatherAt len block n r i (out r)).output (wrappedSize len n r (2 ^ i))
        (gathered block n (r + 2 ^ i) (min (2 ^ i) (n - 2 ^ i)))) >>= fun output =>
      K ⟨output, wrappedSize len n r (2 ^ i) +
        wrappedSize len n (r + 2 ^ i) (min (2 ^ i) (n - 2 ^ i)), min (2 ^ (i + 1)) n⟩) =
      K (gatherAt len block n r (i + 1) (out r)) := by
  set cur := min (2 ^ i) (n - 2 ^ i) with hcur
  have hacc : min (2 ^ i) n = 2 ^ i := min_eq_left hi.le
  have hnext : 2 ^ i + cur = min (2 ^ (i + 1)) n := by
    rw [pow_succ]
    omega
  have hsize : wrappedSize len n r (2 ^ i + cur) =
      wrappedSize len n r (2 ^ i) + wrappedSize len n (r + 2 ^ i) cur := by
    rw [← length_gathered r.pos hlen, gathered_add, List.length_append,
      length_gathered r.pos hlen, length_gathered r.pos hlen]
  have hroom : wrappedSize len n (r + 2 ^ i) cur ≤
      ((out r).drop (wrappedSize len n r (2 ^ i))).length := by
    have := (wrappedSize_mono (by omega : 2 ^ i + cur ≤ n)).trans hout
    rw [List.length_drop]
    omega
  have hcopy : memcpy (gathered block n r (2 ^ i) ++ (out r).drop (wrappedSize len n r (2 ^ i)))
      (wrappedSize len n r (2 ^ i)) (gathered block n (r + 2 ^ i) cur) =
        .ok (gathered block n r (2 ^ i + cur) ++ (out r).drop (wrappedSize len n r (2 ^ i + cur))) := by
    rw [memcpy_append (length_gathered r.pos hlen) (by rwa [length_gathered r.pos hlen]),
      List.drop_drop, length_gathered r.pos hlen, ← gathered_add, ← hsize]
  simp only [gatherAt, hacc, hcopy, lift_ok, Proc.ret_bind, ← hnext, hsize]

/-- One round of all ranks at once. -/
theorem reachable_gatherRound (hlen : ∀ j < n, (block j).length = len j)
    (hout : ∀ r : Fin n, wrappedSize len n r n ≤ (out r).length) {i : ℕ} (hi : 2 ^ i < n)
    (K : Fin n → GatherState α → Program n α β) :
    Reachable step (quiet T fun r => gatherRound r len (gatherAt len block n r i (out r)) i >>= K r)
      (quiet T fun r => K r (gatherAt len block n r (i + 1) (out r))) := by
  refine exchange_on Finset.univ (fun r _ => gatherRound_bind hlen hi r (K r)) (fun r _ => ?_)
    (fun r _ => ⟨Finset.mem_univ _, behind_ahead hi r⟩)
    (fun r _ => ⟨Finset.mem_univ _, ahead_behind hi r⟩) (fun r _ => ?_)
    fun r hr => absurd (Finset.mem_univ r) hr
  · rw [length_gathered r.pos hlen, ahead, wrappedSize_mod]
  · simp only [ahead, gathered_mod]
    exact gatherRound_recv hlen r (hout r) hi (K r)

/-- The rounds from the `i`-th on. -/
theorem reachable_gatherRounds (hlen : ∀ j < n, (block j).length = len j)
    (hout : ∀ r : Fin n, wrappedSize len n r n ≤ (out r).length) {i m : ℕ}
    (hm : ∀ j < i + m, 2 ^ j < n) (K : Fin n → GatherState α → Program n α β) :
    Reachable step
      (quiet T fun r =>
        (List.range' i m).foldlM (gatherRound r len) (gatherAt len block n r i (out r)) >>= K r)
      (quiet T fun r => K r (gatherAt len block n r (i + m) (out r))) := by
  induction m generalizing i with
  | zero => exact .refl
  | succ m ih =>
    simp only [List.range'_succ, List.foldlM_cons, bind_assoc]
    refine (reachable_gatherRound hlen hout (hm i (by omega)) _).trans ?_
    rw [Nat.add_comm m 1, ← Nat.add_assoc]
    exact ih fun j hj => hm j (by omega)

end Rounds

section Allgather

variable {α β : Type} {n : ℕ} {input output : Fin n → List α} {allSize : ℕ}
  {blockStart blockLen : ℕ → ℕ} {T : Transport α}

theorem reverse_eq {l m r : List α} {a b : ℕ} (ha : l.length = a) (hb : a + m.length = b) :
    reverse (l ++ m ++ r) a b = .ok (l ++ m.reverse ++ r) := by
  subst ha hb
  unfold reverse
  rw [if_pos (by simp)]
  congr 2
  · congr 1
    · simp
    · rw [List.append_assoc, List.take_length_add_append, List.drop_left]
      simp
  · rw [← List.length_append, List.drop_left]

/-- What a rank contributes: its own block. -/
def contribution (input : Fin n → List α) (blockLen : ℕ → ℕ) (r : ℕ) : List α :=
  if h : r < n then (input ⟨r, h⟩).take (blockLen r) else []

/-- `block_start` are the prefix sums of `block_len`, and `all_size` is the sum of all. -/
structure Layout (n : ℕ) (blockStart blockLen : ℕ → ℕ) (allSize : ℕ) : Prop where
  start : ∀ i < n, blockStart i = offset blockLen i
  all : allSize = offset blockLen n

theorem length_contribution (hin : ∀ r : Fin n, blockLen r ≤ (input r).length) :
    ∀ j < n, (contribution input blockLen j).length = blockLen j := by
  intro j hj
  rw [contribution, dif_pos hj, List.length_take, min_eq_left (hin ⟨j, hj⟩)]

theorem wrappedSize_all {r : ℕ} (hr : r < n) : wrappedSize blockLen n r n = offset blockLen n := by
  have hlen : ∀ j < n, (List.replicate (blockLen j) ()).length = blockLen j := by simp
  rw [← length_gathered (r.zero_le.trans_lt hr) hlen, gathered_all hr, ← length_concat hlen,
    concat_split hr.le, List.length_append, List.length_append, Nat.add_comm]

/-- Rotating the gathered blocks puts them in order. -/
theorem rotate_gathered {block : ℕ → List α} {rest : List α}
    (hlen : ∀ j < n, (block j).length = blockLen j) (hL : Layout n blockStart blockLen allSize)
    (r : Fin n) :
    (do
      let output ← reverse (gathered block n r n ++ rest) 0 allSize
      let output ← reverse output 0 (blockStart r)
      reverse output (blockStart r) allSize) = .ok (concat block n ++ rest) := by
  have hb := length_concat fun j hj => hlen j (hj.trans r.isLt)
  have hall := length_concat hlen
  rw [concat_split r.isLt.le, List.length_append, ← hL.all, hb] at hall
  rw [gathered_all r.isLt, concat_split r.isLt.le, hL.start r r.isLt]
  generalize concat block r = l at *
  generalize concat (fun j => block (r + j)) (n - r) = m at *
  have h1 : reverse (m ++ l ++ rest) 0 allSize = .ok (l.reverse ++ m.reverse ++ rest) := by
    have := reverse_eq (l := []) (m := m ++ l) (r := rest) (a := 0) (b := allSize) rfl
      (by rw [List.length_append]; omega)
    rwa [List.reverse_append] at this
  have h2 : reverse (l.reverse ++ m.reverse ++ rest) 0 (offset blockLen r) =
      .ok (l ++ m.reverse ++ rest) := by
    have := reverse_eq (l := []) (m := l.reverse) (r := m.reverse ++ rest) (a := 0)
      (b := offset blockLen r) rfl (by rw [List.length_reverse]; omega)
    rwa [List.reverse_reverse, List.nil_append, ← List.append_assoc, List.nil_append,
      ← List.append_assoc] at this
  have h3 : reverse (l ++ m.reverse ++ rest) (offset blockLen r) allSize = .ok (l ++ m ++ rest) := by
    have := reverse_eq (l := l) (m := m.reverse) (r := rest) hb
      (b := allSize) (by rw [List.length_reverse]; omega)
    rwa [List.reverse_reverse] at this
  rw [h1, ok_bind, h2, ok_bind, h3]

/-- The rounds of Allgather, from the rank's own block on, and the rotation after them. -/
theorem allgather_bind (hL : Layout n blockStart blockLen allSize)
    (hin : ∀ r : Fin n, blockLen r ≤ (input r).length)
    (hout : ∀ r : Fin n, allSize ≤ (output r).length) (r : Fin n) (K : List α → Program n α β) :
    allgather r (input r) allSize blockStart blockLen (output r) >>= K =
      (List.range' 0 (BruckMap.count n n 0)).foldlM (gatherRound r blockLen)
        (gatherAt blockLen (contribution input blockLen) n r 0 (output r)) >>= fun st =>
      liftM (do
        let output ← reverse st.output 0 allSize
        let output ← reverse output 0 (blockStart r)
        reverse output (blockStart r) allSize) >>= K := by
  have hlen := length_contribution hin
  have hmine : (contribution input blockLen r).length = blockLen r := hlen r r.isLt
  have hfetch : fetch (input r) 0 (blockLen r) = .ok (contribution input blockLen r) := by
    rw [fetch, if_pos (by simpa using hin r), List.drop_zero, contribution, dif_pos r.isLt]
  have hcopy : memcpy (output r) 0 (contribution input blockLen r) =
      .ok (contribution input blockLen r ++ (output r).drop (blockLen r)) := by
    have hle : blockLen r ≤ allSize := by
      have : offset blockLen (r + 1) ≤ offset blockLen n := offset_mono r.isLt
      rw [offset_succ, ← hL.all] at this
      omega
    have := memcpy_append (l := []) (n := 0) (m := output r) rfl
      (hmine.trans_le (hle.trans (hout r)))
    rwa [List.nil_append, List.nil_append, hmine] at this
  have hone : min (2 ^ 0) n = 1 := min_eq_left r.pos
  have hsize : wrappedSize blockLen n r 1 = blockLen r := by
    rw [← length_gathered r.pos hlen, gathered_one r.isLt, hmine]
  simp only [allgather, hfetch, lift_ok, Proc.ret_bind, hcopy, bind_assoc, gatherAt, hone,
    gathered_one r.isLt, hsize, lift_bind, List.range_eq_range']
  rfl

/-- All ranks together run Allgather to its end; what they do next is up to `K`. -/
theorem reachable_allgather (hL : Layout n blockStart blockLen allSize)
    (hin : ∀ r : Fin n, blockLen r ≤ (input r).length)
    (hout : ∀ r : Fin n, allSize ≤ (output r).length) (K : Fin n → List α → Program n α β) :
    Reachable step
      (quiet T fun r => allgather r (input r) allSize blockStart blockLen (output r) >>= K r)
      (quiet T fun r =>
        K r (concat (contribution input blockLen) n ++ (output r).drop allSize)) := by
  have hlen := length_contribution hin
  have hroom : ∀ r : Fin n, wrappedSize blockLen n r n ≤ (output r).length := fun r => by
    rw [wrappedSize_all r.isLt, ← hL.all]
    exact hout r
  have hrounds := reachable_gatherRounds (T := T) hlen hroom (i := 0)
    (m := BruckMap.count n n 0) (fun j hj => BruckMap.pow_lt_of_lt_k (r := 0) (by rwa [Nat.zero_add] at hj))
    fun r st => liftM (do
      let output ← reverse st.output 0 allSize
      let output ← reverse output 0 (blockStart r)
      reverse output (blockStart r) allSize) >>= K r
  convert hrounds using 2
  · funext r
    exact allgather_bind hL hin hout r (K r)
  · funext r
    have hall : min (2 ^ (0 + BruckMap.count n n 0)) n = n := by
      rw [Nat.zero_add]
      exact min_eq_right (BruckMap.le_pow_k (r := 0))
    simp only [gatherAt, hall, rotate_gathered hlen hL, lift_ok, Proc.ret_bind,
      wrappedSize_all r.isLt, ← hL.all]

theorem completes_allgather (hL : Layout n blockStart blockLen allSize)
    (hin : ∀ r : Fin n, blockLen r ≤ (input r).length)
    (hout : ∀ r : Fin n, allSize ≤ (output r).length) :
    Completes (fun r => allgather r (input r) allSize blockStart blockLen (output r))
      (fun r => concat (contribution input blockLen) n ++ (output r).drop allSize) := by
  apply completes_of_reachable
  intro T
  have := reachable_allgather (T := T) hL hin hout fun _ => .ret
  simpa only [Proc.bind_ret] using this

/-- Whatever the transport and the order of the steps, every rank ends with block 0, block 1 and so
on in the first `all_size` bytes of its output and the rest of the output untouched, and every
message has the size its receiver waits for. -/
theorem allgather_concat (hL : Layout n blockStart blockLen allSize)
    (hin : ∀ r : Fin n, blockLen r ≤ (input r).length)
    (hout : ∀ r : Fin n, allSize ≤ (output r).length) :
    Completes (fun r => allgather r (input r) allSize blockStart blockLen (output r))
        (fun r => concat (contribution input blockLen) n ++ (output r).drop allSize) ∧
      ∀ c, Reachable step (quiet (.packets α) fun r =>
        allgather r (input r) allSize blockStart blockLen (output r)) c → Matched c := by
  have h := completes_allgather hL hin hout
  exact ⟨h, fun c hc => h.matched hc⟩

/-- Three ranks, one of them with an empty block. -/
theorem allgather_concat_three :
    let len : ℕ → ℕ := fun i => if i = 1 then 0 else i + 1
    let input : Fin 3 → List ℕ := fun r => List.replicate 3 r
    let output : Fin 3 → List ℕ := fun _ => List.replicate 5 9
    let program := fun r => allgather r (input r) 4 (offset len) len (output r)
    Completes program (fun _ => [0, 2, 2, 2, 9]) ∧
      ∀ c, Reachable step (quiet (.packets ℕ) program) c → Matched c :=
  allgather_concat ⟨fun _ _ => rfl, by decide⟩ (by decide) (by decide)

end Allgather

end Hpps.Net

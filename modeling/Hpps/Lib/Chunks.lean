import Mathlib

/-! Chunks that have rows in several columns, taken from the left. -/
namespace Chunks

universe u v
variable {α : Type u} {ι : Type v} {w : α → ι → ℕ} {cut : ℕ → α → Prop} {xs ys rest rest' more : List α}
  {last : Option (ℕ × α)} {q q' : ι → ℕ} {x : ℕ} {z z' : α}

/-- Chunks are taken until each column has the rows that `q` asks for. The last one may be cut, after `x` rows. -/
inductive Takes (w : α → ι → ℕ) (cut : ℕ → α → Prop) :
    List α → (ι → ℕ) → List α → Option (ℕ × α) → List α → Prop
  | nothing {rest : List α} : Takes w cut rest (fun _ => 0) [] none rest
  | part {x : ℕ} {z : α} {rest : List α} (hx : 0 < x) (hw : ∀ i, x < w z i) (hcut : cut x z) :
      Takes w cut (z :: rest) (fun _ => x) [] (some (x, z)) rest
  | chunk {z : α} {xs ys rest : List α} {q : ι → ℕ} {last : Option (ℕ × α)}
      (h : Takes w cut xs q ys last rest) : Takes w cut (z :: xs) (fun i => w z i + q i) (z :: ys) last rest

def Reaches (w : α → ι → ℕ) (cut : ℕ → α → Prop) (xs : List α) (q : ι → ℕ) : Prop :=
  ∃ ys last rest, Takes w cut xs q ys last rest

/-- `z'` is what a cut after `x` rows leaves of `z`. -/
structure Leaves (w : α → ι → ℕ) (cut : ℕ → α → Prop) (x : ℕ) (z z' : α) : Prop where
  rows : ∀ i, w z' i = w z i - x
  cuts : ∀ y, x < y → cut y z → cut (y - x) z'

/-- The chunks that come next. -/
inductive Left (w : α → ι → ℕ) (cut : ℕ → α → Prop) : Option (ℕ × α) → List α → List α → Prop
  | whole {rest : List α} : Left w cut none rest rest
  | half {x : ℕ} {z z' : α} {rest : List α} (h : Leaves w cut x z z') : Left w cut (some (x, z)) rest (z' :: rest)

/-- As many rows are taken as were asked for. -/
theorem Takes.sum_eq (h : Takes w cut xs q ys last rest) (i : ι) :
    (ys.map fun y => w y i).sum + (last.map Prod.fst).getD 0 = q i := by
  induction h with
  | nothing => rfl
  | part hx hw hcut => exact Nat.zero_add _
  | chunk h ih =>
    rw [List.map_cons, List.sum_cons, Nat.add_assoc, ih]

theorem Takes.length_le (h : Takes w cut xs q ys last rest) : ys.length ≤ xs.length := by
  induction h with
  | nothing => exact Nat.zero_le _
  | part hx hw hcut => exact Nat.zero_le _
  | chunk h ih => exact Nat.succ_le_succ ih

/-- What is taken and what is left are the chunks in their order. -/
theorem Takes.eq_append (h : Takes w cut xs q ys last rest) : xs = ys ++ (last.map Prod.snd).toList ++ rest := by
  induction h with
  | nothing | part hx hw hcut => rfl
  | chunk h ih =>
    conv_lhs => rw [ih]
    rfl

theorem Takes.mem (h : Takes w cut xs q ys last rest) : (∀ y ∈ ys, y ∈ xs) ∧ (∀ y ∈ rest, y ∈ xs) ∧
    ∀ x z, last = some (x, z) → z ∈ xs ∧ 0 < x ∧ (∀ i, x < w z i) ∧ cut x z := by
  induction h with
  | nothing => simp
  | part hx hw hcut =>
    refine ⟨by simp, fun y hy => List.mem_cons_of_mem _ hy, ?_⟩
    rintro x z ⟨⟩
    exact ⟨List.mem_cons_self, hx, hw, hcut⟩
  | chunk h ih =>
    refine ⟨List.forall_mem_cons.mpr ⟨List.mem_cons_self, fun y hy => List.mem_cons_of_mem _ (ih.1 y hy)⟩,
      fun y hy => List.mem_cons_of_mem _ (ih.2.1 y hy), fun x z hlast => ?_⟩
    obtain ⟨hz, hrest⟩ := ih.2.2 x z hlast
    exact ⟨List.mem_cons_of_mem _ hz, hrest⟩

/-- What is reached behind the chunks that were taken is reached from what they leave. -/
theorem Takes.reaches [Nonempty ι] (h : Takes w cut xs q ys last rest) (hpos : ∀ z ∈ xs, ∀ i, 0 < w z i)
    (hr : Reaches w cut xs fun i => q i + q' i) (hleft : Left w cut last rest rest') : Reaches w cut rest' q' := by
  obtain ⟨i⟩ := ‹Nonempty ι›
  induction h with
  | nothing =>
    cases hleft
    simpa using hr
  | @part x z rest hx hw hcut =>
    obtain ⟨ys', last', rest₂, ht⟩ := hr
    obtain _ | hleaves := hleft
    generalize hq : (fun i => x + q' i) = p at ht
    cases ht with
    | nothing => exact absurd (congrFun hq i) (by omega)
    | @part y z rest hy hwy hcuty =>
      have hq' : ∀ i, x + q' i = y := fun i => congrFun hq i
      rcases Nat.eq_or_lt_of_le (show x ≤ y by have := hq' i; omega) with heq | hlt
      · obtain rfl : q' = fun _ => 0 := funext fun i => by have := hq' i; omega
        exact ⟨_, _, _, .nothing⟩
      · obtain rfl : q' = fun _ => y - x := funext fun i => by have := hq' i; omega
        refine ⟨_, _, _, .part (by omega) (fun i => ?_) (hleaves.cuts y hlt hcuty)⟩
        have := hwy i
        rw [hleaves.rows]
        omega
    | @chunk z xs ys rest p last ht =>
      rename_i z'
      obtain rfl : q' = fun i => w z' i + p i := by
        funext i
        have := hw i
        have := congrFun hq i
        rw [hleaves.rows]
        omega
      exact ⟨_, _, _, .chunk ht⟩
  | @chunk z xs ys rest q last h ih =>
    rw [List.forall_mem_cons] at hpos
    obtain ⟨ys', last', rest₂, ht⟩ := hr
    generalize hq : (fun i => w z i + q i + q' i) = p at ht
    have hz := hpos.1 i
    cases ht with
    | nothing => exact absurd (congrFun hq i) (by omega)
    | @part y z rest hy hwy hcuty =>
      have := congrFun hq i
      have := hwy i
      omega
    | @chunk z xs ys rest p last ht =>
      obtain rfl : p = fun i => q i + q' i := by
        funext i
        have := congrFun hq i
        omega
      exact ih hpos.2 ⟨_, _, _, ht⟩ hleft

/-- Chunks with as many rows in one column as in another, which can be cut anywhere. -/
theorem reaches_of_uniform {m : α → ℕ} {n : ℕ} (hw : ∀ z ∈ xs, ∀ i, w z i = m z)
    (hcut : ∀ z ∈ xs, ∀ x, 0 < x → x < m z → cut x z) (hn : n ≤ (xs.map m).sum) :
    Reaches w cut xs fun _ => n := by
  induction xs generalizing n with
  | nil =>
    obtain rfl : n = 0 := by simpa using hn
    exact ⟨_, _, _, .nothing⟩
  | cons z xs ih =>
    rw [List.forall_mem_cons] at hw hcut
    rw [List.map_cons, List.sum_cons] at hn
    rcases Nat.eq_zero_or_pos n with rfl | hpos
    · exact ⟨_, _, _, .nothing⟩
    · by_cases hlt : n < m z
      · exact ⟨_, _, _, .part hpos (fun i => by rw [hw.1]; exact hlt) (hcut.1 n hpos hlt)⟩
      · obtain ⟨ys, last, rest, h⟩ := ih (n := n - m z) hw.2 hcut.2 (by omega)
        have heq : (fun _ => n) = fun i => w z i + (n - m z) := funext fun i => by rw [hw.1]; omega
        rw [heq]
        exact ⟨_, _, _, .chunk h⟩

end Chunks

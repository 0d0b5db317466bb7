import Hpps.Lib.Rows

/-! Reductions: the combination of several values, each taken once, in any order and grouping. -/
namespace Reduction

universe u v
variable {ι : Type u} {E : Type v} [DecidableEq ι]

/-- `a` combines the values of `s`, each of them once. -/
inductive Combined (op : E → E → E) (x : ι → E) : Finset ι → E → Prop
  | single (i : ι) : Combined op x {i} (x i)
  | node {s t : Finset ι} {a b : E} (hs : Combined op x s a) (ht : Combined op x t b)
      (h : Disjoint s t) : Combined op x (s ∪ t) (op a b)

namespace Combined

variable {op : E → E → E} {x : ι → E} {s : Finset ι} {a b : E} {i : ι}

theorem nonempty (h : Combined op x s a) : s.Nonempty := by
  induction h with
  | single i => exact Finset.singleton_nonempty i
  | node hs ht h ihs iht => exact ihs.inl

theorem eq_of_singleton (h : Combined op x {i} a) : a = x i := by
  generalize hs : ({i} : Finset ι) = s at h
  cases h with
  | single j => rw [Finset.singleton_inj.mp hs]
  | @node s t a b hs' ht' h =>
    -- a singleton is not the union of two disjoint sets that are not empty
    obtain ⟨j, hj⟩ := hs'.nonempty
    obtain ⟨k, hk⟩ := ht'.nonempty
    have hj' : j ∈ ({i} : Finset ι) := hs ▸ Finset.mem_union_left t hj
    have hk' : k ∈ ({i} : Finset ι) := hs ▸ Finset.mem_union_right s hk
    rw [Finset.mem_singleton] at hj' hk'
    subst hj' hk'
    exact absurd hk (Finset.disjoint_left.mp h hj)

section Laws

variable {P : E → Prop} (hop : ∀ a b, P a → P b → P (op a b))
  (hcomm : ∀ a b, P a → P b → op a b = op b a)
  (hassoc : ∀ a b c, P a → P b → P c → op (op a b) c = op a (op b c))

include hop

theorem closed (h : Combined op x s a) (hx : ∀ i ∈ s, P (x i)) : P a := by
  induction h with
  | single i => exact hx i (Finset.mem_singleton_self i)
  | node hs ht h ihs iht =>
    rw [Finset.forall_mem_union] at hx
    exact hop _ _ (ihs hx.1) (iht hx.2)

include hcomm hassoc

/-- Any of the values can be taken to the front. -/
theorem front (h : Combined op x s a) (hx : ∀ i ∈ s, P (x i)) (hi : i ∈ s) : s = {i} ∨
    ∃ b, Combined op x (s.erase i) b ∧ a = op (x i) b := by
  induction h with
  | single j =>
    rw [Finset.mem_singleton] at hi
    exact .inl (hi ▸ rfl)
  | @node s t a b hs ht h ihs iht =>
    have hPi := hx i hi
    rw [Finset.forall_mem_union] at hx
    have ha := hs.closed hop hx.1
    have hb := ht.closed hop hx.2
    right
    rcases Finset.mem_union.mp hi with hi | hi
    · have hit : i ∉ t := Finset.disjoint_left.mp h hi
      rcases ihs hx.1 hi with rfl | ⟨c, hc, rfl⟩
      · refine ⟨b, ?_, by rw [hs.eq_of_singleton]⟩
        rw [Finset.erase_union_distrib, Finset.erase_singleton, Finset.empty_union,
          Finset.erase_eq_of_notMem hit]
        exact ht
      · have hPc := hc.closed hop fun j hj => hx.1 j (Finset.mem_of_mem_erase hj)
        refine ⟨op c b, ?_, hassoc _ _ _ hPi hPc hb⟩
        rw [Finset.erase_union_distrib, Finset.erase_eq_of_notMem hit]
        exact hc.node ht (h.mono_left (Finset.erase_subset i s))
    · have his : i ∉ s := Finset.disjoint_right.mp h hi
      rcases iht hx.2 hi with rfl | ⟨c, hc, rfl⟩
      · refine ⟨a, ?_, by rw [ht.eq_of_singleton, hcomm _ _ ha hPi]⟩
        rw [Finset.erase_union_distrib, Finset.erase_singleton, Finset.union_empty,
          Finset.erase_eq_of_notMem his]
        exact hs
      · have hPc := hc.closed hop fun j hj => hx.2 j (Finset.mem_of_mem_erase hj)
        refine ⟨op a c, ?_, ?_⟩
        · rw [Finset.erase_union_distrib, Finset.erase_eq_of_notMem his]
          exact hs.node hc (h.mono_right (Finset.erase_subset i t))
        · rw [← hassoc _ _ _ ha hPi hPc, hcomm _ _ ha hPi, hassoc _ _ _ hPi ha hPc]

/-- Order and grouping do not matter. -/
theorem unique (ha : Combined op x s a) (hb : Combined op x s b) (hx : ∀ i ∈ s, P (x i)) :
    a = b := by
  induction s using Finset.strongInduction generalizing a b with
  | H s ih =>
    obtain ⟨i, hi⟩ := ha.nonempty
    rcases ha.front hop hcomm hassoc hx hi with rfl | ⟨c, hc, rfl⟩
    · rw [ha.eq_of_singleton, hb.eq_of_singleton]
    · rcases hb.front hop hcomm hassoc hx hi with rfl | ⟨d, hd, rfl⟩
      · rw [Finset.erase_singleton] at hc
        exact absurd hc.nonempty Finset.not_nonempty_empty
      · rw [ih _ (Finset.erase_ssubset hi) hc hd fun j hj => hx j (Finset.mem_of_mem_erase hj)]

end Laws

end Combined

open Rows

/-- A reducer that works element by element, on elements of `width` bytes. -/
structure Reducer (α : Type) where
  width : ℕ
  width_pos : 0 < width
  op : List α → List α → List α
  length_op : ∀ a b, a.length = width → b.length = width → (op a b).length = width
  comm : ∀ a b, a.length = width → b.length = width → op a b = op b a
  assoc : ∀ a b c, a.length = width → b.length = width → c.length = width →
    op (op a b) c = op a (op b c)

namespace Reducer

variable {α : Type} {R : Reducer α} {src dst : List α} {x : ℕ → List α} {e n m : ℕ}

/-- What `dst` becomes when `src` is reduced into it. -/
def reduce (R : Reducer α) (src dst : List α) : List α :=
  (List.range (min src.length dst.length / R.width)).flatMap fun e =>
    R.op (row R.width src e) (row R.width dst e)

theorem length_op_row (hs : (e + 1) * R.width ≤ src.length) (hd : (e + 1) * R.width ≤ dst.length) :
    (R.op (row R.width src e) (row R.width dst e)).length = R.width :=
  R.length_op _ _ (length_row hs) (length_row hd)

theorem succ_mul_le_of_lt_div (h : e < n / R.width) : (e + 1) * R.width ≤ n :=
  (Nat.mul_le_mul_right _ h).trans (Nat.div_mul_le_self ..)

theorem length_op_of_mem (h : e ∈ List.range (min src.length dst.length / R.width)) :
    (R.op (row R.width src e) (row R.width dst e)).length = R.width := by
  have hle := le_min_iff.mp (succ_mul_le_of_lt_div (List.mem_range.mp h))
  exact length_op_row hle.1 hle.2

theorem length_reduce (h : src.length = dst.length) (hw : R.width ∣ dst.length) :
    (R.reduce src dst).length = dst.length := by
  rw [reduce, length_flatMap fun e he => length_op_of_mem he, List.length_range, h, min_self,
    Nat.div_mul_cancel hw]

theorem row_reduce (hs : (e + 1) * R.width ≤ src.length) (hd : (e + 1) * R.width ≤ dst.length) :
    row R.width (R.reduce src dst) e = R.op (row R.width src e) (row R.width dst e) := by
  have he : e < (List.range (min src.length dst.length / R.width)).length := by
    rw [List.length_range, Nat.lt_iff_add_one_le, Nat.le_div_iff_mul_le R.width_pos]
    exact le_min hs hd
  rw [reduce, row_flatMap (fun e he => length_op_of_mem he) he, List.getElem_range]

/-- The reduction of `x 0` to `x m`. -/
def total (R : Reducer α) (x : ℕ → List α) : ℕ → List α
  | 0 => x 0
  | m + 1 => R.reduce (x (m + 1)) (total R x m)

theorem length_total (hx : ∀ r ≤ m, (x r).length = n) (hw : R.width ∣ n) :
    (R.total x m).length = n := by
  induction m with
  | zero => exact hx 0 le_rfl
  | succ m ih =>
    have hm := ih fun r hr => hx r (by omega)
    rw [total, length_reduce ((hx _ le_rfl).trans hm.symm) (hm ▸ hw), hm]

theorem combined_total (hx : ∀ r ≤ m, (x r).length = n) (hw : R.width ∣ n)
    (he : (e + 1) * R.width ≤ n) : Combined R.op (fun r => row R.width (x r) e)
      (Finset.range (m + 1)) (row R.width (R.total x m) e) := by
  induction m with
  | zero => exact .single 0
  | succ m ih =>
    have hx' : ∀ r ≤ m, (x r).length = n := fun r hr => hx r (by omega)
    rw [total, row_reduce (by rwa [hx _ le_rfl]) (by rwa [length_total hx' hw]), Finset.range_add_one,
      Finset.insert_eq]
    exact (Combined.single (m + 1)).node (ih hx') (by simp)

/-- Every combination of the elements at `e` is the element of the reduction there. -/
theorem eq_row_total {a : List α} (hx : ∀ r ≤ m, (x r).length = n) (hw : R.width ∣ n)
    (he : (e + 1) * R.width ≤ n)
    (ha : Combined R.op (fun r => row R.width (x r) e) (Finset.range (m + 1)) a) :
    a = row R.width (R.total x m) e := by
  refine ha.unique (P := fun a => a.length = R.width) R.length_op R.comm R.assoc
    (combined_total hx hw he) fun r hr => ?_
  rw [Finset.mem_range] at hr
  exact length_row (he.trans_eq (hx r (by omega)).symm)

end Reducer

end Reduction

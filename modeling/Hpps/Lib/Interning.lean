import Mathlib

/-! Values numbered in the order in which they first occur. -/
namespace Interning

universe u
variable {α : Type u} [DecidableEq α] {xs uniq m : List α} {codes : List ℕ} {x : α} {k : ℕ}

/-- `uniq` lists the values of `xs` once each, in the order of their first occurrences, and `codes` has for
each value of `xs` its place in `uniq`. -/
structure Encodes (xs uniq : List α) (codes : List ℕ) : Prop where
  nodup : uniq.Nodup
  first : uniq.Pairwise fun a b => xs.idxOf a < xs.idxOf b
  mem : ∀ a, a ∈ uniq ↔ a ∈ xs
  length : codes.length = xs.length
  decode : ∀ i k : ℕ, codes[i]? = some k → uniq[k]? = xs[i]?

theorem encodes_nil : Encodes ([] : List α) [] [] := ⟨List.nodup_nil, .nil, by simp, rfl, by simp⟩

namespace Encodes

theorem first_append (h : Encodes xs uniq codes) : uniq.Pairwise fun a b => (xs ++ [x]).idxOf a < (xs ++ [x]).idxOf b := by
  refine h.first.imp_of_mem fun {a b} ha hb hlt => ?_
  rwa [List.idxOf_append_of_mem ((h.mem a).mp ha), List.idxOf_append_of_mem ((h.mem b).mp hb)]

theorem decode_append (h : Encodes xs uniq codes) (hk : (uniq ++ m)[k]? = some x) :
    ∀ i j : ℕ, (codes ++ [k])[i]? = some j → (uniq ++ m)[j]? = (xs ++ [x])[i]? := by
  intro i j hi
  rcases lt_trichotomy i codes.length with hlt | rfl | hgt
  · rw [List.getElem?_append_left hlt] at hi
    have hlt' : i < xs.length := h.length ▸ hlt
    have hj := h.decode i j hi
    rw [List.getElem?_eq_getElem hlt'] at hj
    rw [List.getElem?_append_left (List.getElem?_eq_some_iff.mp hj).1, hj, List.getElem?_append_left hlt',
      List.getElem?_eq_getElem hlt']
  · rw [List.getElem?_concat_length] at hi
    cases hi
    rw [hk, h.length, List.getElem?_concat_length]
  · rw [List.getElem?_eq_none (by simp; omega)] at hi
    cases hi

theorem length_le (h : Encodes xs uniq codes) : uniq.length ≤ xs.length :=
  (h.nodup.subperm fun a => (h.mem a).mp).length_le

/-- A value that has a number. -/
theorem old (h : Encodes xs uniq codes) (hk : uniq[k]? = some x) : Encodes (xs ++ [x]) uniq (codes ++ [k]) := by
  have hdecode := h.decode_append (x := x) (k := k) (m := []) (by rwa [List.append_nil])
  rw [List.append_nil] at hdecode
  refine ⟨h.nodup, h.first_append, fun a => ?_, by simp [h.length], hdecode⟩
  have hx : x ∈ uniq := List.mem_of_getElem? hk
  rw [List.mem_append, List.mem_singleton, ← h.mem a]
  constructor
  · exact .inl
  · rintro (ha | rfl)
    · exact ha
    · exact hx

/-- A value that gets the next number. -/
theorem new (h : Encodes xs uniq codes) (hx : x ∉ uniq) :
    Encodes (xs ++ [x]) (uniq ++ [x]) (codes ++ [uniq.length]) := by
  refine ⟨?_, ?_, fun a => by simp [h.mem a], by simp [h.length], h.decode_append List.getElem?_concat_length⟩
  · rw [List.nodup_append]
    refine ⟨h.nodup, List.nodup_singleton x, fun a ha b hb => ?_⟩
    rw [List.mem_singleton.mp hb]
    exact fun he => hx (he ▸ ha)
  · refine List.pairwise_append.mpr ⟨h.first_append, List.pairwise_singleton .., fun a ha b hb => ?_⟩
    have hnew : x ∉ xs := fun hmem => hx ((h.mem x).mpr hmem)
    rw [List.mem_singleton.mp hb, List.idxOf_append_of_mem ((h.mem a).mp ha), List.idxOf_append_of_notMem hnew]
    exact (List.idxOf_lt_length_iff.mpr ((h.mem a).mp ha)).trans_le (Nat.le_add_right ..)

end Encodes
end Interning

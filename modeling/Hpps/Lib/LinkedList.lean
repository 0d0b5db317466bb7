import Mathlib

/-! Singly linked lists threaded through their own nodes. -/
namespace LinkedList

universe u
variable {ι : Type u} {next next' : ι → Option ι} {head : Option ι} {b : ι} {l l' : List ι}

/-- From `head` the links visit the nodes `l` in order, and end. -/
def Linked (next : ι → Option ι) : Option ι → List ι → Prop
  | head, [] => head = none
  | head, b :: l => head = some b ∧ Linked next (next b) l

theorem Linked.unique (h : Linked next head l) (h' : Linked next head l') : l = l' := by
  induction l generalizing head l' with
  | nil =>
    cases l' with
    | nil => rfl
    | cons b l' => cases h.symm.trans h'.1
  | cons b l ih =>
    cases l' with
    | nil => cases h.1.symm.trans h'
    | cons b' l' =>
      cases h.1.symm.trans h'.1
      rw [ih h.2 h'.2]

theorem Linked.tail_of_mem (h : Linked next head l) (hb : b ∈ l) :
    ∃ l', Linked next (some b) (b :: l') ∧ l'.length < l.length := by
  induction l generalizing head with
  | nil => cases hb
  | cons c l ih =>
    rcases List.mem_cons.mp hb with rfl | hb
    · exact ⟨l, ⟨rfl, h.2⟩, Nat.lt_succ_self _⟩
    · obtain ⟨l', hl', hlt⟩ := ih h.2 hb
      exact ⟨l', hl', hlt.trans (Nat.lt_succ_self _)⟩

/-- A list that ends has no cycle: behind a repeated node the links would go on as before. -/
theorem Linked.nodup (h : Linked next head l) : l.Nodup := by
  induction l generalizing head with
  | nil => exact List.nodup_nil
  | cons b l ih =>
    refine List.nodup_cons.mpr ⟨fun hb => ?_, ih h.2⟩
    obtain ⟨l', hl', hlt⟩ := h.2.tail_of_mem hb
    have heq : b :: l = b :: l' := Linked.unique ⟨rfl, h.2⟩ hl'
    rw [(List.cons.inj heq).2] at hlt
    exact hlt.false

/-- Links of other nodes do not matter. -/
theorem Linked.congr (h : Linked next head l) (hnext : ∀ b ∈ l, next' b = next b) : Linked next' head l := by
  induction l generalizing head with
  | nil => exact h
  | cons b l ih =>
    rw [List.forall_mem_cons] at hnext
    refine ⟨h.1, ih ?_ hnext.2⟩
    rw [hnext.1]
    exact h.2

theorem Linked.single (h : next b = none) : Linked next (some b) [b] := ⟨rfl, h⟩

end LinkedList

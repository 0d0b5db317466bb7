import Hpps.Lib.History

/-! Turns that are taken in rounds: nobody takes a turn who has had more than another. -/
namespace Rounds

variable {α : Type} {K r : ℕ} {who : α → Fin K} {l m : List α} {a : α} {v w : Fin K}

/-- How many turns `v` has had. -/
def turns (who : α → Fin K) (l : List α) (v : Fin K) : ℕ := l.countP fun a => who a = v

/-- Each turn was taken by one who had had as few turns as anybody. -/
def Fair (who : α → Fin K) (l : List α) : Prop :=
  History.Each (fun pre a => ∀ v, turns who pre (who a) ≤ turns who pre v) l

theorem turns_append : turns who (l ++ m) v = turns who l v + turns who m v := List.countP_append

theorem turns_append_singleton :
    turns who (l ++ [a]) v = turns who l v + if who a = v then 1 else 0 := by
  simp [turns, List.countP_append, List.countP_cons]

theorem fair_nil : Fair who [] := History.each_nil

theorem Fair.append_singleton (h : Fair who l) (ha : ∀ v, turns who l (who a) ≤ turns who l v) :
    Fair who (l ++ [a]) :=
  History.each_append_singleton.mpr ⟨h, ha⟩

theorem Fair.left (h : Fair who (l ++ m)) : Fair who l := by
  intro pre a post hl
  apply h pre a (post ++ m)
  simp [hl]

theorem Fair.take (h : Fair who l) (n : ℕ) : Fair who (l.take n) := by
  apply Fair.left (m := l.drop n)
  rwa [List.take_append_drop]

/-- Nobody is more than one turn ahead. -/
theorem Fair.turns_le (h : Fair who l) (v w : Fin K) : turns who l v ≤ turns who l w + 1 := by
  induction l using List.reverseRecOn with
  | nil => simp [turns]
  | append_singleton l a ih =>
    have hl := ih h.left
    have ha := h l a [] rfl w
    simp only [turns_append_singleton]
    by_cases hv : who a = v
    · subst hv
      simp only [if_true]
      omega
    · simp only [if_neg hv]
      omega

theorem sum_turns : ∑ v, turns who l v = l.length := by
  induction l with
  | nil => simp [turns]
  | cons a l ih =>
    have hone : ∑ v, (if who a = v then 1 else 0) = 1 := by simp
    simp only [turns, List.countP_cons, decide_eq_true_eq, Finset.sum_add_distrib] at ih ⊢
    rw [ih, hone, List.length_cons]

/-- After complete rounds everybody has had one turn for each of them. -/
theorem Fair.turns_eq (h : Fair who l) (hl : l.length = r * K) (v : Fin K) : turns who l v = r := by
  have hsum : ∑ w, turns who l w = ∑ _w : Fin K, r := by
    rw [sum_turns, hl]
    simp [Nat.mul_comm]
  by_contra hne
  rcases Nat.lt_or_gt_of_ne hne with hlt | hgt
  · have : ∑ w, turns who l w < ∑ _w : Fin K, r := by
      apply Finset.sum_lt_sum
      · intro w _
        have := h.turns_le w v
        omega
      · exact ⟨v, Finset.mem_univ v, hlt⟩
    omega
  · have : ∑ _w : Fin K, r < ∑ w, turns who l w := by
      apply Finset.sum_lt_sum
      · intro w _
        have := h.turns_le v w
        omega
      · exact ⟨v, Finset.mem_univ v, hgt⟩
    omega

/-- Everybody takes one turn in each round. -/
theorem Fair.turns_round (h : Fair who l) (hl : (r + 1) * K ≤ l.length) (v : Fin K) :
    turns who ((l.drop (r * K)).take K) v = 1 := by
  have hlen : (r + 1) * K = r * K + K := Nat.succ_mul r K
  have hpre := (h.take (r * K)).turns_eq (List.length_take_of_le (by omega)) v
  have hall := (h.take ((r + 1) * K)).turns_eq (List.length_take_of_le hl) v
  rw [hlen, List.take_add, turns_append, hpre] at hall
  omega

/-- The turn that somebody takes in round `r` is the `r`-th one of theirs. -/
theorem Fair.getElem?_round (h : Fair who l) (hl : (r + 1) * K ≤ l.length)
    (ha : a ∈ (l.drop (r * K)).take K) : (l.filter fun b => who b = who a)[r]? = some a := by
  have hlen : (r + 1) * K = r * K + K := Nat.succ_mul r K
  have hpre := (h.take (r * K)).turns_eq (List.length_take_of_le (by omega)) (who a)
  have hone := h.turns_round hl (who a)
  have hsplit : l = l.take (r * K) ++ ((l.drop (r * K)).take K ++ (l.drop (r * K)).drop K) := by
    rw [List.take_append_drop, List.take_append_drop]
  generalize hg : (l.drop (r * K)).take K = group at *
  rw [turns, List.countP_eq_length_filter] at hpre hone
  obtain ⟨b, hb⟩ := List.length_eq_one_iff.mp hone
  have hab : a ∈ group.filter fun b => who b = who a := List.mem_filter.mpr ⟨ha, by simp⟩
  rw [hb, List.mem_singleton] at hab
  subst hab
  rw [hsplit, List.filter_append, List.filter_append, hb, List.getElem?_append_right hpre.le, hpre,
    Nat.sub_self]
  rfl

/-- Round `r` consists of the `r`-th turn of everybody. -/
theorem Fair.round_perm (h : Fair who l) (hl : (r + 1) * K ≤ l.length) :
    (((l.drop (r * K)).take K).map some).Perm
      (List.ofFn fun v => (l.filter fun a => who a = v)[r]?) := by
  have hwho : (((l.drop (r * K)).take K).map who).Perm (List.finRange K) := by
    rw [List.perm_iff_count]
    intro v
    rw [List.count_eq_one_of_mem (List.nodup_finRange K) (List.mem_finRange v), ← h.turns_round hl v,
      List.count, List.countP_map]
    rfl
  have hmap : ((l.drop (r * K)).take K).map some =
      (((l.drop (r * K)).take K).map who).map fun v => (l.filter fun a => who a = v)[r]? := by
    rw [List.map_map]
    apply List.map_congr_left
    intro a ha
    exact (h.getElem?_round hl ha).symm
  rw [hmap, List.ofFn_eq_map]
  exact hwho.map _

end Rounds

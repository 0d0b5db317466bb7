import Hpps.Lib.OpenAddressing

/-! Linear probing with a limit: when a probe can find every bucket that it visits taken. -/
namespace LinearProbing

open OpenAddressing

universe u
variable {κ : Type u} [DecidableEq κ] {slot : ℕ → Option κ} {home : κ → ℕ} {T : Finset κ} {k k' : κ}
  {cap limit start len f h i j o o' x : ℕ}

/-- The buckets that a probe visits: the first `limit` from the key's home on, around the table. -/
def path (cap limit : ℕ) (home : κ → ℕ) (k : κ) : List ℕ := (List.range limit).map fun j => (home k + j) % cap

/-- How far bucket `h` lies after bucket `start`. -/
def dist (cap start h : ℕ) : ℕ := (h + (cap - start)) % cap

theorem dist_lt (hc : 0 < cap) : dist cap start h < cap := Nat.mod_lt _ hc

theorem add_dist (hs : start ≤ cap) (j : ℕ) : (start + dist cap start h + j) % cap = (h + j) % cap := by
  have hd : dist cap start h ≡ h + (cap - start) [MOD cap] := Nat.mod_modEq ..
  calc start + dist cap start h + j ≡ start + (h + (cap - start)) + j [MOD cap] := (hd.add_left _).add_right _
    _ = h + j + cap := by omega
    _ ≡ h + j [MOD cap] := Nat.add_mod_right ..

theorem eq_of_add_mod (ho : o < cap) (ho' : o' < cap) (h : (start + o) % cap = (start + o') % cap) : o = o' := by
  have hm : o ≡ o' [MOD cap] := Nat.ModEq.add_left_cancel' start h
  rwa [Nat.ModEq, Nat.mod_eq_of_lt ho, Nat.mod_eq_of_lt ho'] at hm

theorem dist_eq (hs : start ≤ cap) (hx : x < cap) (h' : (start + x) % cap = h % cap) : dist cap start h = x := by
  apply eq_of_add_mod (dist_lt (by omega)) hx
  rw [h']
  exact add_dist hs 0

theorem exists_of_hit (h : probe slot k (path cap limit home k) = .hit i) :
    ∃ j < limit, i = (home k + j) % cap ∧ ∀ j' < j, slot ((home k + j') % cap) ≠ none := by
  obtain ⟨q, r, hp, hq⟩ := before_hit h
  have hlen : q.length < limit := by
    have := congrArg List.length hp
    simp only [path, List.length_map, List.length_range, List.length_append, List.length_cons] at this
    omega
  have hget : ∀ j < limit, (q ++ i :: r)[j]? = some ((home k + j) % cap) := by
    intro j hj
    rw [← hp, path, List.getElem?_map, List.getElem?_range hj, Option.map_some]
  refine ⟨q.length, hlen, ?_, fun j hj => hq _ ?_⟩
  · have := hget _ hlen
    rw [List.getElem?_append_right le_rfl, Nat.sub_self, List.getElem?_cons_zero] at this
    exact Option.some.inj this
  · have := hget j (hj.trans hlen)
    rw [List.getElem?_append_left hj] at this
    exact List.mem_of_getElem? this

/-- No key crosses a free bucket: from a home before it, the key is stored between the two. -/
theorem between_home (hfind : Findable slot (path cap limit home)) (hs : start ≤ cap) (hf : f < cap)
    (hfree : slot ((start + f) % cap) = none) (ho : o < cap) (hk : slot ((start + o) % cap) = some k)
    (hhome : dist cap start (home k) ≤ f) : dist cap start (home k) ≤ o ∧ o < f := by
  obtain ⟨j, -, hj, htaken⟩ := exists_of_hit (hfind _ _ hk)
  have hjf : dist cap start (home k) + j ≤ f := by
    by_contra hlt
    apply htaken (f - dist cap start (home k)) (by omega)
    rw [← add_dist hs, Nat.add_assoc, Nat.add_sub_cancel' hhome, hfree]
  have hoj : o = dist cap start (home k) + j := by
    apply eq_of_add_mod ho (by omega)
    rw [hj, ← Nat.add_assoc, add_dist hs]
  refine ⟨by omega, lt_of_le_of_ne (by omega) ?_⟩
  rintro rfl
  rw [hfree] at hk
  cases hk

/-- For each `j` below `len`, more than `j` of the keys have their home among the first `j + 1` buckets. -/
def Fills (cap start len : ℕ) (home : κ → ℕ) (T : Finset κ) : Prop :=
  ∀ j < len, j < (T.filter fun k => dist cap start (home k) ≤ j).card

instance : Decidable (Fills cap start len home T) :=
  inferInstanceAs (Decidable (∀ j < len, j < (T.filter fun k => dist cap start (home k) ≤ j).card))

theorem fills_of_taken (hfind : Findable slot (path cap limit home)) (hs : start ≤ cap) (hlen : len ≤ cap)
    (hfree : slot ((start + (cap - 1)) % cap) = none)
    (htaken : ∀ o < len, ∃ k ∈ T, slot ((start + o) % cap) = some k) : Fills cap start len home T := by
  intro j hj
  have : Nonempty κ := ⟨(htaken j hj).choose⟩
  choose! key hkey using htaken
  have hle : (Finset.range (j + 1)).card ≤ (T.filter fun k => dist cap start (home k) ≤ j).card := by
    apply Finset.card_le_card_of_injOn key
    · intro o ho
      have ho : o < j + 1 := Finset.mem_range.mp ho
      obtain ⟨hT, hslot⟩ := hkey o (by omega)
      have hd : dist cap start (home (key o)) < cap := dist_lt (by omega)
      have := (between_home hfind hs (by omega) hfree (by omega) hslot (by omega)).1
      exact Finset.mem_filter.mpr ⟨hT, by omega⟩
    · intro o ho o' ho' heq
      have ho : o < j + 1 := Finset.mem_range.mp ho
      have ho' : o' < j + 1 := Finset.mem_range.mp ho'
      have hslot := (hkey o (by omega)).2
      have hslot' := (hkey o' (by omega)).2
      rw [heq] at hslot
      exact eq_of_add_mod (by omega) (by omega) (hfind.eq hslot hslot')
  rw [Finset.card_range] at hle
  omega

theorem taken_of_fills (hfind : Findable slot (path cap limit home)) (hs : start ≤ cap) (hlen : len ≤ cap)
    (hstored : ∀ k ∈ T, ∃ i, slot i = some k) (h : Fills cap start len home T) :
    ∀ o < len, slot ((start + o) % cap) ≠ none := by
  intro o ho hfree
  have hplace : ∀ k ∈ T, ∃ x, x < cap ∧ slot ((start + x) % cap) = some k := by
    intro k hk
    obtain ⟨i, hi⟩ := hstored k hk
    obtain ⟨j, -, hj, -⟩ := exists_of_hit (hfind i k hi)
    refine ⟨dist cap start (home k + j), dist_lt (by omega), ?_⟩
    have := add_dist (h := home k + j) hs 0
    rw [Nat.add_zero, Nat.add_zero] at this
    rw [this, ← hj, hi]
  choose! place hplace using hplace
  have hle : (T.filter fun k => dist cap start (home k) ≤ o).card ≤ (Finset.range o).card := by
    apply Finset.card_le_card_of_injOn place
    · intro k hk
      obtain ⟨hT, hd⟩ := Finset.mem_filter.mp hk
      obtain ⟨hx, hslot⟩ := hplace k hT
      exact Finset.mem_range.mpr (between_home hfind hs (by omega) hfree hx hslot hd).2
    · intro k hk k' hk' heq
      have hslot := (hplace k (Finset.mem_filter.mp hk).1).2
      have hslot' := (hplace k' (Finset.mem_filter.mp hk').1).2
      rw [heq, hslot'] at hslot
      exact (Option.some.inj hslot).symm
  rw [Finset.card_range] at hle
  exact absurd (h o ho) (not_lt.mpr hle)

/-- The other keys can fill all the buckets from some free bucket on up to the end of the key's path. -/
def Crowded (cap limit : ℕ) (home : κ → ℕ) (T : Finset κ) (k : κ) : Prop :=
  ∃ f < cap, dist cap (f + 1) (home k) + limit < cap ∧
    Fills cap (f + 1) (dist cap (f + 1) (home k) + limit) home (T.erase k)

instance : Decidable (Crowded cap limit home T k) :=
  inferInstanceAs (Decidable (∃ f < cap, dist cap (f + 1) (home k) + limit < cap ∧
    Fills cap (f + 1) (dist cap (f + 1) (home k) + limit) home (T.erase k)))

omit [DecidableEq κ] in
theorem mem_path : i ∈ path cap limit home k ↔ ∃ j < limit, (home k + j) % cap = i := by
  simp [path]

/-- While a bucket is free, a probe is exhausted only if the stored keys crowd the key out. -/
theorem crowded_of_exhausted (hfind : Findable slot (path cap limit home))
    (hT : ∀ i k, slot i = some k → k ∈ T) (hfree : ∃ f < cap, slot f = none)
    (hex : probe slot k (path cap limit home k) = .exhausted) : Crowded cap limit home T k := by
  have hpath : ∀ j < limit, slot ((home k + j) % cap) ≠ none := fun j hj hnone =>
    probe_ne_exhausted (mem_path.mpr ⟨j, hj, rfl⟩) (.inl hnone) hex
  have hne : ∀ i, slot i ≠ some k := by
    intro i hi
    rw [hfind i k hi] at hex
    cases hex
  obtain ⟨f₀, hf₀, hnone₀⟩ := hfree
  -- the free bucket that is closest before the home
  obtain ⟨f, hf, hmin⟩ := Finset.exists_min_image ((Finset.range cap).filter fun f => slot f = none)
    (fun f => dist cap (f + 1) (home k)) ⟨f₀, by simp [hf₀, hnone₀]⟩
  obtain ⟨hfc, hnone⟩ := Finset.mem_filter.mp hf
  have hfc : f < cap := Finset.mem_range.mp hfc
  have hstart : f + 1 ≤ cap := hfc
  have hd : dist cap (f + 1) (home k) < cap := dist_lt (by omega)
  have htaken : ∀ o < dist cap (f + 1) (home k) + limit, slot ((f + 1 + o) % cap) ≠ none := by
    intro o ho hno
    by_cases hod : o < dist cap (f + 1) (home k)
    · have hb : (f + 1 + o) % cap < cap := Nat.mod_lt _ (by omega)
      have hcloser : dist cap ((f + 1 + o) % cap + 1) (home k) = dist cap (f + 1) (home k) - o - 1 := by
        apply dist_eq (by omega) (by omega)
        have hhome := add_dist (h := home k) hstart 0
        have hsum : f + 1 + o + (1 + (dist cap (f + 1) (home k) - o - 1)) = f + 1 + dist cap (f + 1) (home k) := by
          omega
        rw [Nat.add_assoc, Nat.mod_add_mod, hsum]
        exact hhome
      have := hmin _ (Finset.mem_filter.mpr ⟨Finset.mem_range.mpr hb, hno⟩)
      omega
    · apply hpath (o - dist cap (f + 1) (home k)) (by omega)
      rw [← add_dist hstart, Nat.add_assoc, Nat.add_sub_cancel' (by omega), hno]
  have hlast : (f + 1 + (cap - 1)) % cap = f := by
    rw [Nat.add_assoc, Nat.add_sub_cancel' (by omega), Nat.add_mod_right, Nat.mod_eq_of_lt hfc]
  have hlt : dist cap (f + 1) (home k) + limit < cap := by
    by_contra hge
    apply htaken (cap - 1) (by omega)
    rw [hlast, hnone]
  refine ⟨f, hfc, hlt, fills_of_taken hfind hfc hlt.le (by rw [hlast, hnone]) fun o ho => ?_⟩
  obtain ⟨k', hk'⟩ := Option.ne_none_iff_exists'.mp (htaken o ho)
  refine ⟨k', Finset.mem_erase.mpr ⟨?_, hT _ _ hk'⟩, hk'⟩
  rintro rfl
  exact hne _ hk'

/-- When all the others are stored, a key that they crowd out finds no bucket. -/
theorem exhausted_of_crowded (hfind : Findable slot (path cap limit home))
    (hstored : ∀ k' ∈ T.erase k, ∃ i, slot i = some k') (hne : ∀ i, slot i ≠ some k)
    (h : Crowded cap limit home T k) : probe slot k (path cap limit home k) = .exhausted := by
  obtain ⟨f, hf, hlt, hfills⟩ := h
  have hstart : f + 1 ≤ cap := hf
  have htaken := taken_of_fills hfind hf hlt.le hstored hfills
  cases hp : probe slot k (path cap limit home k) with
  | exhausted => rfl
  | hit i => exact absurd (slot_of_hit hp).1 (hne i)
  | free i =>
    obtain ⟨hnone, hi⟩ := slot_of_free hp
    obtain ⟨j, hj, rfl⟩ := mem_path.mp hi
    apply absurd hnone
    rw [← add_dist hstart, Nat.add_assoc]
    exact htaken _ (by omega)

/-- Stored keys are no more than there are buckets. -/
theorem card_le_of_stored (hfind : Findable slot (path cap limit home)) (hc : 0 < cap)
    (hstored : ∀ k ∈ T, ∃ i, slot i = some k) : T.card ≤ cap := by
  choose! place hplace using hstored
  rw [← Finset.card_range cap]
  apply Finset.card_le_card_of_injOn place
  · intro k hk
    obtain ⟨j, -, hj, -⟩ := exists_of_hit (hfind _ _ (hplace k hk))
    rw [hj]
    exact Finset.mem_range.mpr (Nat.mod_lt _ hc)
  · intro k hk k' hk' heq
    have hslot := hplace k hk
    rw [heq, hplace k' hk'] at hslot
    exact (Option.some.inj hslot).symm

/-- A table with fewer keys than buckets has a free one. -/
theorem exists_free (hfind : Findable slot (path cap limit home)) (hT : ∀ i k, slot i = some k → k ∈ T)
    (hcard : T.card < cap) : ∃ f < cap, slot f = none := by
  by_contra hall
  push Not at hall
  have htaken : ∀ i, i < cap → ∃ k, slot i = some k := fun i hi => Option.ne_none_iff_exists'.mp (hall i hi)
  have : Nonempty κ := ⟨(htaken 0 (by omega)).choose⟩
  choose! key hkey using htaken
  have hle : (Finset.range cap).card ≤ T.card := by
    apply Finset.card_le_card_of_injOn key
    · intro i hi
      exact hT _ _ (hkey i (Finset.mem_range.mp hi))
    · intro i hi j hj heq
      have hslot := hkey i (Finset.mem_range.mp hi)
      rw [heq] at hslot
      exact hfind.eq hslot (hkey j (Finset.mem_range.mp hj))
  rw [Finset.card_range] at hle
  omega

end LinearProbing

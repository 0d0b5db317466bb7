import Hpps.Feeder.Split

/-! When `RecordIO::Split` keeps the groups of a batch together. -/
namespace Hpps.Feeder.Split

variable {g : ℕ → ℕ} {c c₁ c₂ d d₁ d₂ aux : Column} {raw pre post first second : List Column} {i j n s : ℕ}
  {α : Type}

/-- For each level-0 row the level-1 row of its group. -/
def expand (counts : List ℕ) (rows : List α) : List α := (counts.zip rows).flatMap fun p => List.replicate p.1 p.2

/-- The rows of the level-0 tensor `c`, each with the row of its group in the level-1 tensor `d`. -/
def pairs (raw : List Column) (c d : Column) : List (List ℕ × List ℕ) :=
  (rows c.tensor).zip (expand (countsOf raw) (rows d.tensor))

/-- The counts of a batch are positive, as many as its level-1 rows, and sum to its level-0 rows. -/
structure Consistent (raw : List Column) : Prop where
  pos : ∀ k ∈ countsOf raw, 0 < k
  groups : ∀ c ∈ raw, isAux c.config = false → c.config.level = 1 → (rows c.tensor).length = (countsOf raw).length
  sum : ∀ c ∈ raw, isAux c.config = false → c.config.level = 0 → (rows c.tensor).length = (countsOf raw).sum

/-- The tensors at one place of the batch and of its halves. -/
def At (raw first second : List Column) (i : ℕ) (c c₁ c₂ : Column) : Prop :=
  raw[i]? = some c ∧ first[i]? = some c₁ ∧ second[i]? = some c₂

/-- The halves hold the rows before and after the cut, and no row changes its group. -/
structure SplitsInto (s : ℕ) (raw first second : List Column) : Prop where
  length : first.length = raw.length ∧ second.length = raw.length
  config : ∀ i c c₁ c₂, At raw first second i c c₁ c₂ → c₁.config = c.config ∧ c₂.config = c.config ∧
    c₁.dataType = c.dataType ∧ c₂.dataType = c.dataType
  level₀ : ∀ i c c₁ c₂, At raw first second i c c₁ c₂ → isAux c.config = false → c.config.level = 0 →
    rows c₁.tensor = (rows c.tensor).take s ∧ rows c₂.tensor = (rows c.tensor).drop s
  counts₁ : Consistent first
  counts₂ : Consistent second
  pairs : ∀ i j c c₁ c₂ d d₁ d₂, At raw first second i c c₁ c₂ → At raw first second j d d₁ d₂ →
    isAux c.config = false → isAux d.config = false → c.config.level = 0 → d.config.level = 1 →
    pairs first c₁ d₁ ++ pairs second c₂ d₂ = pairs raw c d

theorem expand_cons {k : ℕ} {ks : List ℕ} {x : α} {xs : List α} :
    expand (k :: ks) (x :: xs) = List.replicate k x ++ expand ks xs := rfl

theorem length_expand {ks : List ℕ} {xs : List α} (h : xs.length = ks.length) : (expand ks xs).length = ks.sum := by
  induction ks generalizing xs with
  | nil => rfl
  | cons k ks ih =>
    cases xs with
    | nil => simp at h
    | cons x xs => rw [expand_cons, List.length_append, List.length_replicate, ih (by simpa using h), List.sum_cons]

theorem expand_append {ks ls : List ℕ} {xs ys : List α} (h : xs.length = ks.length) :
    expand (ks ++ ls) (xs ++ ys) = expand ks xs ++ expand ls ys := by
  rw [expand, List.zip_append h.symm, List.flatMap_append]
  rfl

/-- A cut of the first group splits its copies. -/
theorem expand_cut {a₀ m : ℕ} {xs : List α} (hlen : xs.length = m + 1) (hs : s ≤ a₀) :
    expand [s] (xs.take 1) ++ expand ((a₀ - s) :: List.replicate m a₀) xs = expand (List.replicate (m + 1) a₀) xs ∧
      (expand [s] (xs.take 1)).length = s := by
  cases xs with
  | nil => simp at hlen
  | cons x xs =>
    have hone : expand [s] ((x :: xs).take 1) = List.replicate s x := by simp [expand]
    constructor
    · rw [hone, expand_cons, List.replicate_succ, expand_cons, ← List.append_assoc, ← List.replicate_add,
        Nat.add_sub_cancel' hs]
    · rw [hone, List.length_replicate]

/-- The aux tensor of each half stands where that of the batch does. -/
theorem countsOf_halves {halves : List (Column × Column)} {f : Column × Column → Column}
    (hraw : raw = pre ++ aux :: post) (hpre : ∀ c ∈ pre, isAux c.config = false) (haux : isAux aux.config = true)
    (hlen : halves.length = raw.length)
    (hconfig : ∀ (i : ℕ) (c : Column) (r : Column × Column), raw[i]? = some c → halves[i]? = some r →
      (f r).config = c.config) :
    ∃ r, halves[pre.length]? = some r ∧ countsOf (halves.map f) = counts (f r).tensor := by
  have hlt : pre.length < halves.length := by
    rw [hlen, hraw, List.length_append, List.length_cons]
    omega
  have hget : ∀ (i : ℕ) (c : Column), pre[i]? = some c → raw[i]? = some c := by
    intro i c hi
    rw [hraw, List.getElem?_append_left (List.getElem?_eq_some_iff.mp hi).1, hi]
  refine ⟨halves[pre.length], List.getElem?_eq_getElem hlt, ?_⟩
  have hsplit : halves.map f = (halves.take pre.length).map f ++
      f halves[pre.length] :: (halves.drop (pre.length + 1)).map f := by
    rw [← List.map_cons, ← List.drop_eq_getElem_cons hlt, ← List.map_append, List.take_append_drop]
  rw [hsplit]
  apply countsOf_aux
  · intro c hc
    obtain ⟨r, hr, rfl⟩ := List.mem_map.mp hc
    obtain ⟨i, hi⟩ := List.mem_iff_getElem?.mp hr
    have hip : i < pre.length := by
      have := (List.getElem?_eq_some_iff.mp hi).1
      rw [List.length_take] at this
      omega
    rw [List.getElem?_take_of_lt hip] at hi
    have hpi := List.getElem?_eq_getElem hip
    rw [hconfig i _ r (hget i _ hpi) hi]
    exact hpre _ (List.getElem_mem hip)
  · rw [hconfig pre.length aux _ (by rw [hraw, List.getElem?_append_right le_rfl, Nat.sub_self]; rfl)
      (List.getElem?_eq_getElem hlt)]
    exact haux

/-- The cut is within the first group, and the groups might as well all be of the size of the first. -/
structure CutsFirst (s n : ℕ) (raw : List Column) : Prop where
  lt : s < (countsOf raw).headD 0
  sum : (countsOf raw).length * (countsOf raw).headD 0 = n
  expand : ∀ d ∈ raw, isAux d.config = false → d.config.level = 1 →
    expand (List.replicate (countsOf raw).length ((countsOf raw).headD 0)) (rows d.tensor) =
      expand (countsOf raw) (rows d.tensor)

/-- What a cut of the first group makes of the batch as a whole. -/
structure Cutting (s : ℕ) (raw first second : List Column) : Prop where
  length : first.length = raw.length ∧ second.length = raw.length
  config : ∀ i c c₁ c₂, At raw first second i c c₁ c₂ → c₁.config = c.config ∧ c₂.config = c.config ∧
    c₁.dataType = c.dataType ∧ c₂.dataType = c.dataType
  level₀ : ∀ i c c₁ c₂, At raw first second i c c₁ c₂ → isAux c.config = false → c.config.level = 0 →
    rows c₁.tensor = (rows c.tensor).take s ∧ rows c₂.tensor = (rows c.tensor).drop s
  level₁ : ∀ i c c₁ c₂, At raw first second i c c₁ c₂ → isAux c.config = false → c.config.level = 1 →
    rows c₁.tensor = (rows c.tensor).take 1 ∧ rows c₂.tensor = rows c.tensor
  counts₁ : countsOf first = [s]
  counts₂ : ∀ a₀ rest, countsOf raw = a₀ :: rest → countsOf second = (a₀ - s) :: List.replicate rest.length a₀

theorem cutting_of_lt (h : Grouped n raw) (hs : 0 < s) (hlt : s < (countsOf raw).headD 0) :
    ∃ first second, Split g raw s = .ok (first, second) ∧ Cutting s raw first second := by
  obtain ⟨a₀, rest, hc⟩ := List.exists_cons_of_ne_nil h.nonempty
  rw [hc, List.headD_cons] at hlt
  obtain ⟨halves, hsplit, hlen, hall⟩ := split_grouped (g := g) h hc hs hlt
  obtain ⟨pre, aux, post, hraw, hpre, -, haux, -, -, hp, -⟩ := h.one_aux hc
  have hconfig : ∀ (i : ℕ) (c : Column) (r : Column × Column), raw[i]? = some c → halves[i]? = some r →
      r.1.config = c.config ∧ r.2.config = c.config ∧ r.1.dataType = c.dataType ∧ r.2.dataType = c.dataType := by
    intro i c r hi hr
    have hcut := hall i c r hi hr
    unfold CutOf at hcut
    split at hcut
    · rename_i hca
      refine ⟨hcut.config.1, hcut.config.2, hcut.dataType.1, ?_⟩
      rw [hcut.dataType.2, h.dataType (List.mem_of_getElem? hi) hca]
    · split at hcut <;> exact ⟨hcut.config.1, hcut.config.2, hcut.dataType.1, hcut.dataType.2⟩
  have hat : ∀ i c c₁ c₂, At raw (halves.map Prod.fst) (halves.map Prod.snd) i c c₁ c₂ →
      raw[i]? = some c ∧ halves[i]? = some (c₁, c₂) := by
    rintro i c c₁ c₂ ⟨hi, h₁, h₂⟩
    rw [List.getElem?_map] at h₁ h₂
    obtain ⟨r, hr, rfl⟩ := Option.map_eq_some_iff.mp h₁
    rw [hr] at h₂
    cases h₂
    exact ⟨hi, hr⟩
  rw [List.unzip_eq_map] at hsplit
  refine ⟨_, _, hsplit, ⟨by simpa using hlen, by simpa using hlen⟩, ?_, ?_, ?_, ?_, ?_⟩
  · intro i c c₁ c₂ hi
    obtain ⟨hi, hr⟩ := hat i c c₁ c₂ hi
    exact hconfig i c _ hi hr
  · intro i c c₁ c₂ hi hca hl
    obtain ⟨hi, hr⟩ := hat i c c₁ c₂ hi
    have hcut := hall i c _ hi hr
    rw [CutOf, hca, if_neg Bool.false_ne_true, if_pos hl] at hcut
    exact ⟨hcut.first.2, hcut.second⟩
  · intro i c c₁ c₂ hi hca hl
    obtain ⟨hi, hr⟩ := hat i c c₁ c₂ hi
    have hcut := hall i c _ hi hr
    rw [CutOf, hca, if_neg Bool.false_ne_true, if_neg (by rw [hl]; decide)] at hcut
    exact ⟨hcut.first.2, hcut.second.trans (List.drop_zero ..)⟩
  · obtain ⟨r, hr, hcounts⟩ := countsOf_halves (f := Prod.fst) hraw hpre haux hlen fun i c r hi hr => (hconfig i c r hi hr).1
    have hcut := hall _ _ r hp hr
    rw [CutOf, haux, if_pos rfl] at hcut
    rw [hcounts, hcut.first.2.2]
  · intro a₀' rest' hc'
    rw [hc] at hc'
    cases hc'
    obtain ⟨r, hr, hcounts⟩ := countsOf_halves (f := Prod.snd) hraw hpre haux hlen fun i c r hi hr => (hconfig i c r hi hr).2.1
    have hcut := hall _ _ r hp hr
    rw [CutOf, haux, if_pos rfl] at hcut
    obtain ⟨-, hsize, hblob⟩ := hcut.second
    rw [hcounts, counts, hsize, hblob, List.take_of_length_le (by simp)]

theorem pairs_cut {a₀ m : ℕ} (hc₁ : countsOf first = [s]) (hc₂ : countsOf second = (a₀ - s) :: List.replicate m a₀)
    (h₁ : rows c₁.tensor = (rows c.tensor).take s) (h₂ : rows c₂.tensor = (rows c.tensor).drop s)
    (hd₁ : rows d₁.tensor = (rows d.tensor).take 1) (hd₂ : rows d₂.tensor = rows d.tensor)
    (hlen : (rows d.tensor).length = m + 1) (hs : s ≤ a₀) (hle : s ≤ (rows c.tensor).length) :
    pairs first c₁ d₁ ++ pairs second c₂ d₂ =
      (rows c.tensor).zip (expand (List.replicate (m + 1) a₀) (rows d.tensor)) := by
  obtain ⟨happend, hfirst⟩ := expand_cut hlen hs
  have htake : ((rows c.tensor).take s).length = s := List.length_take_of_le hle
  rw [pairs, pairs, hc₁, hc₂, h₁, h₂, hd₁, hd₂, ← List.zip_append (by rw [htake, hfirst]), List.take_append_drop, happend]

theorem exists_at (hlen : first.length = raw.length ∧ second.length = raw.length) (hc : c ∈ raw) :
    ∃ i c₁ c₂, At raw first second i c c₁ c₂ := by
  obtain ⟨i, hi⟩ : ∃ i : ℕ, raw[i]? = some c := List.mem_iff_getElem?.mp hc
  have hlt := (List.getElem?_eq_some_iff.mp hi).1
  exact ⟨i, first[i], second[i], hi, List.getElem?_eq_getElem (by omega), List.getElem?_eq_getElem (by omega)⟩

theorem exists_at_of_first (hlen : first.length = raw.length ∧ second.length = raw.length) (hc : c₁ ∈ first) :
    ∃ i c c₂, At raw first second i c c₁ c₂ := by
  obtain ⟨i, hi⟩ : ∃ i : ℕ, first[i]? = some c₁ := List.mem_iff_getElem?.mp hc
  have hlt := (List.getElem?_eq_some_iff.mp hi).1
  exact ⟨i, raw[i], second[i], List.getElem?_eq_getElem (by omega), hi, List.getElem?_eq_getElem (by omega)⟩

theorem exists_at_of_second (hlen : first.length = raw.length ∧ second.length = raw.length) (hc : c₂ ∈ second) :
    ∃ i c c₁, At raw first second i c c₁ c₂ := by
  obtain ⟨i, hi⟩ : ∃ i : ℕ, second[i]? = some c₂ := List.mem_iff_getElem?.mp hc
  have hlt := (List.getElem?_eq_some_iff.mp hi).1
  exact ⟨i, raw[i], first[i], List.getElem?_eq_getElem (by omega), List.getElem?_eq_getElem (by omega), hi⟩

theorem Grouped.length_level₀ (h : Grouped n raw) (hc : c ∈ raw) (haux : isAux c.config = false)
    (hl : c.config.level = 0) : (rows c.tensor).length = n := by
  rcases h.columns c hc haux with ⟨-, hr⟩ | ⟨h1, -⟩
  · exact length_rows hr
  · rw [hl] at h1
    exact absurd h1 (by decide)

theorem Grouped.length_level₁ (h : Grouped n raw) (hc : c ∈ raw) (haux : isAux c.config = false)
    (hl : c.config.level = 1) : (rows c.tensor).length = (countsOf raw).length := by
  rcases h.columns c hc haux with ⟨h0, -⟩ | ⟨-, hr⟩
  · rw [hl] at h0
    exact absurd h0 (by decide)
  · exact length_rows hr

/-! ### What the cut keeps -/

section Cut

variable {a₀ : ℕ} {rest : List ℕ} (h : Grouped n raw) (hc : countsOf raw = a₀ :: rest) (hcut : Cutting s raw first second)
include h hc hcut

theorem Cutting.consistent₁ (hs : 0 < s) (hsn : s < n) : Consistent first := by
  refine ⟨?_, fun c₁ hc₁ haux hl => ?_, fun c₁ hc₁ haux hl => ?_⟩
  · rw [hcut.counts₁]
    simpa using hs
  · obtain ⟨i, c, c₂, hat⟩ := exists_at_of_first hcut.length hc₁
    rw [(hcut.config i c c₁ c₂ hat).1] at haux hl
    rw [(hcut.level₁ i c c₁ c₂ hat haux hl).1, hcut.counts₁, List.length_take,
      h.length_level₁ (List.mem_of_getElem? hat.1) haux hl, hc]
    simp
  · obtain ⟨i, c, c₂, hat⟩ := exists_at_of_first hcut.length hc₁
    rw [(hcut.config i c c₁ c₂ hat).1] at haux hl
    rw [(hcut.level₀ i c c₁ c₂ hat haux hl).1, hcut.counts₁, List.length_take,
      h.length_level₀ (List.mem_of_getElem? hat.1) haux hl, List.sum_singleton]
    omega

/-- The counts of the second half are right if its groups are all of the size of the first. -/
theorem Cutting.consistent₂ (hlt : s < a₀) (hsum : (rest.length + 1) * a₀ = n) : Consistent second := by
  rw [Nat.add_mul, one_mul] at hsum
  have hsecond := hcut.counts₂ a₀ rest hc
  refine ⟨?_, fun c₂ hc₂ haux hl => ?_, fun c₂ hc₂ haux hl => ?_⟩
  · rw [hsecond]
    intro k hk
    rcases List.mem_cons.mp hk with rfl | hk
    · omega
    · rw [List.eq_of_mem_replicate hk]
      omega
  · obtain ⟨i, c, c₁, hat⟩ := exists_at_of_second hcut.length hc₂
    rw [(hcut.config i c c₁ c₂ hat).2.1] at haux hl
    rw [(hcut.level₁ i c c₁ c₂ hat haux hl).2, hsecond, h.length_level₁ (List.mem_of_getElem? hat.1) haux hl, hc]
    simp
  · obtain ⟨i, c, c₁, hat⟩ := exists_at_of_second hcut.length hc₂
    rw [(hcut.config i c c₁ c₂ hat).2.1] at haux hl
    rw [(hcut.level₀ i c c₁ c₂ hat haux hl).2, hsecond, List.length_drop,
      h.length_level₀ (List.mem_of_getElem? hat.1) haux hl, List.sum_cons, List.sum_replicate, smul_eq_mul]
    omega

theorem Cutting.sum_of_consistent (hlt : s < a₀) (hsn : s < n) (hsecond : Consistent second) :
    (rest.length + 1) * a₀ = n := by
  obtain ⟨p, hp, hprimary⟩ := h.primary
  obtain ⟨hlevel, haux⟩ := level_of_primary hprimary
  obtain ⟨i, p₁, p₂, hat⟩ := exists_at hcut.length hp
  have hp₂ := (hcut.config i p p₁ p₂ hat).2.1
  have hsum := hsecond.sum p₂ (List.mem_of_getElem? hat.2.2) (by rw [hp₂, haux]) (by rw [hp₂, hlevel])
  rw [(hcut.level₀ i p p₁ p₂ hat haux hlevel).2, List.length_drop, h.length_level₀ hp haux hlevel,
    hcut.counts₂ a₀ rest hc, List.sum_cons, List.sum_replicate, smul_eq_mul] at hsum
  rw [Nat.add_mul, one_mul]
  omega

/-- The halves pair the rows as if all groups were of the size of the first. -/
theorem Cutting.pairs_eq (hlt : s < a₀) (hsn : s < n) (hat : At raw first second i c c₁ c₂)
    (hatd : At raw first second j d d₁ d₂) (haux : isAux c.config = false) (hdaux : isAux d.config = false)
    (hl : c.config.level = 0) (hdl : d.config.level = 1) : pairs first c₁ d₁ ++ pairs second c₂ d₂ =
      (rows c.tensor).zip (expand (List.replicate (rest.length + 1) a₀) (rows d.tensor)) := by
  obtain ⟨hl₁, hl₂⟩ := hcut.level₀ i c c₁ c₂ hat haux hl
  obtain ⟨hg₁, hg₂⟩ := hcut.level₁ j d d₁ d₂ hatd hdaux hdl
  have hlen := h.length_level₀ (List.mem_of_getElem? hat.1) haux hl
  have hdlen := h.length_level₁ (List.mem_of_getElem? hatd.1) hdaux hdl
  rw [hc, List.length_cons] at hdlen
  exact pairs_cut hcut.counts₁ (hcut.counts₂ a₀ rest hc) hl₁ hl₂ hg₁ hg₂ hdlen hlt.le (by omega)

end Cut

/-- Split cuts a grouped batch as it should exactly when it cuts within the first group, and the batch might
as well have groups of equal size. -/
theorem split_keeps_iff (h : Grouped n raw) (hs : 0 < s) (hsn : s < n) :
    (∃ first second, Split g raw s = .ok (first, second) ∧ SplitsInto s raw first second) ↔ CutsFirst s n raw := by
  obtain ⟨a₀, rest, hc⟩ := List.exists_cons_of_ne_nil h.nonempty
  have hhead : (countsOf raw).headD 0 = a₀ := by rw [hc, List.headD_cons]
  have hlength : (countsOf raw).length = rest.length + 1 := by rw [hc, List.length_cons]
  constructor
  · rintro ⟨first, second, hsplit, hinto⟩
    have hlt : s < a₀ := by
      by_contra hge
      rw [split_stops h hc (not_lt.mp hge)] at hsplit
      cases hsplit
    obtain ⟨first', second', hsplit', hcut⟩ := cutting_of_lt (g := g) h hs (hhead ▸ hlt)
    rw [hsplit] at hsplit'
    cases hsplit'
    have hsum := hcut.sum_of_consistent h hc hlt hsn hinto.counts₂
    refine ⟨hhead ▸ hlt, by rw [hhead, hlength, hsum], fun d hd hdaux hdl => ?_⟩
    obtain ⟨p, hp, hprimary⟩ := h.primary
    obtain ⟨hl, haux⟩ := level_of_primary hprimary
    obtain ⟨i, p₁, p₂, hat⟩ := exists_at hcut.length hp
    obtain ⟨j, d₁, d₂, hatd⟩ := exists_at hcut.length hd
    have hpairs := hinto.pairs i j p p₁ p₂ d d₁ d₂ hat hatd haux hdaux hl hdl
    rw [hcut.pairs_eq h hc hlt hsn hat hatd haux hdaux hl hdl, pairs] at hpairs
    have hdlen := h.length_level₁ hd hdaux hdl
    have hplen := h.length_level₀ hp haux hl
    have hsnd := congrArg (List.map Prod.snd) hpairs
    rw [List.map_snd_zip, List.map_snd_zip] at hsnd
    · rw [hhead, hlength, hsnd]
    · rw [length_expand hdlen, h.sum, hplen]
    · rw [length_expand (by rw [hdlen, hlength, List.length_replicate]), List.sum_replicate, smul_eq_mul, hsum, hplen]
  · rintro ⟨hlt, hsum, hexpand⟩
    rw [hhead] at hlt
    rw [hhead, hlength] at hsum
    obtain ⟨first, second, hsplit, hcut⟩ := cutting_of_lt (g := g) h hs (hhead.symm ▸ hlt)
    refine ⟨first, second, hsplit, hcut.length, hcut.config, hcut.level₀, hcut.consistent₁ h hc hs hsn,
      hcut.consistent₂ h hc hlt hsum, ?_⟩
    intro i j c c₁ c₂ d d₁ d₂ hat hatd haux hdaux hl hdl
    rw [hcut.pairs_eq h hc hlt hsn hat hatd haux hdaux hl hdl, pairs,
      ← hexpand d (List.mem_of_getElem? hatd.1) hdaux hdl, hhead, hlength]

/-- A column of numbers, for small tests. -/
def testColumn (level : Int32) (isAuxNumber : Int8) (l : List ℕ) (h : l.length < 2 ^ 31) : Column :=
  ⟨⟨0, level, isAuxNumber⟩, .kUInt32, ⟨[l.length], l.length, l, h⟩⟩

/-- Four rows in two groups of two. -/
def testBatch : List Column :=
  [testColumn 0 0 [1, 2, 3, 4] (by simp), testColumn 0 1 [2, 2] (by simp), testColumn 1 0 [8, 9] (by simp)]

theorem grouped_testBatch : Grouped 4 testBatch where
  aux := ⟨[testColumn 0 0 [1, 2, 3, 4] (by simp)], testColumn 0 1 [2, 2] (by simp), [testColumn 1 0 [8, 9] (by simp)],
    rfl, by decide, rfl, rfl, rfl, rfl, rfl⟩
  columns := by
    simp only [testBatch, List.forall_mem_cons, List.not_mem_nil, false_implies, implies_true, and_true]
    refine ⟨fun _ => .inl ⟨rfl, ⟨[], rfl⟩, by decide, rfl, le_rfl⟩, fun h => absurd h (by decide),
      fun _ => .inr ⟨rfl, ⟨[], rfl⟩, by decide, rfl, le_rfl⟩⟩
  primary := ⟨_, List.mem_cons_self, by decide⟩
  nonempty := by decide
  pos := by decide
  sum := by decide

theorem split_keeps_one : ∃ first second, Split id testBatch 1 = .ok (first, second) ∧ SplitsInto 1 testBatch first second := by
  refine (split_keeps_iff grouped_testBatch (by norm_num) (by norm_num)).mpr ⟨by decide, by decide, ?_⟩
  decide

/-- A cut between the two groups. -/
theorem split_fails : Grouped 4 testBatch ∧
    ¬ ∃ first second, Split id testBatch 2 = .ok (first, second) ∧ SplitsInto 2 testBatch first second := by
  refine ⟨grouped_testBatch, ?_⟩
  rintro ⟨first, second, hsplit, -⟩
  rw [split_stops grouped_testBatch rfl le_rfl] at hsplit
  cases hsplit

end Hpps.Feeder.Split

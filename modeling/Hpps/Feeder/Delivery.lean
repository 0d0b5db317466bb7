import Hpps.Feeder.Concat
import Hpps.Feeder.GroupedSplit
import Hpps.Feeder.Handover

/-! Each record's rows are delivered once, in order, with the features of their groups. -/
namespace Hpps.Feeder

open Bytes Split RecordIo Utils Chunks TransitionSystem

namespace Reader

variable {g : ℕ → ℕ} {items : List (Name × ItemConfig)} {configs : List ItemConfig} {config : ItemConfig}
  {tails : List (List ℕ)} {item first second : List Column} {xs ys rest out all : List (List Column)}
  {last : Option (ℕ × List Column)} {f : List Column → List (List ℕ)} {c c₁ : Column} {r r' : Reader}
  {batch : Batch Column} {i m n p x batchSize : ℕ}

/-! ### Samples with at most one group -/

/-- The only aux column is of type `kUInt32` and of level 0, and the other columns are of level 0 or 1. -/
structure AuxAt (configs : List ItemConfig) (p : ℕ) : Prop where
  aux : ∃ config, configs[p]? = some config ∧ isAux config = true ∧ config.level = 0 ∧ config.type = 0
  others : ∀ (i : ℕ) (config : ItemConfig), configs[i]? = some config → i ≠ p →
    isAux config = false ∧ (config.level = 0 ∨ config.level = 1)

/-- There is a primary column, and either neither aux columns nor levels, or one aux column. -/
structure Layout (configs : List ItemConfig) : Prop where
  primary : ∃ config ∈ configs, IsPrimary config = true
  groups : (∀ config ∈ configs, isAux config = false ∧ config.level = 0) ∨ ∃ p, AuxAt configs p

/-- `m` rows with these trailing dimensions, all of them in one group where there is an aux column. -/
structure Piece (configs : List ItemConfig) (tails : List (List ℕ)) (m : ℕ) (item : List Column) : Prop where
  configs : item.map Column.config = configs
  tails : item.map (fun c => c.tensor.shape.tail) = tails
  level₀ : ∀ c ∈ item, isAux c.config = false → c.config.level = 0 → HasRows m c.tensor
  level₁ : ∀ c ∈ item, isAux c.config = false → c.config.level = 1 → HasRows 1 c.tensor
  aux : ∀ c ∈ item, isAux c.config = true → c.dataType = .kUInt32 ∧ c.tensor.shape = [1] ∧ c.tensor.size = 1 ∧
    counts c.tensor = [m]

/-- A sample, or what a cut leaves of it: the block of the aux tensor has no other element. -/
structure Uniform (configs : List ItemConfig) (tails : List (List ℕ)) (m : ℕ) (item : List Column) : Prop
    extends Piece configs tails m item where
  block : ∀ c ∈ item, isAux c.config = true → c.tensor.blob = [m]

theorem Layout.level (h : Layout configs) (hi : configs[i]? = some config) (haux : isAux config = false) :
    config.level = 0 ∨ config.level = 1 := by
  rcases h.groups with hflat | ⟨p, hp⟩
  · exact .inl (hflat config (List.mem_of_getElem? hi)).2
  · obtain ⟨aux, haux', hisAux, -⟩ := hp.aux
    by_cases hip : i = p
    · subst hip
      cases hi.symm.trans haux'
      rw [haux] at hisAux
      cases hisAux
    · exact (hp.others i config hi hip).2

theorem Piece.fit (h : Piece configs tails m item) : Fit configs item :=
  ⟨h.configs, fun c hc hp => ⟨m, h.level₀ c hc (level_of_primary hp).2 (level_of_primary hp).1⟩⟩

theorem Piece.config_at (h : Piece configs tails m item) (hi : item[i]? = some c) : configs[i]? = some c.config := by
  rw [← h.configs, List.getElem?_map, hi, Option.map_some]

theorem Piece.at (h : Piece configs tails m item) (hi : configs[i]? = some config) :
    ∃ c, item[i]? = some c ∧ c.config = config := by
  rw [← h.configs, List.getElem?_map] at hi
  exact Option.map_eq_some_iff.mp hi

theorem Piece.dims_eq (h : Piece configs tails m item) (i : Primary configs) : dims item i = m := by
  obtain ⟨i, config, hi, hp⟩ := i
  obtain ⟨c, hc, rfl⟩ := h.at hi
  obtain ⟨hl, haux⟩ := level_of_primary hp
  exact dim_of_hasRows hc (h.level₀ c (List.mem_of_getElem? hc) haux hl)

theorem Piece.lt (h : Piece configs tails m item) (hlayout : Layout configs) : m < 2 ^ 31 := by
  obtain ⟨config, hconfig, hp⟩ := hlayout.primary
  rw [← h.configs] at hconfig
  obtain ⟨c, hc, rfl⟩ := List.mem_map.mp hconfig
  obtain ⟨hl, haux⟩ := level_of_primary hp
  exact lt_of_hasRows (h.level₀ c hc haux hl)

/-- All tensors of a column can be laid behind each other. -/
theorem Piece.stackable (h : Piece configs tails m item) (hlayout : Layout configs) (hi : configs[i]? = some config) :
    Stackable i (tails.getD i []) item := by
  obtain ⟨c, hc, rfl⟩ := h.at hi
  have hmem := List.mem_of_getElem? hc
  have htail : c.tensor.shape.tail = tails.getD i [] := by
    rw [← h.tails, List.getD_eq_getElem?_getD, List.getElem?_map, hc, Option.map_some, Option.getD_some]
  cases haux : isAux c.config with
  | true =>
    obtain ⟨-, hshape, hsize, hcounts⟩ := h.aux c hmem haux
    refine ⟨c, 1, hc, ⟨⟨[], hshape⟩, by simp [hshape], by simp [hshape, hsize], ?_⟩, htail⟩
    have hlen := congrArg List.length hcounts
    rw [counts, hsize, List.length_take, List.length_singleton] at hlen
    omega
  | false =>
    rcases hlayout.level hi haux with hl | hl
    · exact ⟨c, m, hc, h.level₀ c hmem haux hl, htail⟩
    · exact ⟨c, 1, hc, h.level₁ c hmem haux hl, htail⟩

/-- A sample can be cut between any two of its rows. -/
theorem Uniform.cutsAt (h : Uniform configs tails m item) (hlayout : Layout configs) (hx : x < m) : CutsAt x item := by
  have hindex : ∀ c ∈ item, ∃ i : ℕ, item[i]? = some c ∧ configs[i]? = some c.config := by
    intro c hc
    obtain ⟨i, hi⟩ := List.mem_iff_getElem?.mp hc
    exact ⟨i, hi, h.config_at hi⟩
  refine ⟨?_, fun c hc haux => ?_⟩
  · rcases hlayout.groups with hflat | ⟨p, hp⟩
    · refine .inl fun c hc => ?_
      obtain ⟨i, -, hi⟩ := hindex c hc
      exact hflat c.config (List.mem_of_getElem? hi)
    · obtain ⟨config, hconfig, haux, hlevel, -⟩ := hp.aux
      obtain ⟨c, hc, rfl⟩ := h.at hconfig
      have hmem := List.mem_of_getElem? hc
      have hlt := h.lt hlayout
      refine .inr ⟨p, c, m, [], hc, fun i c' hi haux' => ?_, haux, hlevel, (h.aux c hmem haux).1, h.block c hmem haux,
        by omega, hx⟩
      by_contra hne
      rw [(hp.others i _ (h.config_at hi) hne).1] at haux'
      cases haux'
  · obtain ⟨i, -, hi⟩ := hindex c hc
    rcases hlayout.level hi haux with hl | hl
    · exact ⟨m, h.level₀ c hc haux hl, .inl ⟨hl, hx⟩⟩
    · exact ⟨1, h.level₁ c hc haux hl, .inr hl⟩

theorem CutInto.piece (h : CutInto x item first second) (hu : Uniform configs tails m item) (hlayout : Layout configs) :
    Piece configs tails x first ∧ Uniform configs tails (m - x) second := by
  have hlevel : ∀ c ∈ item, isAux c.config = false → c.config.level = 0 ∨ c.config.level = 1 := by
    intro c hc haux
    obtain ⟨i, hi⟩ := List.mem_iff_getElem?.mp hc
    exact hlayout.level (hu.config_at hi) haux
  obtain ⟨hconfigs₁, hconfigs₂⟩ := h.map_eq fun c _ c₁ c₂ hcut => hcut.config
  have hblock : ∀ {c c₁ c₂}, c ∈ item → isAux c.config = true → ColumnCut x c (c₁, c₂) → AuxCut x m 0 c (c₁, c₂) := by
    intro c c₁ c₂ hc haux hcut
    obtain ⟨a₀, rest, hb, haux⟩ := hcut.auxCut haux
    rw [hu.block c hc ‹_›] at hb
    cases hb
    exact haux
  obtain ⟨htails₁, htails₂⟩ := h.map_eq (f := fun c => c.tensor.shape.tail) fun c hc c₁ c₂ hcut => by
    cases haux : isAux c.config with
    | true =>
      have hcut := hblock hc haux hcut
      rw [hcut.first.1, hcut.second.1, (hu.aux c hc haux).2.1]
      exact ⟨rfl, rfl⟩
    | false =>
      rcases hlevel c hc haux with hl | hl
      · exact (hcut.level₀ haux hl).tail
      · exact (hcut.level₁ haux hl).tail
  refine ⟨⟨hconfigs₁.trans hu.configs, htails₁.trans hu.tails, ?_, ?_, ?_⟩,
    ⟨hconfigs₂.trans hu.configs, htails₂.trans hu.tails, ?_, ?_, ?_⟩, ?_⟩
  · intro c₁ hc₁ haux hl
    obtain ⟨i, c, c₂, hc, -, -, hcut⟩ := h.of_first hc₁
    rw [hcut.config.1] at haux hl
    exact (hcut.level₀ haux hl).first.1
  · intro c₁ hc₁ haux hl
    obtain ⟨i, c, c₂, hc, -, -, hcut⟩ := h.of_first hc₁
    rw [hcut.config.1] at haux hl
    exact (hcut.level₁ haux hl).first.1
  · intro c₁ hc₁ haux
    obtain ⟨i, c, c₂, hc, -, -, hcut⟩ := h.of_first hc₁
    rw [hcut.config.1] at haux
    have hmem := List.mem_of_getElem? hc
    have hcut := hblock hmem haux hcut
    exact ⟨hcut.dataType.1.trans (hu.aux c hmem haux).1, hcut.first⟩
  · intro c₂ hc₂ haux hl
    obtain ⟨i, c, c₁, hc, -, -, hcut⟩ := h.of_second hc₂
    rw [hcut.config.2] at haux hl
    exact (hcut.level₀ haux hl).hasRows m (hu.level₀ c (List.mem_of_getElem? hc) haux hl)
  · intro c₂ hc₂ haux hl
    obtain ⟨i, c, c₁, hc, -, -, hcut⟩ := h.of_second hc₂
    rw [hcut.config.2] at haux hl
    exact (hcut.level₁ haux hl).hasRows 1 (hu.level₁ c (List.mem_of_getElem? hc) haux hl)
  · intro c₂ hc₂ haux
    obtain ⟨i, c, c₁, hc, -, -, hcut⟩ := h.of_second hc₂
    rw [hcut.config.2] at haux
    have hcut := hblock (List.mem_of_getElem? hc) haux hcut
    obtain ⟨hshape, hsize, hb⟩ := hcut.second
    exact ⟨hcut.dataType.2, hshape, hsize, by rw [counts, hb, hsize]; rfl⟩
  · intro c₂ hc₂ haux
    obtain ⟨i, c, c₁, hc, -, -, hcut⟩ := h.of_second hc₂
    rw [hcut.config.2] at haux
    exact (hblock (List.mem_of_getElem? hc) haux hcut).second.2.2

/-! ### What the rows of a batch have in a column -/

/-- The features that the rows have in common with the others of their group. -/
def commonAt (i : ℕ) (item : List Column) : List (List ℕ) := expand (countsOf item) (rowsAt i item)

/-- One value for each row, that a cut leaves to the row. -/
structure PerRow (configs : List ItemConfig) (tails : List (List ℕ)) (f : List Column → List (List ℕ)) : Prop where
  length : ∀ m item, Piece configs tails m item → (f item).length = m
  cut : ∀ x m item first second, Uniform configs tails m item → x ≤ m → CutInto x item first second →
    f first ++ f second = f item

theorem rowsAt_of {c : Column} (hi : item[i]? = some c) : rowsAt i item = rows c.tensor := by
  rw [rowsAt, hi, Option.map_some, Option.getD_some]

theorem perRow_rowsAt (hi : configs[i]? = some config) (haux : isAux config = false) (hl : config.level = 0) :
    PerRow configs tails (rowsAt i) := by
  refine ⟨fun m item h => ?_, fun x m item first second h hx hcut => ?_⟩
  · obtain ⟨c, hc, rfl⟩ := h.at hi
    rw [rowsAt_of hc, length_rows (h.level₀ c (List.mem_of_getElem? hc) haux hl)]
  · obtain ⟨c, hc, rfl⟩ := h.at hi
    obtain ⟨c₁, c₂, h₁, h₂, hcut⟩ := hcut.at hc
    have hhalves := hcut.level₀ haux hl
    rw [rowsAt_of hc, rowsAt_of h₁, rowsAt_of h₂, hhalves.first.2, hhalves.second, List.take_append_drop]

theorem perRow_primary (hi : configs[i]? = some config) (hp : IsPrimary config = true) :
    PerRow configs tails (rowsAt i) := by
  obtain ⟨hl, haux⟩ : config.level = 0 ∧ isAux config = false := by simpa [IsPrimary, isAux] using hp
  exact perRow_rowsAt hi haux hl

/-- The only group of a batch. -/
theorem Piece.countsOf (h : Piece configs tails m item) (hp : AuxAt configs p) : countsOf item = [m] := by
  obtain ⟨config, hconfig, haux, -⟩ := hp.aux
  obtain ⟨c, hc, rfl⟩ := h.at hconfig
  obtain ⟨c', hc'⟩ : ∃ c', item.find? (fun c => isAux c.config) = some c' :=
    Option.isSome_iff_exists.mp (List.find?_isSome.mpr ⟨c, List.mem_of_getElem? hc, haux⟩)
  have haux' : isAux c'.config = true := List.find?_some (p := fun c : Column => isAux c.config) hc'
  rw [Split.countsOf, hc', Option.map_some, Option.getD_some]
  exact (h.aux c' (List.mem_of_find?_eq_some hc') haux').2.2.2

theorem Piece.commonAt (h : Piece configs tails m item) (hp : AuxAt configs p) (hc : item[i]? = some c)
    (haux : isAux c.config = false) (hl : c.config.level = 1) :
    ∃ row, rows c.tensor = [row] ∧ commonAt i item = List.replicate m row := by
  obtain ⟨row, hrow⟩ := List.length_eq_one_iff.mp (length_rows (h.level₁ c (List.mem_of_getElem? hc) haux hl))
  refine ⟨row, hrow, ?_⟩
  rw [Reader.commonAt, h.countsOf hp, rowsAt_of hc, hrow, expand_cons]
  exact List.append_nil _

theorem perRow_commonAt (hlayout : Layout configs) (hp : AuxAt configs p) (hi : configs[i]? = some config)
    (haux : isAux config = false) (hl : config.level = 1) : PerRow configs tails (commonAt i) := by
  refine ⟨fun m item h => ?_, fun x m item first second h hx hcut => ?_⟩
  · obtain ⟨c, hc, rfl⟩ := h.at hi
    obtain ⟨row, -, hcommon⟩ := h.commonAt hp hc haux hl
    rw [hcommon, List.length_replicate]
  · obtain ⟨hpiece, hrest⟩ := hcut.piece h hlayout
    obtain ⟨c, hc, rfl⟩ := h.at hi
    obtain ⟨c₁, c₂, h₁, h₂, hcut⟩ := hcut.at hc
    obtain ⟨row, hrow, hcommon⟩ := h.commonAt hp hc haux hl
    obtain ⟨row₁, hrow₁, hcommon₁⟩ := hpiece.commonAt hp h₁ (hcut.config.1 ▸ haux) (hcut.config.1 ▸ hl)
    obtain ⟨row₂, hrow₂, hcommon₂⟩ := hrest.commonAt hp h₂ (hcut.config.2 ▸ haux) (hcut.config.2 ▸ hl)
    have hhalves := hcut.level₁ haux hl
    rw [hhalves.first.2, hrow] at hrow₁
    rw [hhalves.second, hrow] at hrow₂
    cases hrow₁
    cases hrow₂
    rw [hcommon, hcommon₁, hcommon₂, ← List.replicate_add, Nat.add_sub_cancel' hx]

/-! ### What is read for one batch -/

theorem PerRow.length_flatMap (hf : PerRow configs tails f) (hxs : ∀ x ∈ xs, ∃ m, Piece configs tails m x)
    (i : Primary configs) : (xs.flatMap f).length = (xs.map fun x => dims x i).sum := by
  rw [List.length_flatMap]
  congr 1
  refine List.map_congr_left fun x hx => ?_
  obtain ⟨m, hm⟩ := hxs x hx
  rw [hf.length m x hm, hm.dims_eq]

/-- What is returned and what is left are the rows in their order. -/
theorem Returns.pieces (h : Returns ys last rest out xs)
    {xs₀ : List (List Column)} (ht : Takes dims CutsAt xs₀ (fun _ : Primary configs => batchSize) ys last rest)
    (hxs : ∀ x ∈ xs₀, ∃ m, Uniform configs tails m x) (hlayout : Layout configs) :
    (∀ y ∈ out, ∃ m, Piece configs tails m y) ∧ (∀ x ∈ xs, ∃ m, Uniform configs tails m x) ∧
      ∀ f, PerRow configs tails f → out.flatMap f ++ xs.flatMap f = xs₀.flatMap f := by
  obtain ⟨hys, hrest, hlast⟩ := ht.mem
  have hpiece : ∀ y ∈ ys, ∃ m, Piece configs tails m y := by
    intro y hy
    obtain ⟨m, hm⟩ := hxs y (hys y hy)
    exact ⟨m, hm.toPiece⟩
  rw [ht.eq_append]
  cases h with
  | whole => exact ⟨hpiece, fun x hx => hxs x (hrest x hx), fun f _ => by simp⟩
  | @cut rest x z first second hcut =>
    obtain ⟨hz, -, hlt, -⟩ := hlast _ _ rfl
    obtain ⟨m, hm⟩ := hxs z hz
    obtain ⟨hfirst, hsecond⟩ := hcut.piece hm hlayout
    have hx := hlt (firstPrimary hlayout.primary)
    rw [hm.dims_eq] at hx
    refine ⟨fun y hy => ?_, List.forall_mem_cons.mpr ⟨⟨_, hsecond⟩, fun x hx => hxs x (hrest x hx)⟩, fun f hf => ?_⟩
    · rcases List.mem_append.mp hy with hy | hy
      · exact hpiece y hy
      · obtain rfl := List.mem_singleton.mp hy
        exact ⟨_, hfirst⟩
    · simp only [List.flatMap_append, List.flatMap_cons, List.flatMap_nil, List.append_nil, Option.map_some,
        Option.toList_some, ← hf.cut x m z first second hm hx.le hcut, List.append_assoc]

theorem perRow_first (hlayout : Layout configs) : PerRow configs tails (rowsAt (firstPrimary hlayout.primary).1) := by
  obtain ⟨config, hi, hp⟩ := (firstPrimary hlayout.primary).2
  exact perRow_primary hi hp

/-- The record without its first `n` rows is left. -/
structure Remains (items : List (Name × ItemConfig)) (tails : List (List ℕ)) (all : List (List Column)) (n : ℕ)
    (r : Reader) : Prop where
  reader : ∃ xs, Holds items xs r ∧ (∀ x ∈ xs, ∃ m, Uniform (items.map Prod.snd) tails m x) ∧
    ∀ f, PerRow (items.map Prod.snd) tails f → xs.flatMap f = (all.flatMap f).drop n

/-- The rows of the next batch are read. -/
theorem Remains.reads (h : Remains items tails all n r) (hlayout : Layout (items.map Prod.snd))
    (hle : ∀ f, PerRow (items.map Prod.snd) tails f → n + batchSize ≤ (all.flatMap f).length) :
    ∃ out r', readBatchTensor g batchSize r = .ok (out, r') ∧ Remains items tails all (n + batchSize) r' ∧
      (∀ y ∈ out, ∃ m, Piece (items.map Prod.snd) tails m y) ∧
      ∀ f, PerRow (items.map Prod.snd) tails f →
        out.flatMap f = ((all.flatMap f).drop n).take batchSize ∧ (out.flatMap f).length = batchSize := by
  obtain ⟨xs, hholds, hxs, hrows⟩ := h.reader
  have hp := hlayout.primary
  have hpieces : ∀ x ∈ xs, ∃ m, Piece (items.map Prod.snd) tails m x := by
    intro x hx
    obtain ⟨m, hm⟩ := hxs x hx
    exact ⟨m, hm.toPiece⟩
  have hfit : ∀ x ∈ xs, Fit (items.map Prod.snd) x := by
    intro x hx
    obtain ⟨m, hm⟩ := hpieces x hx
    exact hm.fit
  have hfirst : PerRow (items.map Prod.snd) tails (rowsAt (firstPrimary hp).1) := perRow_first hlayout
  have hreach : Reaches (dims : List Column → Primary (items.map Prod.snd) → ℕ) CutsAt xs fun _ => batchSize := by
    refine reaches_of_uniform (m := fun x => dims x (firstPrimary hp)) (fun x hx i => ?_) (fun x hx y _ hy => ?_) ?_
    · obtain ⟨m, hm⟩ := hpieces x hx
      rw [hm.dims_eq, hm.dims_eq]
    · obtain ⟨m, hm⟩ := hxs x hx
      rw [hm.dims_eq] at hy
      exact hm.cutsAt hlayout hy
    · rw [← hfirst.length_flatMap hpieces, hrows _ hfirst, List.length_drop]
      have := hle _ hfirst
      omega
  obtain ⟨ys, last, rest, ht⟩ := hreach
  obtain ⟨out, r', xs', hread, hholds', hreturns⟩ := readBatchTensor_takes (g := g) hp ht hfit hholds
  obtain ⟨hout, hxs', happend⟩ := hreturns.pieces ht hxs hlayout
  obtain ⟨hsum, -⟩ := hreturns.rows ht hfit
  have hlen : ∀ f, PerRow (items.map Prod.snd) tails f → (out.flatMap f).length = batchSize := fun f hf =>
    (hf.length_flatMap hout (firstPrimary hp)).trans (hsum _)
  refine ⟨out, r', hread, ⟨xs', hholds', hxs', fun f hf => ?_⟩, hout, fun f hf => ⟨?_, hlen f hf⟩⟩
  · rw [← List.drop_drop, ← hrows f hf, ← happend f hf, List.drop_left' (hlen f hf)]
  · rw [← hrows f hf, ← happend f hf, List.take_left' (hlen f hf)]

/-! ### What is delivered -/

/-- The batch has in its primary columns the rows of the record from `n` on, and for each of them the indices that
Num2Indices makes of the aux column lead to the features of its group. -/
structure Delivers (g : ℕ → ℕ) (configs : List ItemConfig) (all : List (List Column)) (n batchSize : ℕ)
    (batch : Batch Column) : Prop where
  rows : ∀ (i : ℕ) (config : ItemConfig), configs[i]? = some config → IsPrimary config = true →
    ∃ c, batch.getAt i = .ok (some c) ∧ rows c.tensor = ((all.flatMap (rowsAt i)).drop n).take batchSize
  common : ∀ (p i : ℕ) (aux config : ItemConfig), configs[p]? = some aux → isAux aux = true →
    configs[i]? = some config → isAux config = false → config.level = 1 → ∃ a c u, batch.getAt p = .ok (some a) ∧
      batch.getAt i = .ok (some c) ∧ num2Indices g ⟨a.dataType, a.tensor⟩ = .ok ⟨.kUInt32, u⟩ ∧
      (Utils.elements u).map (fun j => (Split.rows c.tensor)[j]?) = (((all.flatMap (commonAt i)).drop n).take batchSize).map some

/-- The columns of a batch that could be made. -/
theorem columns_of_batch {b : Batch Column} (hlayout : Layout (items.map Prod.snd))
    (hout : ∀ y ∈ out, ∃ m, Piece (items.map Prod.snd) tails m y) (hne : out ≠ [])
    (h : batchTensor2Batch g items out b = .ok batch) (hi : (items.map Prod.snd)[i]? = some config) :
    ∃ c, batch.getAt i = .ok (some c) ∧ c.config = config ∧ Column.Holds items out i (tails.getD i []) c := by
  obtain ⟨first, rest, rfl⟩ := List.exists_cons_of_ne_nil hne
  obtain ⟨m, hfirst⟩ := hout first List.mem_cons_self
  have hlt : i < first.length := by
    obtain ⟨c, hc, -⟩ := hfirst.at hi
    exact (List.getElem?_eq_some_iff.mp hc).1
  obtain ⟨c, hc, hget⟩ := batchTensor2Batch_ok rfl h hlt
  have hholds := batchColumn_holds (fun y hy => by
    obtain ⟨m, hm⟩ := hout y hy
    exact hm.stackable hlayout hi) hc
  obtain ⟨name, hname⟩ := hholds.config
  rw [List.getElem?_map, hname, Option.map_some] at hi
  cases hi
  exact ⟨c, hget, rfl, hholds⟩

theorem ne_nil_of_rows (hlayout : Layout configs) (hpos : 0 < batchSize)
    (hlen : ∀ f, PerRow configs tails f → (out.flatMap f).length = batchSize) : out ≠ [] := by
  rintro rfl
  have := hlen _ (perRow_first hlayout)
  rw [List.flatMap_nil, List.length_nil] at this
  omega

theorem expand_pieces (hout : ∀ y ∈ out, ∃ m, Piece configs tails m y) (hp : AuxAt configs p)
    (hi : configs[i]? = some config) (haux : isAux config = false) (hl : config.level = 1) :
    (out.flatMap (rowsAt i)).length = (out.flatMap (block p)).length ∧
      expand (out.flatMap (block p)) (out.flatMap (rowsAt i)) = out.flatMap (commonAt i) := by
  induction out with
  | nil => exact ⟨rfl, rfl⟩
  | cons y out ih =>
    rw [List.forall_mem_cons] at hout
    obtain ⟨hlen, hexpand⟩ := ih hout.2
    obtain ⟨m, hm⟩ := hout.1
    obtain ⟨aux, hconfig, haux', -⟩ := hp.aux
    obtain ⟨a, ha, rfl⟩ := hm.at hconfig
    obtain ⟨c, hc, rfl⟩ := hm.at hi
    have hblock : block p y = [m] := by
      rw [block, ha, Option.map_some, Option.getD_some]
      exact (hm.aux a (List.mem_of_getElem? ha) haux').2.2.2
    have hrows : (rowsAt i y).length = [m].length := by
      rw [rowsAt_of hc, length_rows (hm.level₁ c (List.mem_of_getElem? hc) haux hl), List.length_singleton]
    simp only [List.flatMap_cons, List.length_append, hblock, hlen, hrows, expand_append hrows, hexpand, true_and]
    rw [commonAt, hm.countsOf hp]

/-- The indices lead to the row of each group as often as the group has rows. -/
theorem gather_expandFrom {α : Type} {ks : List ℕ} {l pre : List α} (h : l.length = ks.length) :
    (expandFrom pre.length ks).map (fun j => (pre ++ l)[j]?) = (expand ks l).map some := by
  induction ks generalizing l pre with
  | nil => rfl
  | cons k ks ih =>
    cases l with
    | nil => simp at h
    | cons a l =>
      have hrest := @ih l (pre ++ [a]) (by simpa using h)
      rw [List.length_append, List.length_singleton, List.append_assoc, List.singleton_append] at hrest
      rw [expandFrom, expand_cons, List.map_append, List.map_append, hrest, List.map_replicate, List.map_replicate,
        List.getElem?_append_right le_rfl, Nat.sub_self, List.getElem?_cons_zero]

theorem Column.Holds.gathered {a c : Column} {ds ds' : List ℕ} (ha : Column.Holds items out p ds a)
    (hc : Column.Holds items out i ds' c) (hlen : (out.flatMap (rowsAt i)).length = (out.flatMap (block p)).length)
    (htype : a.dataType = .kUInt32) (hpos : 0 < (expand (out.flatMap (block p)) (out.flatMap (rowsAt i))).length)
    (hlt : (expand (out.flatMap (block p)) (out.flatMap (rowsAt i))).length < 2 ^ 31) :
    ∃ u, num2Indices g ⟨a.dataType, a.tensor⟩ = .ok ⟨.kUInt32, u⟩ ∧
      (Utils.elements u).map (fun j => (Split.rows c.tensor)[j]?) =
        (expand (out.flatMap (block p)) (out.flatMap (rowsAt i))).map some := by
  have helements : Utils.elements a.tensor = out.flatMap (block p) := by
    rw [Utils.elements, ha.size, List.take_length, ha.blob]
  rw [length_expand hlen] at hpos hlt
  obtain ⟨u, hu, hindices⟩ := @num2Indices_eq g ⟨a.dataType, a.tensor⟩ ha.size.le htype
    (by rw [helements]; omega) (by rw [helements]; omega)
  refine ⟨u, hu, ?_⟩
  rw [hindices.elements_eq, hc.rows, helements]
  exact @gather_expandFrom _ _ _ [] hlen

theorem Layout.aux_at (h : Layout configs) (hp : configs[p]? = some config) (haux : isAux config = true) :
    AuxAt configs p := by
  rcases h.groups with hflat | ⟨q, hq⟩
  · rw [(hflat config (List.mem_of_getElem? hp)).1] at haux
    cases haux
  · by_cases hne : p = q
    · exact hne ▸ hq
    · rw [(hq.others p config hp hne).1] at haux
      cases haux

theorem AuxAt.dataType {a : Column} (h : AuxAt configs p) (hp : configs[p]? = some a.config)
    (htype : toDataType a.config.type = .ok a.dataType) : a.dataType = .kUInt32 := by
  obtain ⟨config, hconfig, -, -, hzero⟩ := h.aux
  cases hp.symm.trans hconfig
  rw [hzero, show toDataType 0 = .ok .kUInt32 from rfl] at htype
  exact (Except.ok.inj htype).symm

/-- What is made of the rows that were read. -/
theorem delivers_of_out {b : Batch Column} (hlayout : Layout (items.map Prod.snd)) (hpos : 0 < batchSize)
    (hout : ∀ y ∈ out, ∃ m, Piece (items.map Prod.snd) tails m y)
    (hrows : ∀ f, PerRow (items.map Prod.snd) tails f →
      out.flatMap f = ((all.flatMap f).drop n).take batchSize ∧ (out.flatMap f).length = batchSize)
    (hbatch : batchTensor2Batch g items out b = .ok batch) : Delivers g (items.map Prod.snd) all n batchSize batch := by
  have hne := ne_nil_of_rows hlayout hpos fun f hf => (hrows f hf).2
  refine ⟨fun i config hi hp => ?_, fun p i aux config hp hisAux hi haux hl => ?_⟩
  · obtain ⟨c, hget, -, hc⟩ := columns_of_batch hlayout hout hne hbatch hi
    exact ⟨c, hget, hc.rows.trans (hrows _ (perRow_primary hi hp)).1⟩
  · have hq := hlayout.aux_at hp hisAux
    obtain ⟨a, hgeta, rfl, ha⟩ := columns_of_batch hlayout hout hne hbatch hp
    obtain ⟨c, hgetc, rfl, hc⟩ := columns_of_batch hlayout hout hne hbatch hi
    obtain ⟨hcommon, hlen⟩ := hrows _ (perRow_commonAt hlayout hq hi haux hl)
    obtain ⟨hsame, hexpand⟩ := expand_pieces hout hq hi haux hl
    have hlt : batchSize < 2 ^ 31 := by
      obtain ⟨config, hi, hprimary⟩ := (firstPrimary hlayout.primary).2
      obtain ⟨d, -, -, hd⟩ := columns_of_batch hlayout hout hne hbatch hi
      rw [← (hrows _ (perRow_primary hi hprimary)).2, ← hd.rows, length_rows hd.hasRows]
      exact lt_of_hasRows hd.hasRows
    rw [← hexpand] at hlen
    obtain ⟨u, hu, hgather⟩ := ha.gathered (g := g) hc hsame (hq.dataType hp ha.dataType) (by omega) (by omega)
    refine ⟨a, c, u, hgeta, hgetc, hu, ?_⟩
    rw [hgather, hexpand, hcommon]

theorem assembleBatch_delivers (h : Remains items tails all n r) (hlayout : Layout (items.map Prod.snd))
    (hpos : 0 < batchSize) (hle : ∀ f, PerRow (items.map Prod.snd) tails f → n + batchSize ≤ (all.flatMap f).length)
    (hok : assembleBatch g batchSize r = .ok (batch, r')) :
    Delivers g (items.map Prod.snd) all n batchSize batch ∧ Remains items tails all (n + batchSize) r' := by
  obtain ⟨xs, hholds, -⟩ := h.reader
  obtain ⟨out, r₁, hread, hremains, hout, hrows⟩ := h.reads (g := g) hlayout hle
  rw [assembleBatch, hread, ok_bind] at hok
  obtain ⟨batch', hbatch, hok⟩ := bind_eq_ok.mp hok
  cases hok
  rw [hholds.same] at hbatch
  exact ⟨delivers_of_out hlayout hpos hout hrows hbatch, hremains⟩

/-- All types are known, and each column of a batch has fewer than `2 ^ 31` elements. -/
def FitsBlocks (configs : List ItemConfig) (tails : List (List ℕ)) (batchSize : ℕ) : Prop :=
  ∀ (i : ℕ) (config : ItemConfig), configs[i]? = some config →
    (∃ dataType, toDataType config.type = .ok dataType) ∧ batchSize * (tails.getD i []).prod < 2 ^ 31

theorem Piece.dim_le (h : Piece configs tails m item) (hlayout : Layout configs) (hi : configs[i]? = some config) :
    dim item i ≤ dims item (firstPrimary hlayout.primary) := by
  have hpos := Fit.dims_pos h.fit (firstPrimary hlayout.primary)
  obtain ⟨c, hc, rfl⟩ := h.at hi
  have hmem := List.mem_of_getElem? hc
  cases haux : isAux c.config with
  | true =>
    rw [dim, hc, Option.map_some, Option.getD_some, (h.aux c hmem haux).2.1]
    exact hpos
  | false =>
    rcases hlayout.level hi haux with hl | hl
    · rw [dim_of_hasRows hc (h.level₀ c hmem haux hl), h.dims_eq]
    · rw [dim_of_hasRows hc (h.level₁ c hmem haux hl)]
      exact hpos

/-- The process does not end while the batch is made. -/
theorem assembleBatch_eq (h : Remains items tails all n r) (hlayout : Layout (items.map Prod.snd)) (hpos : 0 < batchSize)
    (hle : ∀ f, PerRow (items.map Prod.snd) tails f → n + batchSize ≤ (all.flatMap f).length)
    (hfits : FitsBlocks (items.map Prod.snd) tails batchSize) : ∃ p, assembleBatch g batchSize r = .ok p := by
  obtain ⟨xs, hholds, -⟩ := h.reader
  obtain ⟨out, r', hread, -, hout, hrows⟩ := h.reads (g := g) hlayout hle
  have hfirst : PerRow (items.map Prod.snd) tails (rowsAt (firstPrimary hlayout.primary).1) := perRow_first hlayout
  have hsum : (out.map fun y => dims y (firstPrimary hlayout.primary)).sum = batchSize :=
    (hfirst.length_flatMap hout _).symm.trans (hrows _ hfirst).2
  have hne := ne_nil_of_rows hlayout hpos fun f hf => (hrows f hf).2
  have hcolumn : ∀ col < items.length, ∃ c, batchColumn g items out col = .ok c := by
    intro col hcol
    have hi : (items.map Prod.snd)[col]? = some items[col].2 := by
      rw [List.getElem?_map, List.getElem?_eq_getElem hcol, Option.map_some]
    obtain ⟨⟨dataType, htype⟩, hlt⟩ := hfits col _ hi
    have hstack : ∀ y ∈ out, Stackable col (tails.getD col []) y := by
      intro y hy
      obtain ⟨m, hm⟩ := hout y hy
      exact hm.stackable hlayout hi
    have hdims : (out.map fun y => dim y col).sum ≤ batchSize := by
      rw [← hsum]
      refine List.sum_le_sum fun y hy => ?_
      obtain ⟨m, hm⟩ := hout y hy
      exact hm.dim_le hlayout hi
    exact batchColumn_eq hstack hne (List.getElem?_eq_getElem hcol) htype ((Nat.mul_le_mul_right _ hdims).trans_lt hlt)
  obtain ⟨first, rest, rfl⟩ := List.exists_cons_of_ne_nil hne
  obtain ⟨m, hm⟩ := hout first List.mem_cons_self
  have hlen : first.length = items.length := by
    have := congrArg List.length hm.configs
    rwa [List.length_map, List.length_map] at this
  have hnames : (Batch.new r.recordIo.names : Batch Column).tensors.length = items.length := by
    rw [Batch.new, List.length_replicate, names, List.length_map, hholds.same]
  rw [← hlen] at hcolumn
  obtain ⟨batch, hbatch, -⟩ := setColumns_eq (b := Batch.new r.recordIo.names) hcolumn (by omega)
  refine ⟨(batch, r'), ?_⟩
  rw [assembleBatch, hread, ok_bind]
  dsimp only
  rw [batchTensor2Batch, List.head?_cons, orStop_eq_ok rfl, ok_bind, hholds.same, hbatch]
  rfl

/-! ### Runs -/

/-- A record of such samples that was just opened, with their number of rows in its header. -/
structure WellFormed (tails : List (List ℕ)) (all : List (List Column)) (record : SampleRecord Reader) : Prop where
  layout : Layout (record.recordIo.recordIo.items.map Prod.snd)
  cache : record.recordIo.cache = []
  stored : Provides (readColumns record.recordIo.recordIo.items) record.recordIo.recordIo.stream all
  uniform : ∀ item ∈ all, ∃ m, Uniform (record.recordIo.recordIo.items.map Prod.snd) tails m item
  count : ∀ i : Primary (record.recordIo.recordIo.items.map Prod.snd),
    (all.map fun item => dims item i).sum = record.sampleCount

variable {plans : List (Plan Reader)} {plan : Plan Reader} {record : SampleRecord Reader} {T id k : ℕ} {t : Fin T}
  {task : Task Reader} {s : FeederState Reader (Batch Column) T}

theorem WellFormed.length (h : WellFormed tails all record)
    (hf : PerRow (record.recordIo.recordIo.items.map Prod.snd) tails f) : (all.flatMap f).length = record.sampleCount := by
  rw [hf.length_flatMap (fun x hx => ?_) (firstPrimary h.layout.primary), h.count]
  obtain ⟨m, hm⟩ := h.uniform x hx
  exact ⟨m, hm.toPiece⟩

theorem WellFormed.remains (h : WellFormed tails all record) :
    Remains record.recordIo.recordIo.items tails all 0 record.recordIo := by
  refine ⟨all, ⟨rfl, by rw [h.cache]; exact Nat.zero_le _, all, h.stored, ?_⟩, h.uniform, fun f _ => List.drop_zero.symm⟩
  rw [h.cache, List.nil_append]

/-- Batch after batch. -/
def stages (g : ℕ → ℕ) (h : WellFormed tails all record) (hpos : 0 < batchSize) :
    Stages (assembleBatch g) batchSize record.sampleCount where
  ready k r := Remains record.recordIo.recordIo.items tails all (k * batchSize) r
  good k batch := Delivers g (record.recordIo.recordIo.items.map Prod.snd) all (k * batchSize) batchSize batch
  assemble k r batch r' hready hle hok := by
    rw [Nat.succ_mul]
    exact assembleBatch_delivers hready h.layout hpos (fun f hf => by rwa [h.length hf]) hok

theorem handed_records (hplan : plans[i]? = some plan) (hpos : 0 < plan.batchSize)
    (hrecord : plan.sampleRecord[id]? = some record) (hwell : WellFormed tails all record)
    (h : Reachable (FeederState.step (assembleBatch g) plans) (FeederState.init plans) s) :
    FeederState.Handed (stages g hwell hpos) i id s := by
  refine FeederState.handed_of_reachable hplan rfl hpos hrecord rfl ?_ h
  change Remains _ _ _ _ _
  rw [Nat.zero_mul]
  exact hwell.remains

/-- As long as there is a full batch left, it is made. -/
theorem full_batch_assembled (hplan : plans[i]? = some plan) (hpos : 0 < plan.batchSize)
    (hrecord : plan.sampleRecord[id]? = some record) (hwell : WellFormed tails all record)
    (hfits : FitsBlocks (record.recordIo.recordIo.items.map Prod.snd) tails plan.batchSize)
    (h : Reachable (FeederState.step (assembleBatch g) plans) (FeederState.init plans) s)
    (ht : s.threads t = .assemble i task) (hid : task.id = id) (hle : task.curr + plan.batchSize ≤ task.sampleCount) :
    ∃ p, assembleBatch g plan.batchSize task.recordIo = .ok p := by
  obtain ⟨-, -, hat⟩ := (handed_records (g := g) hplan hpos hrecord hwell h).standing.of_assemble ht hid
  rw [hat.curr, hat.count] at hle
  exact assembleBatch_eq hat.ready hwell.layout hpos (fun f hf => by rwa [hwell.length hf]) hfits

/-- A column of rows, the sizes of their groups, and a feature of each group. -/
def groupedItems : List (Name × ItemConfig) := [([120], ⟨0, 0, 0⟩), ([110], ⟨0, 0, 1⟩), ([117], ⟨0, 1, 0⟩)]

/-- The rows 7, 8 and 9 with the feature 5. -/
def threeRows : Sample := fun name =>
  if name = [120] then some ⟨0, [3], [7, 0, 0, 0, 8, 0, 0, 0, 9, 0, 0, 0]⟩
  else if name = [110] then some ⟨0, [1], [3, 0, 0, 0]⟩ else some ⟨0, [1], [5, 0, 0, 0]⟩

theorem goodSample_threeRows : GoodSample groupedItems threeRows := by
  intro item hitem
  simp only [groupedItems, List.mem_cons, List.not_mem_nil, or_false] at hitem
  rcases hitem with rfl | rfl | rfl
  · exact ⟨_, rfl, rfl, by decide, by decide, by decide, rfl⟩
  · exact ⟨_, rfl, rfl, by decide, by decide, by decide, rfl⟩
  · exact ⟨_, rfl, rfl, by decide, by decide, by decide, rfl⟩

theorem layout_groupedItems : Layout (groupedItems.map Prod.snd) := by
  refine ⟨⟨_, List.mem_cons_self, by decide⟩, .inr ⟨1, ⟨_, rfl, by decide, rfl, rfl⟩, fun i config hi hne => ?_⟩⟩
  match i with
  | 0 =>
    cases hi
    exact ⟨by decide, .inl rfl⟩
  | 1 => exact absurd rfl hne
  | 2 =>
    cases hi
    exact ⟨by decide, .inr rfl⟩

/-- The record of the three rows. -/
theorem wellFormed_threeRows : ∃ record all, WellFormed [[], [], []] all record ∧
    record.recordIo.recordIo.items.map Prod.snd = groupedItems.map Prod.snd ∧ record.sampleCount = 3 := by
  have hbuf : (List.replicate 32 (7 : UInt8)).length = kTensorNameLen := List.length_replicate
  have hnames : ∀ item ∈ groupedItems, GoodName item.1 := by
    intro item hitem
    simp only [groupedItems, List.mem_cons, List.not_mem_nil, or_false] at hitem
    rcases hitem with rfl | rfl | rfl <;> exact ⟨by decide, by decide, by decide⟩
  have hsamples : ∀ sample ∈ [threeRows] ++ [], GoodSample groupedItems sample := by simp [goodSample_threeRows]
  have hw := @record_eq 1000 _ _ _ hbuf hnames fun sample hsample => (hsamples sample hsample).complete
  rw [length_recordImage_eq hbuf hnames, if_pos (by decide)] at hw
  have hfit : FitSample groupedItems threeRows := fun item hitem => by
    obtain ⟨t, ht, hgood⟩ := goodSample_threeRows item hitem
    exact ⟨t, ht, hgood.fits⟩
  obtain ⟨item, hcolumns, hlen, hspec⟩ := columnsOf_spec hfit
  have hxs : [threeRows].mapM (columnsOf groupedItems) = .ok [item] := by
    rw [List.mapM_cons, hcolumns]
    rfl
  obtain ⟨r, hr, hitems, hcount, hprovides, -⟩ := record_provides hbuf hw (by decide) (by simpa using hfit) hxs
  obtain ⟨x, n, u, rfl⟩ := List.length_eq_three.mp hlen
  obtain ⟨hx, -, hxshape, hxsize, hxlen, hxpos, -⟩ := hspec 0 _ x rfl rfl
  obtain ⟨hn, hntype, hnshape, hnsize, -, -, hnblob⟩ := hspec 1 _ n rfl rfl
  obtain ⟨hu, -, hushape, husize, hulen, hupos, -⟩ := hspec 2 _ u rfl rfl
  have hxrows : HasRows 3 x.tensor := ⟨⟨[], hxshape⟩, hxpos, hxsize, by rw [hxsize, hxlen]⟩
  have hurows : HasRows 1 u.tensor := ⟨⟨[], hushape⟩, hupos, husize, by rw [husize, hulen]⟩
  have hblob : n.tensor.blob = [3] := (hnblob 4 rfl).trans (by decide)
  have hsize : n.tensor.size = 1 := hnsize.trans (by rw [hnshape]; rfl)
  have hmem : ∀ {P : Column → Prop}, P x → P n → P u → ∀ c ∈ [x, n, u], P c := by
    intro P h₁ h₂ h₃
    simpa using ⟨h₁, h₂, h₃⟩
  have huniform : Uniform (r.items.map Prod.snd) [[], [], []] 3 [x, n, u] := by
    rw [hitems]
    refine ⟨⟨?_, ?_, hmem ?_ ?_ ?_, hmem ?_ ?_ ?_, hmem ?_ ?_ ?_⟩, hmem ?_ ?_ ?_⟩
    · simp only [List.map_cons, hx, hn, hu]
      rfl
    · simp only [List.map_cons, hxshape, hnshape, hushape]
      rfl
    · exact fun _ _ => hxrows
    · rw [hn]
      exact fun h => absurd h (by decide)
    · rw [hu]
      exact fun _ h => absurd h (by decide)
    · rw [hx]
      exact fun _ h => absurd h (by decide)
    · rw [hn]
      exact fun h => absurd h (by decide)
    · exact fun _ _ => hurows
    · rw [hx]
      exact fun h => absurd h (by decide)
    · exact fun _ => ⟨(Except.ok.inj hntype).symm, hnshape, hsize, by rw [counts, hsize, hblob]; rfl⟩
    · rw [hu]
      exact fun h => absurd h (by decide)
    · rw [hx]
      exact fun h => absurd h (by decide)
    · exact fun _ => hblob
    · rw [hu]
      exact fun h => absurd h (by decide)
  have htotal : totalRows groupedItems ([threeRows] ++ []) % 2 ^ 64 = 3 := by decide
  rw [htotal] at hcount
  refine ⟨⟨3, r, []⟩, [[x, n, u]], ⟨?_, rfl, hprovides, ?_, fun i => ?_⟩, hitems, rfl⟩
  · dsimp only
    rw [hitems]
    exact layout_groupedItems
  · rw [List.forall_mem_singleton]
    exact ⟨3, huniform⟩
  · rw [List.map_singleton, List.sum_singleton]
    exact huniform.toPiece.dims_eq i

end Reader
end Hpps.Feeder

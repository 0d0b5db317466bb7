import Hpps.Feeder.Feeder
import Hpps.Feeder.Stored
import Hpps.Lib.Chunks

/-! `Feeder::ReadBatchTensor`: stored batches of any sizes are collected until there are enough rows. -/
namespace Hpps.Feeder

open Bytes Split

/-- A record, and the `cache_batch_tensor` of its task. -/
structure Reader where
  recordIo : RecordIo
  cache : List (List Column)

namespace Reader

open RecordIo

variable {g : ℕ → ℕ} {r r' : Reader} {item first second : List Column} {xs ys rest out : List (List Column)}
  {last : Option (ℕ × List Column)} {configs : List ItemConfig} {batchSize n : ℕ}

def nextItem (r : Reader) : Except Stop (List Column × Reader) :=
  match r.cache with
  | item :: cache => .ok (item, { r with cache := cache })
  | [] => do
    let (item, stream) ← readColumns r.recordIo.items r.recordIo.stream
    return (item, { r with recordIo := { r.recordIo with stream := stream } })

/-- The first dimension of the first primary tensor. -/
def currBatchSize (item : List Column) : Except Stop ℕ :=
  match item.find? fun c => IsPrimary c.config with
  | some c => orStop .memory c.tensor.shape.head?
  | none => .ok 0

/-- The loop. If it breaks, the remaining size and the batch to be split are left. -/
def collectItems : ℕ → ℕ → Reader → Except Stop (List (List Column) × Option (ℕ × List Column) × Reader)
  | 0, _, _ => .error .memory
  | rounds + 1, remainingSize, r =>
    if remainingSize = 0 then .ok ([], none, r) else do
      let (item, r) ← nextItem r
      let curr ← currBatchSize item
      if remainingSize < curr then return ([], some (remainingSize, item), r)
      let (batchTensor, last, r) ← collectItems rounds (remainingSize - curr) r
      return (item :: batchTensor, last, r)

/-- There are no more rounds than cached batches and bytes, since a round that does not take a cached batch reads
the file. -/
def readBatchTensor (g : ℕ → ℕ) (batchSize : ℕ) (r : Reader) : Except Stop (List (List Column) × Reader) := do
  let (batchTensor, last, r) ← collectItems (r.cache.length + r.recordIo.stream.buf.length + 1) batchSize r
  match last with
  | none => return (batchTensor, r)
  | some (remainingSize, item) =>
    let (first, second) ← Split g item remainingSize
    return (batchTensor ++ [first], { r with cache := r.cache ++ [second] })

/-! ### Rows -/

/-- The places of the primary columns. -/
abbrev Primary (configs : List ItemConfig) : Type :=
  { i : ℕ // ∃ config, configs[i]? = some config ∧ IsPrimary config = true }

/-- The rows that a batch has in a column. -/
def dim (item : List Column) (i : ℕ) : ℕ := ((item[i]?).map fun c => c.tensor.shape.headD 0).getD 0

def dims (item : List Column) (i : Primary configs) : ℕ := dim item i.1

theorem dim_of_hasRows {c : Column} {i : ℕ} (hi : item[i]? = some c) (h : HasRows n c.tensor) : dim item i = n := by
  obtain ⟨dims, hd⟩ := h.shape
  rw [dim, hi, Option.map_some, Option.getD_some, hd, List.headD_cons]

/-- The place of the first primary column. -/
def firstPrimary (h : ∃ config ∈ configs, IsPrimary config = true) : Primary configs :=
  ⟨configs.findIdx IsPrimary, _, List.getElem?_eq_getElem (List.findIdx_lt_length_of_exists h), List.findIdx_getElem⟩

theorem Fit.at (h : Fit configs item) (i : Primary configs) :
    ∃ c n, item[i.1]? = some c ∧ IsPrimary c.config = true ∧ HasRows n c.tensor := by
  obtain ⟨i, config, hi, hp⟩ := i
  rw [← h.configs, List.getElem?_map] at hi
  obtain ⟨c, hc, rfl⟩ := Option.map_eq_some_iff.mp hi
  obtain ⟨n, hn⟩ := h.primary c (List.mem_of_getElem? hc) hp
  exact ⟨c, n, hc, hp, hn⟩

theorem Fit.dims_pos (h : Fit configs item) (i : Primary configs) : 0 < dims item i := by
  obtain ⟨c, n, hc, -, hn⟩ := Fit.at h i
  rw [dims, dim_of_hasRows hc hn]
  exact hn.pos_rows

theorem currBatchSize_eq (h : Fit configs item) (hp : ∃ config ∈ configs, IsPrimary config = true) :
    currBatchSize item = .ok (dims item (firstPrimary hp)) := by
  obtain ⟨c, n, hc, -, hn⟩ := Fit.at h (firstPrimary hp)
  have hfirst : (firstPrimary hp).1 = item.findIdx fun c => IsPrimary c.config := by
    obtain rfl := h.configs
    exact List.findIdx_map ..
  have hfind : item.find? (fun c => IsPrimary c.config) = some c := by
    rw [List.find?_eq_getElem?_findIdx, ← hc, hfirst]
  rw [currBatchSize, hfind, dims, dim_of_hasRows hc hn]
  obtain ⟨dims, hd⟩ := hn.shape
  exact orStop_eq_ok (by rw [hd]; rfl)

/-! ### What the loop collects -/

/-- The batches that the reader takes next. What is behind them in the file does not matter. -/
structure Holds (items : List (Name × ItemConfig)) (xs : List (List Column)) (r : Reader) : Prop where
  same : r.recordIo.items = items
  cache : r.cache.length ≤ 1
  stored : ∃ stored, Provides (readColumns items) r.recordIo.stream stored ∧ xs = r.cache ++ stored

variable {items : List (Name × ItemConfig)}

theorem Holds.length_le (h : Holds items xs r) : xs.length ≤ r.cache.length + r.recordIo.stream.buf.length := by
  obtain ⟨stored, hstored, rfl⟩ := h.stored
  have := hstored.length_le
  rw [List.length_append]
  omega

theorem nextItem_file {c : Cursor} (hcache : r.cache = [])
    (h : readColumns r.recordIo.items r.recordIo.stream = .ok (item, c)) :
    nextItem r = .ok (item, { r with recordIo := { r.recordIo with stream := c } }) := by
  rw [nextItem, hcache]
  dsimp only
  rw [h]
  rfl

theorem Holds.nextItem (h : Holds items (item :: xs) r) :
    ∃ r', nextItem r = .ok (item, r') ∧ Holds items xs r' ∧ r'.cache = [] := by
  obtain ⟨stored, hstored, hxs⟩ := h.stored
  have hcache := h.cache
  cases hc : r.cache with
  | cons x cache =>
    rw [hc, List.length_cons] at hcache
    obtain rfl : cache = [] := List.length_eq_zero_iff.mp (by omega)
    rw [hc] at hxs
    cases hxs
    exact ⟨{ r with cache := [] }, by rw [Reader.nextItem, hc], ⟨h.same, Nat.zero_le _, _, hstored, rfl⟩, rfl⟩
  | nil =>
    rw [hc] at hxs
    cases hxs
    cases hstored with
    | @cons _ c' _ _ hread hbuf hlt hle htail =>
      rw [← h.same] at hread
      refine ⟨_, nextItem_file hc hread, ⟨h.same, h.cache, _, htail, ?_⟩, hc⟩
      rw [hc]
      rfl

open Chunks in
/-- The loop takes the batches that make up the rows it is asked for. -/
theorem collectItems_takes (hp : ∃ config ∈ configs, IsPrimary config = true) {q : Primary configs → ℕ}
    (ht : Takes dims CutsAt xs q ys last rest) (hxs : ∀ x ∈ xs, Fit configs x) (hr : Holds items xs r) {rounds : ℕ}
    (hrounds : ys.length < rounds) : ∃ r', collectItems rounds (q (firstPrimary hp)) r = .ok (ys, last, r') ∧
      Holds items rest r' ∧ (last.isSome → r'.cache = []) := by
  induction ht generalizing r rounds with
  | nothing =>
    obtain ⟨rounds, rfl⟩ := Nat.exists_eq_add_one.mpr hrounds
    exact ⟨r, by rw [collectItems, if_pos rfl], hr, by simp⟩
  | part hx hw hcut =>
    obtain ⟨rounds, rfl⟩ := Nat.exists_eq_add_one.mpr hrounds
    obtain ⟨r', hnext, hr', hcache⟩ := hr.nextItem
    refine ⟨r', ?_, hr', fun _ => hcache⟩
    rw [collectItems, if_neg hx.ne', hnext, ok_bind]
    dsimp only
    rw [currBatchSize_eq (hxs _ List.mem_cons_self) hp, ok_bind, if_pos (hw _)]
    rfl
  | @chunk z xs ys rest q last h ih =>
    rw [List.length_cons] at hrounds
    obtain ⟨rounds, rfl⟩ := Nat.exists_eq_add_one.mpr (Nat.zero_lt_of_lt hrounds)
    rw [List.forall_mem_cons] at hxs
    obtain ⟨r₁, hnext, hr₁, -⟩ := hr.nextItem
    have hlt : ys.length < rounds := by omega
    obtain ⟨r', hcollect, hr', hcache⟩ := ih hxs.2 hr₁ hlt
    have hz := Fit.dims_pos hxs.1 (firstPrimary hp)
    refine ⟨r', ?_, hr', hcache⟩
    dsimp only
    rw [collectItems, if_neg (by omega), hnext, ok_bind]
    dsimp only
    rw [currBatchSize_eq hxs.1 hp, ok_bind, if_neg (by omega), Nat.add_sub_cancel_left, hcollect]
    rfl

/-- If the first primary columns of the batches that are left have fewer rows, then the loop reads past the last
of them. -/
theorem collectItems_runsOut {c : Cursor} {f : List Column → ℕ} (h : RunsOut (readColumns items) .memory c xs)
    (hxs : ∀ x ∈ xs, currBatchSize x = .ok (f x)) (hsum : (xs.map f).sum < n) (hsame : r.recordIo.items = items)
    (hstream : r.recordIo.stream = c) (hcache : r.cache = []) (rounds : ℕ) :
    collectItems rounds n r = .error .memory := by
  induction h generalizing n r rounds with
  | nil h =>
    cases rounds with
    | zero => rfl
    | succ rounds =>
      rw [collectItems, if_neg (by omega), Reader.nextItem, hcache, hsame, hstream]
      dsimp only
      rw [h]
      rfl
  | @cons c c' x xs h htail ih =>
    cases rounds with
    | zero => rfl
    | succ rounds =>
      rw [List.forall_mem_cons] at hxs
      rw [List.map_cons, List.sum_cons] at hsum
      have hrest := ih hxs.2 (n := n - f x) (r := { r with recordIo := { r.recordIo with stream := c' } }) (by omega)
        hsame rfl hcache rounds
      subst hsame hstream
      rw [collectItems, if_neg (by omega), nextItem_file hcache h, ok_bind]
      dsimp only
      rw [hxs.1, ok_bind, if_neg (by omega), hrest]
      rfl

/-! ### What ReadBatchTensor returns -/

/-- The halves of a batch that is cut after `x` rows. -/
structure CutInto (x : ℕ) (item first second : List Column) : Prop where
  halves : ∃ halves : List (Column × Column), first = halves.map Prod.fst ∧ second = halves.map Prod.snd ∧
    halves.length = item.length ∧ ∀ (i : ℕ) (c : Column) (h : Column × Column),
      item[i]? = some c → halves[i]? = some h → ColumnCut x c h

theorem CutInto.at {x i : ℕ} {c : Column} (h : CutInto x item first second) (hi : item[i]? = some c) :
    ∃ c₁ c₂, first[i]? = some c₁ ∧ second[i]? = some c₂ ∧ ColumnCut x c (c₁, c₂) := by
  obtain ⟨halves, rfl, rfl, hlen, hall⟩ := h.halves
  have hlt := (List.getElem?_eq_some_iff.mp hi).1
  have hr : halves[i]? = some halves[i] := List.getElem?_eq_getElem (by omega)
  refine ⟨halves[i].1, halves[i].2, ?_, ?_, hall i c _ hi hr⟩
  · rw [List.getElem?_map, hr, Option.map_some]
  · rw [List.getElem?_map, hr, Option.map_some]

theorem CutInto.length {x : ℕ} (h : CutInto x item first second) :
    first.length = item.length ∧ second.length = item.length := by
  obtain ⟨halves, rfl, rfl, hlen, -⟩ := h.halves
  rw [List.length_map, List.length_map]
  exact ⟨hlen, hlen⟩

theorem CutInto.dims {x : ℕ} (h : CutInto x item first second) (hfit : Fit configs item) (i : Primary configs) :
    dims first i = x ∧ dims second i = dims item i - x := by
  obtain ⟨c, n, hc, hp, hn⟩ := Fit.at hfit i
  obtain ⟨hl, haux⟩ := level_of_primary hp
  obtain ⟨c₁, c₂, h₁, h₂, hcut⟩ := h.at hc
  have hhalves := hcut.level₀ haux hl
  exact ⟨dim_of_hasRows h₁ hhalves.first.1, by
    rw [Reader.dims, Reader.dims, dim_of_hasRows h₂ (hhalves.hasRows n hn), dim_of_hasRows hc hn]⟩

theorem CutInto.of_first {x : ℕ} {c₁ : Column} (h : CutInto x item first second) (hc : c₁ ∈ first) :
    ∃ (i : ℕ) (c c₂ : Column), item[i]? = some c ∧ first[i]? = some c₁ ∧ second[i]? = some c₂ ∧ ColumnCut x c (c₁, c₂) := by
  obtain ⟨i, hi⟩ := List.mem_iff_getElem?.mp hc
  have hlt : i < item.length := h.length.1 ▸ (List.getElem?_eq_some_iff.mp hi).1
  have hitem : item[i]? = some item[i] := List.getElem?_eq_getElem hlt
  obtain ⟨c₁', c₂, h₁, h₂, hcut⟩ := h.at hitem
  cases hi.symm.trans h₁
  exact ⟨i, _, c₂, hitem, h₁, h₂, hcut⟩

theorem CutInto.of_second {x : ℕ} {c₂ : Column} (h : CutInto x item first second) (hc : c₂ ∈ second) :
    ∃ (i : ℕ) (c c₁ : Column), item[i]? = some c ∧ first[i]? = some c₁ ∧ second[i]? = some c₂ ∧ ColumnCut x c (c₁, c₂) := by
  obtain ⟨i, hi⟩ := List.mem_iff_getElem?.mp hc
  have hlt : i < item.length := h.length.2 ▸ (List.getElem?_eq_some_iff.mp hi).1
  have hitem : item[i]? = some item[i] := List.getElem?_eq_getElem hlt
  obtain ⟨c₁, c₂', h₁, h₂, hcut⟩ := h.at hitem
  cases hi.symm.trans h₂
  exact ⟨i, _, c₁, hitem, h₁, h₂, hcut⟩

/-- What each column of the halves has in common with the column of the batch. -/
theorem CutInto.map_eq {x : ℕ} {α : Type} {f : Column → α} (h : CutInto x item first second)
    (hf : ∀ c ∈ item, ∀ c₁ c₂, ColumnCut x c (c₁, c₂) → f c₁ = f c ∧ f c₂ = f c) :
    first.map f = item.map f ∧ second.map f = item.map f := by
  constructor
  · apply List.ext_getElem (by simp [h.length.1])
    intro i hi hi'
    rw [List.length_map] at hi hi'
    obtain ⟨c₁, c₂, h₁, -, hcut⟩ := h.at (List.getElem?_eq_getElem hi')
    rw [List.getElem?_eq_getElem hi] at h₁
    cases h₁
    rw [List.getElem_map, List.getElem_map]
    exact (hf _ (List.getElem_mem hi') _ _ hcut).1
  · apply List.ext_getElem (by simp [h.length.2])
    intro i hi hi'
    rw [List.length_map] at hi hi'
    obtain ⟨c₁, c₂, -, h₂, hcut⟩ := h.at (List.getElem?_eq_getElem hi')
    rw [List.getElem?_eq_getElem hi] at h₂
    cases h₂
    rw [List.getElem_map, List.getElem_map]
    exact (hf _ (List.getElem_mem hi') _ _ hcut).2

theorem CutInto.fit {x : ℕ} (h : CutInto x item first second) (hfit : Fit configs item) :
    Fit configs first ∧ Fit configs second := by
  obtain ⟨hfirst, hsecond⟩ := h.map_eq fun c _ c₁ c₂ hcut => hcut.config
  refine ⟨⟨hfirst.trans hfit.configs, fun c' hc' hp => ?_⟩, ⟨hsecond.trans hfit.configs, fun c' hc' hp => ?_⟩⟩
  · obtain ⟨i, c, c₂, hc, -, -, hcut⟩ := h.of_first hc'
    rw [hcut.config.1] at hp
    obtain ⟨hl, haux⟩ := level_of_primary hp
    exact ⟨x, (hcut.level₀ haux hl).first.1⟩
  · obtain ⟨i, c, c₁, hc, -, -, hcut⟩ := h.of_second hc'
    rw [hcut.config.2] at hp
    obtain ⟨hl, haux⟩ := level_of_primary hp
    obtain ⟨n, hn⟩ := hfit.primary c (List.mem_of_getElem? hc) hp
    exact ⟨n - x, (hcut.level₀ haux hl).hasRows n hn⟩

open Chunks in
theorem CutInto.leaves {x : ℕ} (h : CutInto x item first second) (hfit : Fit configs item) :
    Leaves (Reader.dims : List Column → Primary configs → ℕ) CutsAt x item second := by
  refine ⟨fun i => (h.dims hfit i).2, fun y hy hcut => ?_⟩
  obtain ⟨halves, rfl, rfl, hlen, hall⟩ := h.halves
  exact hcut.rest hlen hall hy

/-- What is returned, and what the reader takes next. -/
inductive Returns : List (List Column) → Option (ℕ × List Column) → List (List Column) → List (List Column) →
    List (List Column) → Prop
  | whole {ys rest : List (List Column)} : Returns ys none rest ys rest
  | cut {ys rest : List (List Column)} {x : ℕ} {item first second : List Column} (h : CutInto x item first second) :
      Returns ys (some (x, item)) rest (ys ++ [first]) (second :: rest)

open Chunks in
/-- ReadBatchTensor takes the rows it is asked for, and leaves the others. -/
theorem readBatchTensor_takes (hp : ∃ config ∈ configs, IsPrimary config = true)
    (ht : Takes dims CutsAt xs (fun _ : Primary configs => batchSize) ys last rest)
    (hxs : ∀ x ∈ xs, Fit configs x) (hr : Holds items xs r) :
    ∃ out r' xs', readBatchTensor g batchSize r = .ok (out, r') ∧ Holds items xs' r' ∧ Returns ys last rest out xs' := by
  have hlen := ht.length_le.trans hr.length_le
  obtain ⟨r', hcollect, hr', hcache⟩ := collectItems_takes hp ht hxs hr (Nat.lt_succ_of_le hlen)
  cases last with
  | none =>
    refine ⟨ys, r', rest, ?_, hr', .whole⟩
    rw [readBatchTensor, hcollect, ok_bind]
    rfl
  | some last =>
    obtain ⟨x, z⟩ := last
    obtain ⟨-, hx, -, hcut⟩ := ht.mem.2.2 x z rfl
    obtain ⟨halves, hsplit, hlen, hall⟩ := hcut.split (g := g) hx
    rw [List.unzip_eq_map] at hsplit
    have hcache := hcache rfl
    obtain ⟨stored, hstored, hrest⟩ := hr'.stored
    refine ⟨ys ++ [halves.map Prod.fst], { r' with cache := r'.cache ++ [halves.map Prod.snd] },
      halves.map Prod.snd :: rest, ?_, ⟨hr'.same, by simp [hcache], stored, hstored, ?_⟩, .cut ⟨halves, rfl, rfl, hlen, hall⟩⟩
    · rw [readBatchTensor, hcollect, ok_bind]
      dsimp only
      rw [hsplit]
      rfl
    · rw [hrest, hcache]
      rfl

open Chunks in
/-- The rows that were asked for are returned, and the batches that come next are as good as before. -/
theorem Returns.rows (h : Returns ys last rest out xs)
    {xs₀ : List (List Column)} (ht : Takes dims CutsAt xs₀ (fun _ : Primary configs => batchSize) ys last rest)
    (hxs : ∀ x ∈ xs₀, Fit configs x) : (∀ i : Primary configs, (out.map fun t => dims t i).sum = batchSize) ∧
      Left (dims : List Column → Primary configs → ℕ) CutsAt last rest xs ∧ ∀ x ∈ xs, Fit configs x := by
  have hsum := ht.sum_eq
  obtain ⟨-, hrest, hlast⟩ := ht.mem
  cases h with
  | whole => exact ⟨hsum, .whole, fun x hx => hxs x (hrest x hx)⟩
  | cut hcut =>
    obtain ⟨hz, -⟩ := hlast _ _ rfl
    have hfit := hxs _ hz
    refine ⟨fun i => ?_, .half (hcut.leaves hfit),
      List.forall_mem_cons.mpr ⟨(hcut.fit hfit).2, fun x hx => hxs x (hrest x hx)⟩⟩
    rw [List.map_append, List.sum_append, List.map_singleton, List.sum_singleton, (hcut.dims hfit i).1]
    exact hsum i

end Reader
end Hpps.Feeder

import Hpps.Feeder.Split
import Hpps.Lib.Interning

/-! The utilities of the feeder: group numbers from group sizes, and ids replaced by local ones. -/
namespace Hpps.Feeder

/-- A tensor of ids or counts. An element is the number that its bits encode. -/
structure IdTensor where
  dataType : TensorDataType
  tensor : Tensor ℕ

namespace Utils

variable {g : ℕ → ℕ} {t u : Tensor ℕ} {l m xs counts : List ℕ} {i p n : ℕ}

/-- The `size()` elements. -/
def elements (t : Tensor ℕ) : List ℕ := t.blob.take t.size

/-- The blob of a tensor that never had an element is a null pointer. -/
def mutableBlob (t : Tensor ℕ) : Except Stop (List ℕ) := if t.blob = [] then .error .memory else .ok t.blob

/-! ### Num2Indices -/

/-- The inner loop writes `i` through the pointer `p`. -/
def fillCount (i : ℕ) : ℕ → Tensor ℕ × ℕ → Except Stop (Tensor ℕ × ℕ)
  | 0, st => .ok st
  | n + 1, (t, p) => do
    let t ← t.write p [i]
    fillCount i n (t, p + 1)

def fillIndices : ℕ → List ℕ → Tensor ℕ × ℕ → Except Stop (Tensor ℕ × ℕ)
  | _, [], st => .ok st
  | i, count :: counts, st => do
    let st ← fillCount i count st
    fillIndices (i + 1) counts st

/-- The `tensor_dim_t` that the counts are added up in. -/
def sumSize (counts : List ℕ) : ℕ := counts.foldl (fun size count => (size + count) % 2 ^ 32) 0

def num2Indices (g : ℕ → ℕ) (num : IdTensor) : Except Stop IdTensor :=
  if num.dataType = .kUInt32 then do
    let addr ← mutableBlob num.tensor
    let counts ← fetch addr 0 num.tensor.size
    let indices ← Tensor.new g [sumSize counts]
    let _ ← mutableBlob indices
    let (indices, _) ← fillIndices 0 counts (indices, 0)
    return ⟨num.dataType, indices⟩
  else .error .check

/-- Each index as often as its count, from index `i` on. -/
def expandFrom : ℕ → List ℕ → List ℕ
  | _, [] => []
  | i, count :: counts => List.replicate count i ++ expandFrom (i + 1) counts

theorem length_expandFrom : (expandFrom i counts).length = counts.sum := by
  induction counts generalizing i with
  | nil => rfl
  | cons count counts ih => rw [expandFrom, List.length_append, List.length_replicate, ih, List.sum_cons]

theorem mem_expandFrom (h : n ∈ expandFrom i counts) : i ≤ n ∧ n < i + counts.length := by
  induction counts generalizing i with
  | nil => simp [expandFrom] at h
  | cons count counts ih =>
    rcases List.mem_append.mp h with h | h
    · rw [List.eq_of_mem_replicate h, List.length_cons]
      omega
    · have := ih h
      rw [List.length_cons]
      omega

theorem pairwise_expandFrom : (expandFrom i counts).Pairwise (· ≤ ·) := by
  induction counts generalizing i with
  | nil => exact .nil
  | cons count counts ih =>
    refine List.pairwise_append.mpr ⟨List.pairwise_replicate.mpr (.inr le_rfl), ih, fun a ha b hb => ?_⟩
    have := mem_expandFrom hb
    rw [List.eq_of_mem_replicate ha]
    omega

theorem count_expandFrom (h : p < counts.length) : (expandFrom i counts).count (i + p) = counts[p] := by
  induction counts generalizing i p with
  | nil => simp at h
  | cons count counts ih =>
    rw [expandFrom, List.count_append]
    cases p with
    | zero =>
      have hnone : (expandFrom (i + 1) counts).count i = 0 :=
        List.count_eq_zero.mpr fun hmem => by
          have := mem_expandFrom hmem
          omega
      rw [Nat.add_zero, List.count_replicate_self, hnone]
      rfl
    | succ p =>
      have hnone : (List.replicate count i).count (i + (p + 1)) = 0 :=
        List.count_eq_zero.mpr fun hmem => by
          have := List.eq_of_mem_replicate hmem
          omega
      have hp : p < counts.length := by simpa using h
      rw [hnone, Nat.zero_add, List.getElem_cons_succ, ← ih (i := i + 1) hp]
      congr 1
      omega

theorem fillCount_eq (ht : t.blob = l ++ m) (hn : n ≤ m.length) : ∃ u, fillCount i n (t, l.length) = .ok (u, l.length + n) ∧
    u.shape = t.shape ∧ u.size = t.size ∧ u.blob = l ++ List.replicate n i ++ m.drop n := by
  induction n generalizing t l m with
  | zero => exact ⟨t, rfl, rfl, rfl, by simpa using ht⟩
  | succ n ih =>
    obtain ⟨v, hv, hvshape, hvsize, hvblob⟩ := Tensor.write_append (v := [i]) ht rfl (by simp; omega)
    obtain ⟨u, hu, hshape, hsize, hblob⟩ := ih hvblob (by simp; omega)
    refine ⟨u, ?_, hshape.trans hvshape, hsize.trans hvsize, ?_⟩
    · rw [List.length_append, List.length_singleton] at hu
      rw [fillCount, hv, ok_bind, hu]
      congr 2
      omega
    · rw [hblob, List.drop_drop, List.replicate_succ]
      simp [Nat.add_comm]

/-- The pointer ends behind the last index. -/
theorem fillIndices_eq (ht : t.blob = l ++ m) (hm : counts.sum ≤ m.length) :
    ∃ u, fillIndices i counts (t, l.length) = .ok (u, l.length + counts.sum) ∧ u.shape = t.shape ∧ u.size = t.size ∧
      u.blob = l ++ expandFrom i counts ++ m.drop counts.sum := by
  induction counts generalizing t l m i with
  | nil => exact ⟨t, rfl, rfl, rfl, by simpa [expandFrom] using ht⟩
  | cons count counts ih =>
    rw [List.sum_cons] at hm
    obtain ⟨v, hv, hvshape, hvsize, hvblob⟩ := fillCount_eq (i := i) ht (show count ≤ m.length by omega)
    obtain ⟨u, hu, hshape, hsize, hblob⟩ := ih (i := i + 1) hvblob (by simp; omega)
    refine ⟨u, ?_, hshape.trans hvshape, hsize.trans hvsize, ?_⟩
    · rw [List.length_append, List.length_replicate] at hu
      rw [fillIndices, hv, ok_bind, hu, List.sum_cons, Nat.add_assoc]
    · rw [hblob, List.drop_drop, expandFrom, List.sum_cons]
      simp [List.append_assoc]

theorem sumSize_eq (h : counts.sum < 2 ^ 32) : sumSize counts = counts.sum := by
  have hfold : ∀ k, k + counts.sum < 2 ^ 32 →
      counts.foldl (fun size count => (size + count) % 2 ^ 32) k = k + counts.sum := by
    intro k hk
    induction counts generalizing k with
    | nil => rfl
    | cons count counts ih =>
      rw [List.sum_cons] at h hk ⊢
      rw [List.foldl_cons, Nat.mod_eq_of_lt (by omega), ih (by omega) _ (by omega)]
      omega
  have := hfold 0 (by omega)
  rwa [Nat.zero_add] at this

/-- The indices of a list of counts: they do not decrease, and each position of the counts occurs as often
as is counted there. -/
structure Indices (counts : List ℕ) (u : Tensor ℕ) : Prop where
  shape : u.shape = [counts.sum] ∧ u.size = counts.sum ∧ u.blob.length = counts.sum
  sorted : (elements u).Pairwise (· ≤ ·)
  count : ∀ p, (elements u).count p = counts.getD p 0
  counts : (List.range counts.length).map (fun p => (elements u).count p) = counts

theorem Indices.of_blob (hshape : u.shape = [counts.sum]) (hsize : u.size = counts.sum) (hblob : u.blob = expandFrom 0 counts) :
    Indices counts u := by
  have helements : elements u = expandFrom 0 counts := by
    rw [elements, hblob, List.take_of_length_le (by rw [length_expandFrom, hsize])]
  have hcount : ∀ p, (elements u).count p = counts.getD p 0 := by
    intro p
    rw [helements, List.getD_eq_getElem?_getD]
    rcases lt_or_ge p counts.length with hp | hp
    · have hc := count_expandFrom (i := 0) hp
      rw [Nat.zero_add] at hc
      rw [hc, List.getElem?_eq_getElem hp]
      rfl
    · rw [List.getElem?_eq_none hp]
      exact List.count_eq_zero.mpr fun hmem => by
        have := mem_expandFrom hmem
        omega
  refine ⟨⟨hshape, hsize, by rw [hblob, length_expandFrom]⟩, helements ▸ pairwise_expandFrom, hcount, ?_⟩
  refine List.ext_getElem (by simp) fun p hp hp' => ?_
  rw [List.getElem_map, List.getElem_range, hcount, List.getD_eq_getElem?_getD, List.getElem?_eq_getElem hp']
  rfl

/-- The order and the counts determine the indices. -/
theorem Indices.elements_eq (h : Indices counts u) : elements u = expandFrom 0 counts := by
  refine List.Perm.eq_of_pairwise' h.sorted pairwise_expandFrom (List.perm_iff_count.mpr fun p => ?_)
  rw [h.count, List.getD_eq_getElem?_getD]
  rcases lt_or_ge p counts.length with hp | hp
  · have hc := count_expandFrom (i := 0) hp
    rw [Nat.zero_add] at hc
    rw [hc, List.getElem?_eq_getElem hp]
    rfl
  · rw [List.getElem?_eq_none hp]
    exact (List.count_eq_zero.mpr fun hmem => by
      have := mem_expandFrom hmem
      omega).symm

theorem num2Indices_eq {num : IdTensor} (hroom : num.tensor.size ≤ num.tensor.blob.length)
    (htype : num.dataType = .kUInt32) (hpos : 1 ≤ (elements num.tensor).sum) (hlt : (elements num.tensor).sum ≤ 2 ^ 31 - 1) :
    ∃ u, num2Indices g num = .ok ⟨.kUInt32, u⟩ ∧ Indices (elements num.tensor) u := by
  obtain ⟨t, ht, htshape, htsize, htlen⟩ := Tensor.new_spec g
    (show [(elements num.tensor).sum].prod < 2 ^ 31 by simp; omega) (by simp; omega)
  rw [List.prod_singleton] at htsize htlen
  obtain ⟨u, hu, hshape, hsize, hblob⟩ := fillIndices_eq (i := 0) (List.nil_append t.blob).symm htlen.ge
  rw [List.length_nil] at hu
  have hblobs : num.tensor.blob ≠ [] := by
    intro h0
    rw [elements, h0, List.take_nil, List.sum_nil] at hpos
    omega
  have hnew : t.blob ≠ [] := List.ne_nil_of_length_pos (by omega)
  refine ⟨u, ?_, .of_blob (hshape.trans htshape) (hsize.trans htsize) ?_⟩
  · have hfetch : fetch num.tensor.blob 0 num.tensor.size = .ok (elements num.tensor) := by
      rw [fetch, if_pos (by rw [Nat.zero_add]; exact hroom)]
      rfl
    rw [num2Indices, if_pos htype, mutableBlob, if_neg hblobs, ok_bind, hfetch, ok_bind, sumSize_eq (by omega), ht,
      ok_bind, mutableBlob, if_neg hnew, ok_bind, hu, htype]
    rfl
  · rw [hblob, List.nil_append, ← htlen, List.drop_length, List.append_nil]

/-- The counts are expanded without a write outside the new tensor. -/
theorem num2Indices_expands (num : IdTensor) (h : num.tensor.Reached fun _ => True) (htype : num.dataType = .kUInt32)
    (hpos : 1 ≤ (elements num.tensor).sum) (hlt : (elements num.tensor).sum ≤ 2 ^ 31 - 1) :
    ∃ u, num2Indices g num = .ok ⟨.kUInt32, u⟩ ∧ Indices (elements num.tensor) u :=
  num2Indices_eq h.size.2 htype hpos hlt

/-- A tensor of numbers, for small tests. -/
def ofElements (l : List ℕ) (h : l.length < 2 ^ 31) : Tensor ℕ := ⟨[l.length], l.length, l, h⟩

theorem reached_ofElements {P : List ℕ → Prop} (h : l.length < 2 ^ 31) (hpos : 0 < l.length) (hp : P [l.length]) :
    (ofElements l h).Reached P := by
  obtain ⟨t, ht, hshape, hsize, hlen⟩ := Tensor.new_spec id (show [l.length].prod < 2 ^ 31 by simpa using h) (by simpa using hpos)
  rw [List.prod_singleton] at hsize hlen
  have hwrite := Tensor.Reached.write (.new hp ht) hlen.symm
  rwa [show ofElements l h = ⟨t.shape, t.size, l, h⟩ by rw [ofElements, hshape, hsize]]

/-- Group sizes with a zero among them. -/
theorem num2Indices_expands_four : ∃ u, num2Indices id ⟨.kUInt32, ofElements [2, 0, 3, 2] (by simp)⟩ = .ok ⟨.kUInt32, u⟩ ∧
    Indices [2, 0, 3, 2] u :=
  num2Indices_expands ⟨.kUInt32, ofElements [2, 0, 3, 2] (by simp)⟩
    (reached_ofElements (by simp) (by simp) trivial) rfl (by decide) (by decide)

/-! ### Id2UniqId -/

/-- The state of the loop. The log `touched` of the places that are read and written is not read. -/
structure UniqIds where
  localOf : ℕ → Option ℕ
  uniqId : List ℕ
  localId : Tensor ℕ
  touched : List ℕ

/-- One round of the loop. -/
def addId (st : UniqIds) (i currentId : ℕ) : Except Stop UniqIds :=
  match st.localOf currentId with
  | none => do
    let newId := st.uniqId.length % 2 ^ 32
    let localId ← st.localId.write i [newId]
    return {
      localOf := Function.update st.localOf currentId (some newId)
      uniqId := st.uniqId ++ [currentId]
      localId := localId
      touched := st.touched ++ [i] }
  | some k => do
    let localId ← st.localId.write i [k]
    return { st with localId := localId, touched := st.touched ++ [i] }

def addIds : ℕ → List ℕ → UniqIds → Except Stop UniqIds
  | _, [], st => .ok st
  | i, currentId :: ids, st => do
    let st ← addId st i currentId
    addIds (i + 1) ids st

def writeFrom : ℕ → List ℕ → Tensor ℕ → Except Stop (Tensor ℕ)
  | _, [], t => .ok t
  | i, x :: xs, t => do
    let t ← t.write i [x]
    writeFrom (i + 1) xs t

/-- The bound of the loop is the number of elements that the blob has room for. -/
def id2UniqId (g : ℕ → ℕ) (id : IdTensor) : Except Stop (Tensor ℕ × Tensor ℕ × List ℕ) :=
  if id.dataType = .kUInt64 then do
    let localId ← Tensor.new g id.tensor.shape
    let blob ← mutableBlob id.tensor
    let st ← addIds 0 blob ⟨fun _ => none, [], localId, []⟩
    let uniqIdSize := st.uniqId.length % 2 ^ 32
    let uniqId ← Tensor.new g [uniqIdSize]
    let uniqId ← writeFrom 0 (st.uniqId.take uniqIdSize) uniqId
    return (uniqId, st.localId, st.touched)
  else .error .check

/-- The distinct ids in the order of their first occurrences, a local id for each element of the tensor, and
nothing outside the tensor touched. -/
structure Reencodes (t uniqId localId : Tensor ℕ) (touched : List ℕ) : Prop where
  nodup : (elements uniqId).Nodup
  first : (elements uniqId).Pairwise fun a b => (elements t).idxOf a < (elements t).idxOf b
  mem : ∀ id, id ∈ elements uniqId ↔ id ∈ elements t
  shape : uniqId.shape = [(elements uniqId).length] ∧ localId.shape = t.shape ∧ localId.size = t.size
  decode : ∀ i < t.size, ∃ k id, (elements localId)[i]? = some k ∧ (elements uniqId)[k]? = some id ∧
    (elements t)[i]? = some id
  touched : ∀ i ∈ touched, i < t.size

/-- After the ids `done`. -/
structure Interned (done : List ℕ) (st : UniqIds) : Prop where
  localOf : ∀ id k, st.localOf id = some k ↔ st.uniqId[k]? = some id
  codes : ∃ codes r, st.localId.blob = codes ++ r ∧ Interning.Encodes done st.uniqId codes
  touched : st.touched = List.range done.length

theorem length_write (h : t.write p xs = .ok u) : u.blob.length = t.blob.length ∧ p + xs.length ≤ t.blob.length ∧
    u.shape = t.shape ∧ u.size = t.size := by
  unfold Tensor.write at h
  split at h
  · rename_i hroom
    cases h
    exact ⟨Rows.length_overwrite hroom, hroom, rfl, rfl⟩
  · cases h

theorem addId_room {st st' : UniqIds} (h : addId st i n = .ok st') :
    st'.localId.blob.length = st.localId.blob.length ∧ i < st.localId.blob.length := by
  unfold addId at h
  split at h
  · obtain ⟨v, hv, h⟩ := bind_eq_ok.mp h
    cases h
    have := length_write hv
    exact ⟨this.1, this.2.1⟩
  · obtain ⟨v, hv, h⟩ := bind_eq_ok.mp h
    cases h
    have := length_write hv
    exact ⟨this.1, this.2.1⟩

/-- Every id that the loop takes has a place in the tensor of the local ids. -/
theorem addIds_room {st st' : UniqIds} (h : addIds i xs st = .ok st') (hi : i ≤ st.localId.blob.length) :
    i + xs.length ≤ st.localId.blob.length := by
  induction xs generalizing i st with
  | nil => exact hi
  | cons x xs ih =>
    obtain ⟨v, hv, h⟩ := bind_eq_ok.mp h
    obtain ⟨hlen, hlt⟩ := addId_room hv
    have := ih h (hlen ▸ hlt)
    rw [hlen] at this
    rw [List.length_cons]
    omega

/-- A new id takes the next number in both directions of the table. -/
theorem localOf_new {localOf : ℕ → Option ℕ} (h : ∀ id k, localOf id = some k ↔ l[k]? = some id) (hn : localOf n = none) :
    n ∉ l ∧ ∀ id k, Function.update localOf n (some l.length) id = some k ↔ (l ++ [n])[k]? = some id := by
  have hnot : n ∉ l := by
    intro hmem
    obtain ⟨k, hk⟩ := List.mem_iff_getElem?.mp hmem
    rw [(h n k).mpr hk] at hn
    cases hn
  refine ⟨hnot, fun id k => ?_⟩
  rcases lt_trichotomy k l.length with hk | rfl | hk
  · rw [List.getElem?_append_left hk]
    by_cases hid : id = n
    · subst hid
      rw [Function.update_self, Option.some_inj]
      exact ⟨fun h => absurd hk (h ▸ lt_irrefl _), fun h => absurd (List.mem_of_getElem? h) hnot⟩
    · rw [Function.update_of_ne hid, h]
  · rw [List.getElem?_concat_length, Option.some_inj]
    by_cases hid : id = n
    · simp [hid]
    · rw [Function.update_of_ne hid, h, List.getElem?_eq_none le_rfl]
      exact ⟨nofun, fun h => absurd h.symm hid⟩
  · rw [List.getElem?_eq_none (by simp; omega)]
    by_cases hid : id = n
    · subst hid
      rw [Function.update_self, Option.some_inj]
      exact ⟨fun h => absurd hk (h ▸ lt_irrefl _), nofun⟩
    · rw [Function.update_of_ne hid, h, List.getElem?_eq_none hk.le]

theorem Interned.addId {st : UniqIds} {done : List ℕ} (h : Interned done st) (hroom : done.length < st.localId.blob.length) :
    ∃ st', addId st done.length n = .ok st' ∧ Interned (done ++ [n]) st' ∧ st'.localId.shape = st.localId.shape ∧
      st'.localId.size = st.localId.size ∧ st'.localId.blob.length = st.localId.blob.length := by
  obtain ⟨codes, r, hblob, hcodes⟩ := h.codes
  have hcap := st.localId.capacity_lt
  have hwrite : ∀ k, ∃ u, st.localId.write done.length [k] = .ok u ∧ u.shape = st.localId.shape ∧
      u.size = st.localId.size ∧ u.blob = (codes ++ [k]) ++ r.drop 1 := by
    intro k
    exact Tensor.write_append (v := [k]) hblob hcodes.length (by
      rw [hblob, List.length_append, hcodes.length] at hroom
      rw [List.length_singleton]
      omega)
  have htouched : st.touched ++ [done.length] = List.range (done ++ [n]).length := by
    rw [h.touched, List.length_append, List.length_singleton, List.range_succ]
  unfold Utils.addId
  cases hn : st.localOf n with
  | none =>
    obtain ⟨hnot, hlocalOf⟩ := localOf_new h.localOf hn
    have hmod : st.uniqId.length % 2 ^ 32 = st.uniqId.length := Nat.mod_eq_of_lt (by have := hcodes.length_le; omega)
    obtain ⟨u, hu, hshape, hsize, hublob⟩ := hwrite st.uniqId.length
    dsimp only
    rw [hmod, hu]
    exact ⟨_, rfl, ⟨hlocalOf, ⟨_, _, hublob, hcodes.new hnot⟩, htouched⟩, hshape, hsize, (length_write hu).1⟩
  | some k =>
    obtain ⟨u, hu, hshape, hsize, hublob⟩ := hwrite k
    dsimp only
    rw [hu]
    exact ⟨_, rfl, ⟨h.localOf, ⟨_, _, hublob, hcodes.old ((h.localOf n k).mp hn)⟩, htouched⟩, hshape, hsize,
      (length_write hu).1⟩

theorem Interned.addIds {st : UniqIds} {done : List ℕ} (h : Interned done st)
    (hroom : done.length + xs.length ≤ st.localId.blob.length) :
    ∃ st', addIds done.length xs st = .ok st' ∧ Interned (done ++ xs) st' ∧ st'.localId.shape = st.localId.shape ∧
      st'.localId.size = st.localId.size := by
  induction xs generalizing done st with
  | nil => exact ⟨st, rfl, by rwa [List.append_nil], rfl, rfl⟩
  | cons x xs ih =>
    rw [List.length_cons] at hroom
    obtain ⟨v, hv, hinterned, hvshape, hvsize, hvlen⟩ := h.addId (n := x) (by omega)
    obtain ⟨w, hw, hdone, hshape, hsize⟩ := ih hinterned (by
      rw [hvlen, List.length_append, List.length_singleton]
      omega)
    rw [List.length_append, List.length_singleton] at hw
    refine ⟨w, ?_, ?_, hshape.trans hvshape, hsize.trans hvsize⟩
    · rw [Utils.addIds, hv, ok_bind, hw]
    · rwa [List.append_assoc, List.singleton_append] at hdone

theorem writeFrom_eq (ht : t.blob = l ++ m) (hm : xs.length ≤ m.length) : ∃ u, writeFrom l.length xs t = .ok u ∧
    u.shape = t.shape ∧ u.size = t.size ∧ u.blob = l ++ xs ++ m.drop xs.length := by
  induction xs generalizing t l m with
  | nil => exact ⟨t, rfl, rfl, rfl, by simpa using ht⟩
  | cons x xs ih =>
    rw [List.length_cons] at hm
    obtain ⟨v, hv, hvshape, hvsize, hvblob⟩ := Tensor.write_append (v := [x]) ht rfl (by simp; omega)
    obtain ⟨u, hu, hshape, hsize, hblob⟩ := ih hvblob (by simp; omega)
    refine ⟨u, ?_, hshape.trans hvshape, hsize.trans hvsize, ?_⟩
    · rw [List.length_append, List.length_singleton] at hu
      rw [writeFrom, hv, ok_bind, hu]
    · rw [hblob, List.drop_drop, List.append_assoc, List.append_assoc, List.singleton_append, List.length_cons]
      simp [Nat.add_comm]

theorem Reencodes.of_interned {st : UniqIds} (h : Interned t.blob st) (hfull : t.blob.length = t.size)
    (hu : u.shape = [st.uniqId.length] ∧ u.size = st.uniqId.length ∧ u.blob = st.uniqId)
    (hlocal : st.localId.shape = t.shape ∧ st.localId.size = t.size) :
    Reencodes t u st.localId st.touched := by
  obtain ⟨codes, r, hblob, hcodes⟩ := h.codes
  have ht : elements t = t.blob := by rw [elements, ← hfull, List.take_length]
  have huniq : elements u = st.uniqId := by rw [elements, hu.2.1, hu.2.2, List.take_length]
  have hcode : elements st.localId = codes := by
    rw [elements, hblob, hlocal.2, ← hfull, ← hcodes.length, List.take_left]
  refine ⟨huniq ▸ hcodes.nodup, ht ▸ huniq ▸ hcodes.first, ht ▸ huniq ▸ hcodes.mem, ⟨huniq ▸ hu.1, hlocal⟩, ?_, ?_⟩
  · intro i hi
    have hlt : i < codes.length := by rw [hcodes.length, hfull]; exact hi
    have hk := hcodes.decode i codes[i] (List.getElem?_eq_getElem hlt)
    refine ⟨codes[i], t.blob[i], ?_, ?_, ?_⟩
    · rw [hcode, List.getElem?_eq_getElem hlt]
    · rw [huniq, hk, List.getElem?_eq_getElem]
    · rw [ht, List.getElem?_eq_getElem]
  · intro i hi
    rw [h.touched, List.mem_range] at hi
    omega

/-- The loop re-encodes the ids exactly when the tensor fills its blob. -/
theorem reencodes_iff (id : IdTensor) (h : id.tensor.Reached fun shape => ∀ dim ∈ shape, 0 < dim)
    (htype : id.dataType = .kUInt64) :
    (∃ uniqId localId touched, id2UniqId g id = .ok (uniqId, localId, touched) ∧
      Reencodes id.tensor uniqId localId touched) ↔ id.tensor.blob.length = id.tensor.size ∧ id.tensor.blob ≠ [] := by
  obtain ⟨hsize, hroom⟩ := h.size
  have hcap := id.tensor.capacity_lt
  constructor
  · rintro ⟨uniqId, localId, touched, hok, -⟩
    rw [id2UniqId, if_pos htype] at hok
    obtain ⟨t, ht, hok⟩ := bind_eq_ok.mp hok
    obtain ⟨blob, hblob, hok⟩ := bind_eq_ok.mp hok
    obtain ⟨st, hst, -⟩ := bind_eq_ok.mp hok
    unfold mutableBlob at hblob
    split at hblob
    · cases hblob
    · rename_i hne
      cases hblob
      have hle := addIds_room hst (Nat.zero_le _)
      obtain ⟨-, htsize, htlen⟩ := Tensor.new_size ht
      dsimp only at hle
      exact ⟨by omega, hne⟩
  · rintro ⟨hfull, hne⟩
    obtain ⟨t, ht⟩ := Tensor.new_of_size (g := g) (show Tensor.toSizeT (Tensor.intSize id.tensor.shape) < 2 ^ 31 by omega)
    obtain ⟨htshape, htsize, htlen⟩ := Tensor.new_size ht
    have hnil : Interned [] ⟨fun _ => none, [], t, []⟩ :=
      ⟨by simp, ⟨[], t.blob, rfl, Interning.encodes_nil⟩, rfl⟩
    obtain ⟨st, hst, hdone, hshape, hstsize⟩ := hnil.addIds
      (show [].length + id.tensor.blob.length ≤ t.blob.length by
        rw [List.length_nil]
        omega)
    rw [List.nil_append] at hdone
    obtain ⟨codes, r, -, hcodes⟩ := hdone.codes
    have hle := hcodes.length_le
    have hmod : st.uniqId.length % 2 ^ 32 = st.uniqId.length := Nat.mod_eq_of_lt (by omega)
    have huniq : 0 < st.uniqId.length := by
      obtain ⟨x, hx⟩ := List.exists_mem_of_ne_nil _ hne
      exact List.length_pos_of_mem ((hcodes.mem x).mpr hx)
    obtain ⟨v, hv, hvshape, hvsize, hvlen⟩ := Tensor.new_spec g (show [st.uniqId.length].prod < 2 ^ 31 by simp; omega)
      (by simpa using huniq)
    rw [List.prod_singleton] at hvsize hvlen
    obtain ⟨u, hu, hushape, husize, hublob⟩ := writeFrom_eq (List.nil_append v.blob).symm hvlen.ge
    rw [List.nil_append, ← hvlen, List.drop_length, List.append_nil] at hublob
    refine ⟨u, st.localId, st.touched, ?_, .of_interned hdone hfull
      ⟨hushape.trans hvshape, husize.trans hvsize, hublob⟩ ⟨hshape.trans htshape, hstsize.trans (htsize.trans hsize.symm)⟩⟩
    rw [id2UniqId, if_pos htype, ht, ok_bind, mutableBlob, if_neg hne, ok_bind]
    rw [List.length_nil] at hst hu
    rw [hst, ok_bind, hmod]
    dsimp only
    rw [hv, ok_bind, List.take_length, hu]
    rfl

theorem reencodes_four : ∃ uniqId localId touched,
    id2UniqId (fun i => i) ⟨.kUInt64, ofElements [12, 0, 13, 12] (by simp)⟩ = .ok (uniqId, localId, touched) ∧
      Reencodes (ofElements [12, 0, 13, 12] (by simp)) uniqId localId touched :=
  (reencodes_iff ⟨.kUInt64, ofElements [12, 0, 13, 12] (by simp)⟩ (reached_ofElements (by simp) (by simp) (by simp)) rfl).mpr
    ⟨rfl, by simp [ofElements]⟩

/-- Four ids, of which two are left after a Reshape. -/
def shrunk : Tensor ℕ := ⟨[2], 2, [12, 0, 13, 12], by simp⟩

theorem reached_shrunk : shrunk.Reached fun shape => ∀ dim ∈ shape, 0 < dim := by
  have hfour : (ofElements [12, 0, 13, 12] (by simp)).Reached fun shape => ∀ dim ∈ shape, 0 < dim :=
    reached_ofElements (by simp) (by simp) (by simp)
  obtain ⟨u, hu, hshape, hsize, hblob⟩ := @Tensor.reshape_le _ [2] (ofElements [12, 0, 13, 12] (by simp)) id
    (by simp [ofElements]) (by simp)
  have hreshape := Tensor.Reached.reshape hfour (by simp) hu
  rwa [show shrunk = u by
    cases u
    simp_all [shrunk, ofElements]]

/-- The local id of the third of two elements is written behind the new tensor. -/
theorem id2UniqId_overruns : (shrunk.Reached fun shape => ∀ dim ∈ shape, 0 < dim) ∧
    ¬ ∃ uniqId localId touched, id2UniqId (fun i => i) ⟨.kUInt64, shrunk⟩ = .ok (uniqId, localId, touched) ∧
      Reencodes shrunk uniqId localId touched := by
  refine ⟨reached_shrunk, ?_⟩
  rintro ⟨uniqId, localId, touched, hok, -⟩
  have herr : id2UniqId (fun i => i) ⟨.kUInt64, shrunk⟩ = .error .memory := by rfl
  rw [herr] at hok
  cases hok

end Utils
end Hpps.Feeder

import Hpps.Common.Tensor
import Hpps.Feeder.RecordIo

/-! `RecordIO::Split`: a batch is cut in two between two of its rows. -/
namespace Hpps.Feeder

inductive TensorDataType
  | kUInt32
  | kUInt64
  | kFloat32
  deriving DecidableEq

/-- A tensor of a batch and the configuration of its item. An element is the number that its bits encode. -/
structure Column where
  config : ItemConfig
  dataType : TensorDataType
  tensor : Tensor ℕ

namespace Split

def isAux (config : ItemConfig) : Bool := config.isAuxNumber ≠ 0

/-- A negative level is no index. -/
def levelOf (config : ItemConfig) : Except Stop ℕ :=
  if 0 ≤ config.level.toInt then .ok config.level.toInt.toNat else .error .memory

/-- Conversion to `uint32_t`. -/
def toUInt32 (n : ℤ) : ℕ := (n % 2 ^ 32).toNat

/-- `std::vector::resize`; what it adds are null pointers. -/
def resize (n : ℕ) (ids : List (Option ℕ)) : List (Option ℕ) := ids.take n ++ List.replicate (n - ids.length) none

/-- `id_num_tensor`: for each level the place of its aux tensor in the batch. -/
def collect : ℕ → List Column → List (Option ℕ) → Except Stop (List (Option ℕ))
  | _, [], ids => .ok ids
  | i, c :: raw, ids =>
    if isAux c.config then
      if c.dataType = .kUInt32 then do
        let level ← levelOf c.config
        collect (i + 1) raw ((resize (level + 1) ids).set level (some i))
      else .error .check
    else collect (i + 1) raw ids

/-- `id_num_tensor[i]`, which may be out of range, null or without a block. -/
def tensorAt (raw : List Column) (ids : List (Option ℕ)) (i : ℕ) : Except Stop (ℕ × Tensor ℕ) :=
  match ids[i]?.join with
  | some p =>
    match raw[p]? with
    | some c => if c.tensor.blob = [] then .error .memory else .ok (p, c.tensor)
    | none => .error .memory
  | none => .error .memory

/-- The inner loops. Their `i` hides that of the outer loop, so that it counts the tensors and the entries
alike. The result is where the loop breaks, and the prefix sum. -/
def scan (raw : List Column) (ids : List (Option ℕ)) (threshold : ℕ) : ℕ → ℕ → ℕ → Except Stop (Option ℕ × ℕ)
  | 0, _, _ => .error .memory
  | n + 1, i, sum => do
    let (_, t) ← tensorAt raw ids i
    match t.blob[i]? with
    | some count =>
      if threshold ≤ sum + count then return (some i, sum + count)
      else scan raw ids threshold n (i + 1) (sum + count)
    | none => return (none, sum)

structure Cut where
  raw : List Column
  firstTop : List ℕ
  secondBottom : List ℕ
  firstThreshold : ℕ
  secondThreshold : ℕ
  newIdNum : List (Tensor ℕ)

/-- The entries of an aux tensor from `i` on, for the second half: each is written as entry `i`. -/
def newCounts (t new : Tensor ℕ) (i : ℕ) (first : ℕ) : Except Stop (Tensor ℕ) := do
  let count ← fetch t.blob i 1
  let new ← (List.range (t.blob.length - i)).foldlM (fun new j => new.write j count) new
  new.write 0 [first]

/-- The first `i + 1` entries, the last of them less by `n`. -/
def oldCounts (g : ℕ → ℕ) (t : Tensor ℕ) (i : ℕ) (n : ℤ) : Except Stop (Tensor ℕ) := do
  let t ← t.reshape g [(i + 1) % 2 ^ 32]
  match t.blob[i]? with
  | some count => t.write i [toUInt32 (count - n)]
  | none => throw .memory

/-- What is done for the index `i` at which the second inner loop breaks. -/
def cutAt (g : ℕ → ℕ) (ids : List (Option ℕ)) (st : Cut) (sum0 sum1 i : ℕ) : Except Stop Cut := do
  let (p, t) ← tensorAt st.raw ids i
  let new ← Tensor.new g [toUInt32 (t.blob.length - i)]
  let newIdNum := st.newIdNum ++ [new]
  match newIdNum[i]?, st.firstTop[i]?, st.raw[p]? with
  | some new, some top, some c => do
    let new ← newCounts t new i (toUInt32 (sum1 - st.secondThreshold + 1))
    let t ← oldCounts g t i (sum0 - top)
    return { st with
      raw := st.raw.set p { c with tensor := t }
      secondBottom := st.secondBottom.set i st.secondThreshold
      secondThreshold := i + 1
      newIdNum := newIdNum.set i new }
  | _, _, _ => throw .memory

/-- One round of the outer loop. -/
def round (g : ℕ → ℕ) (ids : List (Option ℕ)) (st : Cut) : Except Stop Cut := do
  let (top, sum0) ← scan st.raw ids st.firstThreshold (ids.length + 1) 0 0
  let st := match top with
    | some i => { st with firstTop := st.firstTop.set i st.firstThreshold, firstThreshold := i + 1 }
    | none => st
  let (bottom, sum1) ← scan st.raw ids st.secondThreshold (ids.length + 1) 0 0
  match bottom with
  | some i => cutAt g ids st sum0 sum1 i
  | none => return st

/-- The two halves of one tensor. -/
def splitColumn (g : ℕ → ℕ) (firstTop secondBottom : List ℕ) (newIdNum : List (Tensor ℕ)) (c : Column) :
    Except Stop (Column × Column) := do
  let level ← levelOf c.config
  if isAux c.config then
    match newIdNum[level]? with
    | some t => return (c, { c with dataType := .kUInt32, tensor := t })
    | none => throw .memory
  else
    match firstTop[level]?, secondBottom[level]?, c.tensor.shape with
    | some top, some bottom, dim :: dims => do
      let t ← Tensor.new g (toUInt32 (dim - bottom + 1) :: dims)
      if dim = 0 ∨ c.tensor.blob = [] ∨ t.blob = [] then throw .memory
      let rows ← fetch c.tensor.blob ((bottom + 2 ^ 64 - 1) % 2 ^ 64 * c.tensor.size % 2 ^ 64 / dim) t.size
      let t ← t.write 0 rows
      let first ← c.tensor.reshape g (top % 2 ^ 32 :: dims)
      return ({ c with tensor := first }, { c with tensor := t })
    | _, _, _ => throw .memory

end Split

open Split in
/-- The first half is the batch itself, reshaped. -/
def Split (g : ℕ → ℕ) (raw : List Column) (splitSize : ℕ) : Except Stop (List Column × List Column) := do
  let ids ← collect 0 raw []
  let zeros := List.replicate ids.length 0
  let st ← (List.range ids.length).foldlM (fun st _ => round g ids st)
    ⟨raw, zeros, zeros, splitSize, splitSize + 1, []⟩
  let firstTop := if ids = [] then [splitSize] else st.firstTop ++ [1]
  let secondBottom := if ids = [] then [splitSize + 1] else st.secondBottom ++ [1]
  let halves ← st.raw.mapM (splitColumn g firstTop secondBottom st.newIdNum)
  return halves.unzip

namespace Split

variable {g : ℕ → ℕ} {t u : Tensor ℕ} {c c₁ c₂ d d₁ d₂ aux : Column} {raw pre post first second : List Column}
  {i j n s a b level : ℕ} {α : Type}

/-- The elements by the first dimension. -/
def rows (t : Tensor ℕ) : List (List ℕ) := (List.range (t.shape.headD 0)).map (Rows.row t.shape.tail.prod t.blob)

/-- A tensor of `n` rows that all lie in its block. -/
structure HasRows (n : ℕ) (t : Tensor ℕ) : Prop where
  shape : ∃ dims, t.shape = n :: dims
  pos : ∀ dim ∈ t.shape, 0 < dim
  size : t.size = t.shape.prod
  room : t.size ≤ t.blob.length

/-- What becomes of a tensor of rows that is cut below row `a`, when the second half starts at row `b`. -/
structure Halves (a b : ℕ) (c : Column) (h : Column × Column) : Prop where
  config : h.1.config = c.config ∧ h.2.config = c.config
  dataType : h.1.dataType = c.dataType ∧ h.2.dataType = c.dataType
  first : HasRows a h.1.tensor ∧ rows h.1.tensor = (rows c.tensor).take a
  second : rows h.2.tensor = (rows c.tensor).drop b
  hasRows : ∀ n, HasRows n c.tensor → HasRows (n - b) h.2.tensor
  tail : h.1.tensor.shape.tail = c.tensor.shape.tail ∧ h.2.tensor.shape.tail = c.tensor.shape.tail

theorem HasRows.pos_rows (h : HasRows n t) : 0 < n := by
  obtain ⟨dims, hd⟩ := h.shape
  exact h.pos n (by rw [hd]; exact List.mem_cons_self)

theorem length_rows (h : HasRows n t) : (rows t).length = n := by
  obtain ⟨dims, hd⟩ := h.shape
  simp [rows, hd]

theorem splitColumn_halves {firstTop secondBottom : List ℕ} {newIdNum : List (Tensor ℕ)} (h : HasRows n c.tensor)
    (haux : isAux c.config = false) (hlevel : levelOf c.config = .ok level) (htop : firstTop[level]? = some a)
    (hbottom : secondBottom[level]? = some (b + 1)) (ha : 0 < a) (han : a ≤ n) (hb : b < n) :
    ∃ r, splitColumn g firstTop secondBottom newIdNum c = .ok r ∧ Halves a b c r := by
  obtain ⟨dims, hd⟩ := h.shape
  have hpos : ∀ dim ∈ dims, 0 < dim := fun dim hdim => h.pos dim (by rw [hd]; exact List.mem_cons_of_mem _ hdim)
  have hdims : 0 < dims.prod := List.prod_pos hpos
  have hsize : c.tensor.size = n * dims.prod := by rw [h.size, hd, List.prod_cons]
  have hroom := h.room
  have hcap := c.tensor.capacity_lt
  have hn : n ≤ n * dims.prod := Nat.le_mul_of_pos_right n hdims
  have hrest : (n - b) * dims.prod + b * dims.prod = n * dims.prod := by
    rw [← Nat.add_mul, Nat.sub_add_cancel hb.le]
  have hdim : toUInt32 ((n : ℤ) - ((b + 1 : ℕ) : ℤ) + 1) = n - b := by
    unfold toUInt32
    omega
  obtain ⟨new, hnew, hshape, hnsize, hnlen⟩ := @Tensor.new_spec _ ((n - b) :: dims) g
    (by rw [List.prod_cons]; omega) (List.forall_mem_cons.mpr ⟨by omega, hpos⟩)
  rw [List.prod_cons] at hnsize hnlen
  have hnpos : 0 < (n - b) * dims.prod := Nat.mul_pos (by omega) hdims
  have hoffset : (b + 1 + 2 ^ 64 - 1) % 2 ^ 64 * c.tensor.size % 2 ^ 64 / n = b * dims.prod := by
    have hbig : b * (n * dims.prod) < 2 ^ 64 :=
      (Nat.mul_lt_mul'' (show b < 2 ^ 31 by omega) (show n * dims.prod < 2 ^ 31 by omega)).trans (by norm_num)
    have hmod : (b + 1 + 2 ^ 64 - 1) % 2 ^ 64 = b := by omega
    rw [hmod, hsize, Nat.mod_eq_of_lt hbig, Nat.mul_left_comm, Nat.mul_div_cancel_left _ (by omega)]
  have hfetch : fetch c.tensor.blob (b * dims.prod) new.size =
      .ok ((c.tensor.blob.drop (b * dims.prod)).take ((n - b) * dims.prod)) := by
    rw [fetch, if_pos (by omega), hnsize]
  obtain ⟨u, hu, hushape, husize, hublob⟩ := Tensor.write_all (t := new)
    (v := (c.tensor.blob.drop (b * dims.prod)).take ((n - b) * dims.prod)) (by
      rw [List.length_take, List.length_drop]
      omega)
  obtain ⟨v, hv, hvshape, hvsize, hvblob⟩ := @Tensor.reshape_le _ (a :: dims) c.tensor g (by
    rw [List.prod_cons]
    have := Nat.mul_le_mul_right dims.prod han
    omega) (List.forall_mem_cons.mpr ⟨ha, hpos⟩)
  have hguard : ¬ (n = 0 ∨ c.tensor.blob = [] ∨ new.blob = []) := by
    rintro (h0 | h0 | h0)
    · omega
    · rw [h0, List.length_nil] at hroom
      omega
    · rw [h0, List.length_nil] at hnlen
      omega
  refine ⟨({ c with tensor := v }, { c with tensor := u }), ?_, ⟨rfl, rfl⟩, ⟨rfl, rfl⟩,
    ⟨⟨⟨dims, hvshape⟩, ?_, ?_, ?_⟩, ?_⟩, ?_, ?_, ?_⟩
  · have ham : a % 2 ^ 32 = a := Nat.mod_eq_of_lt (by omega)
    simp only [splitColumn, hlevel, ok_bind, haux, Bool.false_eq_true, if_false, htop, hbottom, hd, hdim, hnew, hguard,
      hoffset, hfetch, hu, ham, hv]
    rfl
  · rw [hvshape]
    exact List.forall_mem_cons.mpr ⟨ha, hpos⟩
  · rw [hvsize, hvshape]
  · rw [hvsize, hvblob, List.prod_cons]
    have := Nat.mul_le_mul_right dims.prod han
    omega
  · rw [rows, rows, hvshape, hvblob, hd, ← List.map_take, List.take_range, List.headD_cons, List.headD_cons,
      min_eq_left han]
    rfl
  · rw [rows, rows, hushape, hshape, hublob, hd]
    apply List.ext_getElem (by simp)
    intro i hi hi'
    have hi : i < n - b := by simpa using hi
    have hle : (i + 1) * dims.prod ≤ (n - b) * dims.prod := Nat.mul_le_mul_right _ (by omega)
    simp only [List.getElem_map, List.getElem_range, List.getElem_drop, List.tail_cons]
    rw [Rows.row_take hle, Rows.row_drop]
  · intro m hm
    obtain ⟨dims', hd'⟩ := hm.shape
    rw [hd] at hd'
    cases hd'
    refine ⟨⟨dims, hushape.trans hshape⟩, ?_, ?_, ?_⟩
    · rw [hushape, hshape]
      exact List.forall_mem_cons.mpr ⟨by omega, hpos⟩
    · rw [husize, hnsize, hushape, hshape, List.prod_cons]
    · rw [husize, hnsize, hublob, List.length_take, List.length_drop]
      omega
  · rw [hvshape, hushape, hshape, hd]
    exact ⟨rfl, rfl⟩

/-! ### A batch with one aux tensor, at level 0 -/

/-- The entries of an aux tensor. -/
def counts (t : Tensor ℕ) : List ℕ := t.blob.take t.size

/-- What the aux tensor of a batch counts. -/
def countsOf (raw : List Column) : List ℕ :=
  ((raw.find? fun c => isAux c.config).map fun c => counts c.tensor).getD []

/-- A level-0 batch of `n` rows in groups, with level-1 rows for the groups. The block of the aux tensor holds
its entries and no more, as the reader and Split make it. -/
structure Grouped (n : ℕ) (raw : List Column) : Prop where
  aux : ∃ pre aux post, raw = pre ++ aux :: post ∧ (∀ c ∈ pre ++ post, isAux c.config = false) ∧
    isAux aux.config = true ∧ aux.config.level = 0 ∧ aux.dataType = .kUInt32 ∧
    aux.tensor.shape = [aux.tensor.size] ∧ aux.tensor.blob.length = aux.tensor.size
  columns : ∀ c ∈ raw, isAux c.config = false → c.config.level = 0 ∧ HasRows n c.tensor ∨
    c.config.level = 1 ∧ HasRows (countsOf raw).length c.tensor
  primary : ∃ c ∈ raw, RecordIo.IsPrimary c.config = true
  nonempty : countsOf raw ≠ []
  pos : ∀ k ∈ countsOf raw, 0 < k
  sum : (countsOf raw).sum = n

theorem level_of_primary (hp : RecordIo.IsPrimary c.config = true) : c.config.level = 0 ∧ isAux c.config = false := by
  simpa [RecordIo.IsPrimary, isAux] using hp

theorem levelOf_zero {config : ItemConfig} (h : config.level = 0) : levelOf config = .ok 0 := by
  rw [levelOf, h]
  rfl

theorem levelOf_one {config : ItemConfig} (h : config.level = 1) : levelOf config = .ok 1 := by
  rw [levelOf, h]
  rfl

theorem collect_skip (h : ∀ c ∈ pre, isAux c.config = false) (i : ℕ) (ids : List (Option ℕ)) :
    collect i (pre ++ raw) ids = collect (i + pre.length) raw ids := by
  induction pre generalizing i with
  | nil => rfl
  | cons c pre ih =>
    rw [List.forall_mem_cons] at h
    rw [List.cons_append, collect, h.1, if_neg Bool.false_ne_true, ih h.2, List.length_cons]
    congr 1
    omega

theorem collect_aux (hpre : ∀ c ∈ pre, isAux c.config = false) (hpost : ∀ c ∈ post, isAux c.config = false)
    (haux : isAux aux.config = true) (hlevel : aux.config.level = 0) (htype : aux.dataType = .kUInt32) :
    collect 0 (pre ++ aux :: post) [] = .ok [some pre.length] := by
  rw [collect_skip hpre, collect, if_pos haux, if_pos htype, levelOf_zero hlevel, ok_bind]
  have := @collect_skip [] post hpost (0 + pre.length + 1) ((resize 1 []).set 0 (some (0 + pre.length)))
  rw [List.append_nil] at this
  rw [this, Nat.zero_add]
  rfl

theorem collect_none (h : ∀ c ∈ raw, isAux c.config = false) : collect 0 raw [] = .ok [] := by
  have := @collect_skip [] raw h 0 []
  rw [List.append_nil] at this
  rw [this]
  rfl

section OneAux

variable {a₀ p threshold : ℕ} {rest : List ℕ}

theorem tensorAt_zero (hp : raw[p]? = some aux) (hb : aux.tensor.blob = a₀ :: rest) :
    tensorAt raw [some p] 0 = .ok (p, aux.tensor) := by
  simp [tensorAt, hp, hb]

/-- With one aux tensor a scan that does not break at the first entry runs out of the vector of tensors. -/
theorem scan_one (hp : raw[p]? = some aux) (hb : aux.tensor.blob = a₀ :: rest) :
    scan raw [some p] threshold 2 0 0 = if threshold ≤ a₀ then .ok (some 0, a₀) else .error .memory := by
  rw [scan, tensorAt_zero hp hb, ok_bind]
  simp only [hb, List.getElem?_cons_zero, Nat.zero_add]
  split
  · rfl
  · rfl

theorem fill {m v : ℕ} (h : m ≤ t.blob.length) : ∃ u, (List.range m).foldlM (fun new j => Tensor.write new j [v]) t = .ok u ∧
    u.shape = t.shape ∧ u.size = t.size ∧ u.blob = List.replicate m v ++ t.blob.drop m := by
  induction m with
  | zero => exact ⟨t, rfl, rfl, rfl, rfl⟩
  | succ m ih =>
    obtain ⟨u, hu, hshape, hsize, hblob⟩ := ih (by omega)
    obtain ⟨w, hw, hwshape, hwsize, hwblob⟩ := Tensor.write_append (v := [v]) hblob (List.length_replicate ..)
      (by rw [List.length_drop, List.length_singleton]; omega)
    refine ⟨w, ?_, hwshape.trans hshape, hwsize.trans hsize, ?_⟩
    · rw [List.range_succ, List.foldlM_append, hu, ok_bind, List.foldlM_cons, hw]
      rfl
    · rw [hwblob, List.drop_drop, List.replicate_succ', List.length_singleton]

theorem newCounts_zero {v : ℕ} (ht : t.blob = a₀ :: rest) (hu : u.blob.length = rest.length + 1) :
    ∃ w, newCounts t u 0 v = .ok w ∧ w.shape = u.shape ∧ w.size = u.size ∧
      w.blob = v :: List.replicate rest.length a₀ := by
  obtain ⟨w, hw, hshape, hsize, hblob⟩ := fill (t := u) (m := rest.length + 1) (v := a₀) hu.ge
  rw [← hu, List.drop_length, List.append_nil, hu, List.replicate_succ] at hblob
  obtain ⟨x, hx, hxshape, hxsize, hxblob⟩ := Tensor.write_append (t := w) (l := []) (n := 0) hblob rfl
    (by simp : [v].length ≤ _)
  have hfetch : fetch t.blob 0 1 = .ok [a₀] := by simp [fetch, ht]
  refine ⟨x, ?_, hxshape.trans hshape, hxsize.trans hsize, by simpa using hxblob⟩
  rw [newCounts, hfetch, ok_bind, ht, List.length_cons, Nat.sub_zero, hw, ok_bind, hx]

theorem oldCounts_zero {k : ℤ} (ht : t.blob = a₀ :: rest) : ∃ w, oldCounts g t 0 k = .ok w ∧ w.shape = [1] ∧
    w.size = 1 ∧ w.blob = toUInt32 (a₀ - k) :: rest := by
  obtain ⟨w, hw, hshape, hsize, hblob⟩ := @Tensor.reshape_le _ [1] t g (by simp [ht]) (by simp)
  obtain ⟨x, hx, hxshape, hxsize, hxblob⟩ := Tensor.write_append (t := w) (l := []) (n := 0) (hblob.trans ht) rfl
    (by simp : [toUInt32 (a₀ - k)].length ≤ _)
  refine ⟨x, ?_, hxshape.trans hshape, hxsize.trans (by simpa using hsize), by simpa using hxblob⟩
  have hone : (0 + 1) % 2 ^ 32 = 1 := by norm_num
  rw [oldCounts, hone, hw, ok_bind, hblob, ht]
  exact hx

/-- The cut of the aux tensor in its first group. -/
theorem cutAt_zero (hp : raw[p]? = some aux) (hb : aux.tensor.blob = a₀ :: rest) (h32 : a₀ < 2 ^ 32) (hs : s < a₀) :
    ∃ t u : Tensor ℕ, cutAt g [some p] ⟨raw, [s], [0], 1, s + 1, []⟩ a₀ a₀ 0 =
        .ok ⟨raw.set p { aux with tensor := t }, [s], [s + 1], 1, 1, [u]⟩ ∧
      t.shape = [1] ∧ t.size = 1 ∧ t.blob = s :: rest ∧
      u.shape = [rest.length + 1] ∧ u.size = rest.length + 1 ∧
      u.blob = (a₀ - s) :: List.replicate rest.length a₀ := by
  have hcap := aux.tensor.capacity_lt
  rw [hb, List.length_cons] at hcap
  obtain ⟨new, hnew, hshape, hsize, hlen⟩ := @Tensor.new_spec _ [rest.length + 1] g (by simpa using hcap)
    (by simp)
  rw [List.prod_singleton] at hsize hlen
  obtain ⟨u, hu, hushape, husize, hublob⟩ := newCounts_zero (v := a₀ - s) hb hlen
  obtain ⟨t, ht, htshape, htsize, htblob⟩ := oldCounts_zero (g := g) (k := (a₀ : ℤ) - s) hb
  have hfirst : toUInt32 ((a₀ : ℤ) - ((s + 1 : ℕ) : ℤ) + 1) = a₀ - s := by
    unfold toUInt32
    omega
  have hdim : toUInt32 (((rest.length + 1 : ℕ) : ℤ) - ((0 : ℕ) : ℤ)) = rest.length + 1 := by
    unfold toUInt32
    omega
  have hlast : toUInt32 ((a₀ : ℤ) - ((a₀ : ℤ) - s)) = s := by
    unfold toUInt32
    omega
  refine ⟨t, u, ?_, htshape, htsize, by rw [htblob, hlast], hushape.trans hshape, husize.trans hsize, hublob⟩
  rw [cutAt, tensorAt_zero hp hb, ok_bind]
  dsimp only
  rw [hb, List.length_cons, hdim, hnew, ok_bind]
  simp only [hp, List.nil_append, List.getElem?_cons_zero]
  rw [hfirst, hu, ok_bind, ht, ok_bind]
  rfl

/-- The round of the aux tensor: it can be cut in its first group only. -/
theorem round_one (hp : raw[p]? = some aux) (hb : aux.tensor.blob = a₀ :: rest) (h32 : a₀ < 2 ^ 32) (hs : s < a₀) :
    ∃ t u : Tensor ℕ, round g [some p] ⟨raw, [0], [0], s, s + 1, []⟩ =
        .ok ⟨raw.set p { aux with tensor := t }, [s], [s + 1], 1, 1, [u]⟩ ∧
      t.shape = [1] ∧ t.size = 1 ∧ t.blob = s :: rest ∧
      u.shape = [rest.length + 1] ∧ u.size = rest.length + 1 ∧
      u.blob = (a₀ - s) :: List.replicate rest.length a₀ := by
  obtain ⟨t, u, hcut, hspec⟩ := cutAt_zero (g := g) hp hb h32 hs
  refine ⟨t, u, ?_, hspec⟩
  have hscan₀ : scan raw [some p] s 2 0 0 = .ok (some 0, a₀) := by rw [scan_one hp hb, if_pos hs.le]
  have hscan₁ : scan raw [some p] (s + 1) 2 0 0 = .ok (some 0, a₀) := by
    rw [scan_one hp hb, if_pos (Nat.succ_le_of_lt hs)]
  simp only [round, List.length_singleton, Nat.reduceAdd, hscan₀, ok_bind, List.set_cons_zero, Nat.zero_add, hscan₁,
    hcut]

theorem round_stops (hp : raw[p]? = some aux) (hb : aux.tensor.blob = a₀ :: rest) (hs : a₀ ≤ s) :
    round g [some p] ⟨raw, [0], [0], s, s + 1, []⟩ = .error .memory := by
  have hscan₁ : scan raw [some p] (s + 1) 2 0 0 = .error .memory := by
    rw [scan_one hp hb, if_neg (by omega)]
  by_cases hle : s ≤ a₀
  · have hscan₀ : scan raw [some p] s 2 0 0 = .ok (some 0, a₀) := by rw [scan_one hp hb, if_pos hle]
    simp only [round, List.length_singleton, Nat.reduceAdd, hscan₀, ok_bind, hscan₁]
    rfl
  · have hscan₀ : scan raw [some p] s 2 0 0 = .error .memory := by rw [scan_one hp hb, if_neg hle]
    simp only [round, List.length_singleton, Nat.reduceAdd, hscan₀]
    rfl

end OneAux

/-- What becomes of an aux tensor whose first group, of `a₀` rows, is cut after `s` of them: the other `m`
groups of the second half count as many rows as the first one. -/
structure AuxCut (s a₀ m : ℕ) (c : Column) (r : Column × Column) : Prop where
  config : r.1.config = c.config ∧ r.2.config = c.config
  dataType : r.1.dataType = c.dataType ∧ r.2.dataType = .kUInt32
  first : r.1.tensor.shape = [1] ∧ r.1.tensor.size = 1 ∧ counts r.1.tensor = [s]
  second : r.2.tensor.shape = [m + 1] ∧ r.2.tensor.size = m + 1 ∧ r.2.tensor.blob = (a₀ - s) :: List.replicate m a₀

def CutOf (s a₀ m : ℕ) (c : Column) (r : Column × Column) : Prop :=
  if isAux c.config then AuxCut s a₀ m c r else if c.config.level = 0 then Halves s s c r else Halves 1 0 c r

theorem countsOf_aux (hpre : ∀ c ∈ pre, isAux c.config = false) (haux : isAux aux.config = true) :
    countsOf (pre ++ aux :: post) = counts aux.tensor := by
  have hnone : pre.find? (fun c => isAux c.config) = none := by
    rw [List.find?_eq_none]
    intro c hc
    rw [hpre c hc]
    exact Bool.false_ne_true
  rw [countsOf, List.find?_append, hnone, Option.none_or, List.find?_cons, haux]
  rfl

theorem Grouped.le_of_rows (h : Grouped n raw) : n < 2 ^ 31 := by
  obtain ⟨c, hc, hp⟩ := h.primary
  obtain ⟨hlevel, haux⟩ : c.config.level = 0 ∧ c.config.isAuxNumber = 0 := by
    simpa [RecordIo.IsPrimary] using hp
  rcases h.columns c hc (by simp [isAux, haux]) with ⟨-, hr⟩ | ⟨h1, -⟩
  · obtain ⟨dims, hd⟩ := hr.shape
    have hpos : 0 < dims.prod := List.prod_pos fun dim hdim => hr.pos dim (by rw [hd]; exact List.mem_cons_of_mem _ hdim)
    have hle : n ≤ n * dims.prod := Nat.le_mul_of_pos_right n hpos
    have hsize := hr.size
    rw [hd, List.prod_cons] at hsize
    have hroom := hr.room
    have hcap := c.tensor.capacity_lt
    omega
  · rw [hlevel] at h1
    exact absurd h1 (by decide)

theorem set_eq_map (hpre : ∀ c ∈ pre, isAux c.config = false) (hpost : ∀ c ∈ post, isAux c.config = false)
    (haux : isAux aux.config = true) : (pre ++ aux :: post).set pre.length { aux with tensor := t } =
      (pre ++ aux :: post).map fun c => if isAux c.config then { c with tensor := t } else c := by
  have hid : ∀ l : List Column, (∀ c ∈ l, isAux c.config = false) →
      (l.map fun c => if isAux c.config then { c with tensor := t } else c) = l := by
    intro l hl
    conv_rhs => rw [← List.map_id l]
    refine List.map_congr_left fun c hc => ?_
    rw [hl c hc]
    rfl
  rw [List.set_append_right _ _ le_rfl, Nat.sub_self, List.set_cons_zero, List.map_append, List.map_cons, hid pre hpre,
    hid post hpost, if_pos haux]

/-- The aux tensor of a batch, and that it is the only one that Split collects. -/
theorem Grouped.one_aux {a₀ : ℕ} {rest : List ℕ} (h : Grouped n raw) (hc : countsOf raw = a₀ :: rest) :
    ∃ pre aux post, raw = pre ++ aux :: post ∧ (∀ c ∈ pre, isAux c.config = false) ∧
      (∀ c ∈ post, isAux c.config = false) ∧ isAux aux.config = true ∧ aux.config.level = 0 ∧
      aux.tensor.blob = a₀ :: rest ∧ raw[pre.length]? = some aux ∧ collect 0 raw [] = .ok [some pre.length] := by
  obtain ⟨pre, aux, post, hraw, hplain, haux, hlevel, htype, hshape, hexact⟩ := h.aux
  have hpre : ∀ c ∈ pre, isAux c.config = false := fun c hc => hplain c (List.mem_append_left _ hc)
  have hpost : ∀ c ∈ post, isAux c.config = false := fun c hc => hplain c (List.mem_append_right _ hc)
  refine ⟨pre, aux, post, hraw, hpre, hpost, haux, hlevel, ?_, ?_, ?_⟩
  · rw [← hc, hraw, countsOf_aux hpre haux, counts, ← hexact, List.take_length]
  · rw [hraw, List.getElem?_append_right le_rfl, Nat.sub_self]
    rfl
  · rw [hraw]
    exact collect_aux hpre hpost haux hlevel htype

/-- The aux column of a batch is of type `kUInt32`. -/
theorem Grouped.dataType (h : Grouped n raw) (hc : c ∈ raw) (haux : isAux c.config = true) : c.dataType = .kUInt32 := by
  obtain ⟨pre, aux, post, hraw, hplain, -, -, htype, -, -⟩ := h.aux
  rw [hraw] at hc
  rcases List.mem_append.mp hc with hc | hc
  · rw [hplain c (List.mem_append_left _ hc)] at haux
    cases haux
  · rcases List.mem_cons.mp hc with rfl | hc
    · exact htype
    · rw [hplain c (List.mem_append_right _ hc)] at haux
      cases haux

/-- A cut within the first group of the only aux tensor. -/
theorem split_one_aux {a₀ : ℕ} {rest : List ℕ} (hraw : raw = pre ++ aux :: post)
    (hpre : ∀ c ∈ pre, isAux c.config = false) (hpost : ∀ c ∈ post, isAux c.config = false)
    (haux : isAux aux.config = true) (hlevel : aux.config.level = 0) (htype : aux.dataType = .kUInt32)
    (hb : aux.tensor.blob = a₀ :: rest) (h32 : a₀ < 2 ^ 32)
    (hcolumns : ∀ c ∈ raw, isAux c.config = false →
      ∃ n, HasRows n c.tensor ∧ (c.config.level = 0 ∧ s < n ∨ c.config.level = 1)) (hs : 0 < s) (hlt : s < a₀) :
    ∃ halves : List (Column × Column), Split g raw s = .ok halves.unzip ∧
      halves.length = raw.length ∧ ∀ (i : ℕ) (c : Column) (r : Column × Column), raw[i]? = some c →
        halves[i]? = some r → CutOf s a₀ rest.length c r := by
  have hp : raw[pre.length]? = some aux := by
    rw [hraw, List.getElem?_append_right le_rfl, Nat.sub_self]
    rfl
  have hcollect : collect 0 raw [] = .ok [some pre.length] := by
    rw [hraw]
    exact collect_aux hpre hpost haux hlevel htype
  obtain ⟨t, u, hround, htshape, htsize, htblob, hushape, husize, hublob⟩ :=
    round_one (g := g) hp hb h32 hlt
  have hcolumn : ∀ c ∈ raw, ∃ r, splitColumn g [s, 1] [s + 1, 1] [u]
      (if isAux c.config then { c with tensor := t } else c) = .ok r ∧ CutOf s a₀ rest.length c r := by
    intro c hc'
    unfold CutOf
    cases hca : isAux c.config with
    | true =>
      have hceq : c = aux := by
        rw [hraw] at hc'
        rcases List.mem_append.mp hc' with hc' | hc'
        · rw [hpre c hc'] at hca
          cases hca
        · rcases List.mem_cons.mp hc' with rfl | hc'
          · rfl
          · rw [hpost c hc'] at hca
            cases hca
      subst hceq
      refine ⟨({ c with tensor := t }, { c with dataType := .kUInt32, tensor := u }), ?_,
        ⟨rfl, rfl⟩, ⟨rfl, rfl⟩, ⟨htshape, htsize, ?_⟩, hushape, husize, hublob⟩
      · rw [if_pos rfl, splitColumn, levelOf_zero hlevel, ok_bind]
        dsimp only
        rw [if_pos haux]
        rfl
      · rw [counts, htblob, htsize, List.take_succ_cons, List.take_zero]
    | false =>
      simp only [Bool.false_eq_true, if_false]
      obtain ⟨n, hr, ⟨hl, hn⟩ | hl⟩ := hcolumns c hc' hca
      · obtain ⟨r, hr, hhalves⟩ : ∃ r, splitColumn g [s, 1] [s + 1, 1] [u] c = .ok r ∧ Halves s s c r :=
          splitColumn_halves hr hca (levelOf_zero hl) rfl rfl hs hn.le hn
        exact ⟨r, hr, by rwa [if_pos hl]⟩
      · have hn := hr.pos_rows
        obtain ⟨r, hr, hhalves⟩ : ∃ r, splitColumn g [s, 1] [s + 1, 1] [u] c = .ok r ∧ Halves 1 0 c r :=
          splitColumn_halves hr hca (levelOf_one hl) rfl rfl one_pos hn hn
        exact ⟨r, hr, by rwa [if_neg (by rw [hl]; decide)]⟩
  obtain ⟨halves, hmap, hlen, hall⟩ := mapM_eq_ok hcolumn
  refine ⟨halves, ?_, hlen, hall⟩
  have hset : raw.set pre.length { aux with tensor := t } =
      raw.map fun c => if isAux c.config then { c with tensor := t } else c := by
    rw [hraw]
    exact set_eq_map hpre hpost haux
  have hmap' : (raw.set pre.length { aux with tensor := t }).mapM (splitColumn g [s, 1] [s + 1, 1] [u]) =
      .ok halves := by
    rw [hset, List.mapM_map]
    exact hmap
  have hfold : (List.range 1).foldlM (fun st _ => round g [some pre.length] st)
      (⟨raw, [0], [0], s, s + 1, []⟩ : Cut) =
        .ok ⟨raw.set pre.length { aux with tensor := t }, [s], [s + 1], 1, 1, [u]⟩ := by
    rw [List.range_one, List.foldlM_cons, hround, ok_bind]
    rfl
  rw [Split, hcollect, ok_bind]
  dsimp only
  rw [List.length_singleton, List.replicate_one, hfold, ok_bind, if_neg (by simp), if_neg (by simp)]
  simp only [List.cons_append, List.nil_append, hmap', ok_bind]
  rfl

/-- A batch without aux tensors is cut anywhere. -/
theorem split_flat (hcolumns : ∀ c ∈ raw, isAux c.config = false ∧ c.config.level = 0 ∧ ∃ n, HasRows n c.tensor ∧ s < n)
    (hs : 0 < s) : ∃ halves : List (Column × Column), Split g raw s = .ok halves.unzip ∧
      halves.length = raw.length ∧ ∀ (i : ℕ) (c : Column) (r : Column × Column), raw[i]? = some c →
        halves[i]? = some r → Halves s s c r := by
  have hcolumn : ∀ c ∈ raw, ∃ r, splitColumn g [s] [s + 1] [] c = .ok r ∧ Halves s s c r := by
    intro c hc
    obtain ⟨haux, hlevel, n, hr, hn⟩ := hcolumns c hc
    exact splitColumn_halves hr haux (levelOf_zero hlevel) rfl rfl hs hn.le hn
  obtain ⟨halves, hmap, hlen, hall⟩ := mapM_eq_ok hcolumn
  refine ⟨halves, ?_, hlen, hall⟩
  rw [Split, collect_none fun c hc => (hcolumns c hc).1, ok_bind]
  simp only [List.length_nil, List.range_zero, List.foldlM_nil, if_true]
  change (raw.mapM (splitColumn g [s] [s + 1] []) >>= _) = _
  rw [hmap]
  rfl

/-- A cut within the first group. -/
theorem split_grouped {a₀ : ℕ} {rest : List ℕ} (h : Grouped n raw) (hc : countsOf raw = a₀ :: rest) (hs : 0 < s)
    (hlt : s < a₀) : ∃ halves : List (Column × Column), Split g raw s = .ok halves.unzip ∧
      halves.length = raw.length ∧ ∀ (i : ℕ) (c : Column) (r : Column × Column), raw[i]? = some c →
        halves[i]? = some r → CutOf s a₀ rest.length c r := by
  obtain ⟨pre, aux, post, hraw, hpre, hpost, haux, hlevel, hb, hp, -⟩ := h.one_aux hc
  have hle : a₀ ≤ n := by
    rw [← h.sum, hc, List.sum_cons]
    omega
  have hn := h.le_of_rows
  refine split_one_aux hraw hpre hpost haux hlevel (h.dataType (List.mem_of_getElem? hp) haux) hb (by omega)
    (fun c hc' hca => ?_) hs hlt
  rcases h.columns c hc' hca with ⟨hl, hr⟩ | ⟨hl, hr⟩
  · exact ⟨n, hr, .inl ⟨hl, by omega⟩⟩
  · exact ⟨_, hr, .inr hl⟩

/-- A cut past the first group reads behind the vector of the aux tensors. -/
theorem split_stops {a₀ : ℕ} {rest : List ℕ} (h : Grouped n raw) (hc : countsOf raw = a₀ :: rest) (hle : a₀ ≤ s) :
    Split g raw s = .error .memory := by
  obtain ⟨pre, aux, post, -, -, -, -, -, hb, hp, hcollect⟩ := h.one_aux hc
  have hfold : (List.range 1).foldlM (fun st _ => round g [some pre.length] st)
      (⟨raw, [0], [0], s, s + 1, []⟩ : Cut) = .error .memory := by
    rw [List.range_one, List.foldlM_cons, round_stops hp hb hle]
    rfl
  rw [Split, hcollect, ok_bind]
  dsimp only
  rw [List.length_singleton, List.replicate_one, hfold]
  rfl

/-! ### Where a batch can be cut -/

/-- The only aux tensor is of level 0, and more than `s` rows are in its first group. -/
def FirstGroup (s : ℕ) (raw : List Column) : Prop :=
  ∃ (p : ℕ) (aux : Column) (a₀ : ℕ) (rest : List ℕ), raw[p]? = some aux ∧
    (∀ (i : ℕ) (c : Column), raw[i]? = some c → isAux c.config = true → i = p) ∧
    isAux aux.config = true ∧ aux.config.level = 0 ∧ aux.dataType = .kUInt32 ∧ aux.tensor.blob = a₀ :: rest ∧
    a₀ < 2 ^ 32 ∧ s < a₀

/-- Split cuts the batch after `s` rows: either it has no aux tensors and no levels, or it is cut within its
first group. -/
structure CutsAt (s : ℕ) (raw : List Column) : Prop where
  aux : (∀ c ∈ raw, isAux c.config = false ∧ c.config.level = 0) ∨ FirstGroup s raw
  columns : ∀ c ∈ raw, isAux c.config = false →
    ∃ n, HasRows n c.tensor ∧ (c.config.level = 0 ∧ s < n ∨ c.config.level = 1)

/-- What becomes of a column. -/
def ColumnCut (s : ℕ) (c : Column) (r : Column × Column) : Prop :=
  ∃ a₀ rest, (isAux c.config = true → c.tensor.blob = a₀ :: rest) ∧ CutOf s a₀ rest.length c r

theorem ColumnCut.auxCut {r : Column × Column} (h : ColumnCut s c r) (haux : isAux c.config = true) :
    ∃ a₀ rest, c.tensor.blob = a₀ :: rest ∧ AuxCut s a₀ rest.length c r := by
  obtain ⟨a₀, rest, hb, hcut⟩ := h
  rw [CutOf, if_pos haux] at hcut
  exact ⟨a₀, rest, hb haux, hcut⟩

theorem ColumnCut.level₀ {r : Column × Column} (h : ColumnCut s c r) (haux : isAux c.config = false)
    (hl : c.config.level = 0) : Halves s s c r := by
  obtain ⟨a₀, rest, -, hcut⟩ := h
  rwa [CutOf, haux, if_neg Bool.false_ne_true, if_pos hl] at hcut

theorem ColumnCut.level₁ {r : Column × Column} (h : ColumnCut s c r) (haux : isAux c.config = false)
    (hl : c.config.level = 1) : Halves 1 0 c r := by
  obtain ⟨a₀, rest, -, hcut⟩ := h
  rwa [CutOf, haux, if_neg Bool.false_ne_true, if_neg (by rw [hl]; decide)] at hcut

theorem ColumnCut.config {r : Column × Column} (h : ColumnCut s c r) :
    r.1.config = c.config ∧ r.2.config = c.config := by
  obtain ⟨a₀, rest, -, hcut⟩ := h
  unfold CutOf at hcut
  split_ifs at hcut <;> exact hcut.config

theorem CutsAt.split (h : CutsAt s raw) (hs : 0 < s) : ∃ halves : List (Column × Column),
    Split g raw s = .ok halves.unzip ∧ halves.length = raw.length ∧
      ∀ (i : ℕ) (c : Column) (r : Column × Column), raw[i]? = some c → halves[i]? = some r → ColumnCut s c r := by
  rcases h.aux with hflat | ⟨p, aux, a₀, rest, hp, honly, haux, hlevel, htype, hb, h32, hlt⟩
  · obtain ⟨halves, hsplit, hlen, hall⟩ := split_flat (g := g) (fun c hc => by
      obtain ⟨haux, hl⟩ := hflat c hc
      obtain ⟨n, hr, ⟨-, hn⟩ | hl'⟩ := h.columns c hc haux
      · exact ⟨haux, hl, n, hr, hn⟩
      · rw [hl] at hl'
        exact absurd hl' (by decide)) hs
    refine ⟨halves, hsplit, hlen, fun i c r hi hr => ⟨0, [], fun haux => ?_, ?_⟩⟩
    · rw [(hflat c (List.mem_of_getElem? hi)).1] at haux
      cases haux
    · obtain ⟨haux, hl⟩ := hflat c (List.mem_of_getElem? hi)
      rw [CutOf, haux, if_neg Bool.false_ne_true, if_pos hl]
      exact hall i c r hi hr
  · obtain ⟨hlen, hget⟩ := List.getElem?_eq_some_iff.mp hp
    have hraw : raw = raw.take p ++ aux :: raw.drop (p + 1) := by
      rw [← hget, ← List.drop_eq_getElem_cons, List.take_append_drop]
    have hplain : ∀ (i : ℕ) (c : Column), raw[i]? = some c → i ≠ p → isAux c.config = false := by
      intro i c hi hne
      by_contra hc
      exact hne (honly i c hi (by simpa using hc))
    obtain ⟨halves, hsplit, hlen, hall⟩ := split_one_aux (g := g) hraw (fun c hc => by
        obtain ⟨i, hi⟩ := List.mem_iff_getElem?.mp hc
        have hip : i < p := by
          have := (List.getElem?_eq_some_iff.mp hi).1
          rw [List.length_take] at this
          omega
        rw [List.getElem?_take_of_lt hip] at hi
        exact hplain i c hi (by omega))
      (fun c hc => by
        obtain ⟨i, hi⟩ := List.mem_iff_getElem?.mp hc
        rw [List.getElem?_drop] at hi
        exact hplain _ c hi (by omega)) haux hlevel htype hb h32 h.columns hs hlt
    refine ⟨halves, hsplit, hlen, fun i c r hi hr => ⟨a₀, rest, fun hc => ?_, hall i c r hi hr⟩⟩
    obtain rfl := honly i c hi hc
    rw [hi] at hp
    cases hp
    exact hb

/-- What is left of a batch can be cut where the batch could be cut. -/
theorem CutsAt.rest {halves : List (Column × Column)} {y : ℕ} (h : CutsAt y raw) (hlen : halves.length = raw.length)
    (hall : ∀ (i : ℕ) (c : Column) (r : Column × Column), raw[i]? = some c → halves[i]? = some r → ColumnCut s c r)
    (hy : s < y) : CutsAt (y - s) (halves.map Prod.snd) := by
  have hat : ∀ (i : ℕ) (c₂ : Column), (halves.map Prod.snd)[i]? = some c₂ →
      ∃ c c₁, raw[i]? = some c ∧ ColumnCut s c (c₁, c₂) := by
    intro i c₂ hi
    rw [List.getElem?_map] at hi
    obtain ⟨r, hr, rfl⟩ := Option.map_eq_some_iff.mp hi
    have hlt := (List.getElem?_eq_some_iff.mp hr).1
    exact ⟨raw[i], r.1, List.getElem?_eq_getElem (by omega), hall i _ r (List.getElem?_eq_getElem (by omega)) hr⟩
  refine ⟨?_, fun c₂ hc₂ haux => ?_⟩
  · rcases h.aux with hflat | ⟨p, aux, a₀, rest, hp, honly, haux, hlevel, htype, hb, h32, hlt⟩
    · refine .inl fun c₂ hc₂ => ?_
      obtain ⟨i, hi⟩ := List.mem_iff_getElem?.mp hc₂
      obtain ⟨c, c₁, hc, hcut⟩ := hat i c₂ hi
      rw [hcut.config.2]
      exact hflat c (List.mem_of_getElem? hc)
    · have hplt := (List.getElem?_eq_some_iff.mp hp).1
      have hr : halves[p]? = some halves[p] := List.getElem?_eq_getElem (by omega)
      have hcut := hall p aux _ hp hr
      obtain ⟨a₀', rest', hb', hcut'⟩ := hcut.auxCut haux
      rw [hb] at hb'
      cases hb'
      refine .inr ⟨p, halves[p].2, a₀ - s, List.replicate rest.length a₀, ?_, ?_, ?_, ?_, ?_, hcut'.second.2.2,
        by omega, by omega⟩
      · rw [List.getElem?_map, hr]
        rfl
      · intro i c₂ hi haux₂
        obtain ⟨c, c₁, hc, hcut⟩ := hat i c₂ hi
        rw [hcut.config.2] at haux₂
        exact honly i c hc haux₂
      · rw [hcut'.config.2, haux]
      · rw [hcut'.config.2, hlevel]
      · exact hcut'.dataType.2
  · obtain ⟨i, hi⟩ := List.mem_iff_getElem?.mp hc₂
    obtain ⟨c, c₁, hc, hcut⟩ := hat i c₂ hi
    have hconfig : c₂.config = c.config := hcut.config.2
    rw [hconfig] at haux ⊢
    obtain ⟨n, hr, ⟨hl, hn⟩ | hl⟩ := h.columns c (List.mem_of_getElem? hc) haux
    · exact ⟨n - s, (hcut.level₀ haux hl).hasRows n hr, .inl ⟨hl, by omega⟩⟩
    · exact ⟨n - 0, (hcut.level₁ haux hl).hasRows n hr, .inr hl⟩

end Split
end Hpps.Feeder

import Hpps.Feeder.Assemble
import Hpps.Feeder.Utils

/-! `Feeder::BatchTensor2Batch`: the tensors of a column are laid behind each other. -/
namespace Hpps.Feeder

open Bytes Split RecordIo Utils

/-- The shape of the result so far, the offsets, and where the next tensor goes. -/
structure Stacked where
  shape : List ℕ
  offsets : List ℕ
  stride : ℕ

namespace Reader

variable {g : ℕ → ℕ} {items : List (Name × ItemConfig)} {item : List Column} {l batchTensor : List (List Column)}
  {c : Column} {t u : Tensor ℕ} {st : Stacked} {pre post dims : List ℕ} {col n : ℕ}
  {batch b : Batch Column}

def stackRow (col : ℕ) (st : Stacked) (item : List Column) : Except Stop Stacked := do
  let c ← orStop .memory item[col]?
  match st.shape, c.tensor.shape with
  | dim :: dims, dim' :: dims' =>
    if dims' = dims then
      return ⟨(dim + dim') % 2 ^ 32 :: dims, st.offsets ++ [st.stride], (st.stride + c.tensor.size) % 2 ^ 64⟩
    else throw .check
  | [], [] => throw .memory
  | _, _ => throw .check

/-- The tensors of a column are of its type, so that as many elements are copied as bytes. -/
def copyRow (col : ℕ) (result : Tensor ℕ) (row : ℕ × List Column) : Except Stop (Tensor ℕ) := do
  let c ← orStop .memory row.2[col]?
  let src ← mutableBlob c.tensor
  let values ← fetch src 0 c.tensor.size
  result.write row.1 values

/-- One round of the loop over the columns. -/
def batchColumn (g : ℕ → ℕ) (items : List (Name × ItemConfig)) (batchTensor : List (List Column)) (col : ℕ) :
    Except Stop Column := do
  let first ← orStop .memory batchTensor.head?
  let c ← orStop .memory first[col]?
  let st ← batchTensor.tail.foldlM (stackRow col) ⟨c.tensor.shape, [0], c.tensor.size⟩
  let (_, config) ← orStop .memory items[col]?
  let dataType ← toDataType config.type
  let result ← Tensor.new g st.shape
  let blob ← mutableBlob result
  let result ← result.write 0 (List.replicate blob.length 0)
  let result ← (st.offsets.zip batchTensor).foldlM (copyRow col) result
  return ⟨config, dataType, result⟩

def batchTensor2Batch (g : ℕ → ℕ) (items : List (Name × ItemConfig)) (batchTensor : List (List Column))
    (batch : Batch Column) : Except Stop (Batch Column) := do
  let first ← orStop .memory batchTensor.head?
  (List.range first.length).foldlM (fun batch col => do
    let result ← batchColumn g items batchTensor col
    batch.set col (some result)) batch

def assembleBatch (g : ℕ → ℕ) (batchSize : ℕ) (r : Reader) : Except Stop (Batch Column × Reader) := do
  let (batchTensor, r') ← readBatchTensor g batchSize r
  let batch ← batchTensor2Batch g r.recordIo.items batchTensor (.new r.recordIo.names)
  return (batch, r')

/-! ### One column -/

/-- The elements of a tensor of the batch. -/
def block (col : ℕ) (item : List Column) : List ℕ := ((item[col]?).map fun c => counts c.tensor).getD []

/-- The rows of a tensor of the batch. -/
def rowsAt (col : ℕ) (item : List Column) : List (List ℕ) := ((item[col]?).map fun c => rows c.tensor).getD []

/-- The batch has rows of these dimensions in the column. -/
def Stackable (col : ℕ) (dims : List ℕ) (item : List Column) : Prop :=
  ∃ c n, item[col]? = some c ∧ HasRows n c.tensor ∧ c.tensor.shape.tail = dims

theorem Stackable.spec (h : Stackable col dims item) : ∃ c, item[col]? = some c ∧ HasRows (dim item col) c.tensor ∧
    c.tensor.shape = dim item col :: dims ∧ c.tensor.size = dim item col * dims.prod ∧
    block col item = c.tensor.blob.take c.tensor.size ∧ (block col item).length = dim item col * dims.prod := by
  obtain ⟨c, n, hc, hrows, htail⟩ := h
  rw [dim_of_hasRows hc hrows]
  obtain ⟨dims', hd⟩ := hrows.shape
  rw [hd, List.tail_cons] at htail
  subst htail
  have hsize : c.tensor.size = n * dims'.prod := by rw [hrows.size, hd, List.prod_cons]
  refine ⟨c, hc, hrows, hd, hsize, by rw [block, hc]; rfl, ?_⟩
  rw [block, hc, Option.map_some, Option.getD_some, counts, List.length_take, min_eq_left hrows.room, hsize]

theorem Stackable.pos (h : Stackable col dims item) : 0 < dims.prod := by
  obtain ⟨c, -, hrows, hshape, -⟩ := h.spec
  exact List.prod_pos fun dim hdim => hrows.pos dim (by rw [hshape]; exact List.mem_cons_of_mem _ hdim)

theorem lt_of_hasRows {t : Tensor ℕ} (h : HasRows n t) : n < 2 ^ 31 := by
  obtain ⟨dims, hd⟩ := h.shape
  have hpos : 0 < dims.prod := List.prod_pos fun d hdim => h.pos d (by rw [hd]; exact List.mem_cons_of_mem _ hdim)
  have hle : n ≤ n * dims.prod := Nat.le_mul_of_pos_right n hpos
  have hsize := h.size
  rw [hd, List.prod_cons] at hsize
  have hroom := h.room
  have hlt := t.capacity_lt
  omega

theorem length_blocks (h : ∀ item ∈ l, Stackable col dims item) :
    (l.flatMap (block col)).length = (l.map fun item => dim item col).sum * dims.prod := by
  induction l with
  | nil => exact (Nat.zero_mul _).symm
  | cons item l ih =>
    rw [List.forall_mem_cons] at h
    obtain ⟨c, -, -, -, -, -, hlen⟩ := h.1.spec
    rw [List.flatMap_cons, List.length_append, ih h.2, hlen, List.map_cons, List.sum_cons, Nat.add_mul]

theorem sizes_pos (h : ∀ item ∈ l, Stackable col dims item) (hne : l ≠ []) :
    0 < dims.prod ∧ ∀ d ∈ (l.map fun item => dim item col).sum :: dims, 0 < d := by
  obtain ⟨first, rest, rfl⟩ := List.exists_cons_of_ne_nil hne
  obtain ⟨c, -, hrows, hshape, -⟩ := (h first List.mem_cons_self).spec
  have hdims : ∀ d ∈ dims, 0 < d := fun d hd => hrows.pos d (by rw [hshape]; exact List.mem_cons_of_mem _ hd)
  have hpos := hrows.pos_rows
  refine ⟨List.prod_pos hdims, List.forall_mem_cons.mpr ⟨?_, hdims⟩⟩
  rw [List.map_cons, List.sum_cons]
  omega

/-- The offsets of the tensors from `p` on. -/
def starts (dims : List ℕ) (col : ℕ) : ℕ → List (List Column) → List ℕ
  | _, [] => []
  | p, item :: l => p :: starts dims col ((p + dim item col * dims.prod) % 2 ^ 64) l

theorem stackRows_eq {dim₀ : ℕ} (offsets : List ℕ) (stride : ℕ) (h : ∀ item ∈ l, Stackable col dims item)
    (hdim : dim₀ < 2 ^ 32) : ∃ stride', l.foldlM (stackRow col) ⟨dim₀ :: dims, offsets, stride⟩ =
      .ok ⟨(dim₀ + (l.map fun item => dim item col).sum) % 2 ^ 32 :: dims, offsets ++ starts dims col stride l, stride'⟩ := by
  induction l generalizing dim₀ offsets stride with
  | nil =>
    refine ⟨stride, ?_⟩
    rw [List.map_nil, List.sum_nil, Nat.add_zero, Nat.mod_eq_of_lt hdim, starts, List.append_nil]
    rfl
  | cons item l ih =>
    rw [List.forall_mem_cons] at h
    obtain ⟨c, hc, -, hshape, hsize, -⟩ := h.1.spec
    have hrow : stackRow col ⟨dim₀ :: dims, offsets, stride⟩ item = .ok ⟨(dim₀ + dim item col) % 2 ^ 32 :: dims,
        offsets ++ [stride], (stride + dim item col * dims.prod) % 2 ^ 64⟩ := by
      rw [stackRow, orStop_eq_ok hc, ok_bind, hshape]
      dsimp only
      rw [if_pos rfl, hsize]
      rfl
    obtain ⟨stride', hstack⟩ := ih (offsets ++ [stride])
      ((stride + dim item col * dims.prod) % 2 ^ 64) h.2 (Nat.mod_lt (dim₀ + dim item col) (by norm_num))
    refine ⟨stride', ?_⟩
    rw [List.foldlM_cons, hrow, ok_bind, hstack, List.map_cons, List.sum_cons, Nat.mod_add_mod, Nat.add_assoc,
      List.append_assoc]
    rfl

/-- What the loop over the rows finds: all dimensions but the first agree. -/
theorem stack_eq {first : List Column} {rest : List (List Column)} (h : ∀ item ∈ first :: rest, Stackable col dims item)
    (hc : first[col]? = some c) : ∃ stride, rest.foldlM (stackRow col) ⟨c.tensor.shape, [0], c.tensor.size⟩ =
      .ok ⟨((first :: rest).map fun item => dim item col).sum % 2 ^ 32 :: dims, starts dims col 0 (first :: rest), stride⟩ := by
  rw [List.forall_mem_cons] at h
  obtain ⟨c', hc', hrows, hshape, hsize, -⟩ := h.1.spec
  cases hc.symm.trans hc'
  have hlt := lt_of_hasRows hrows
  have hroom := hrows.room
  have hcapacity := c.tensor.capacity_lt
  obtain ⟨stride, hstack⟩ := stackRows_eq [0] c.tensor.size h.2 (show dim first col < 2 ^ 32 by omega)
  refine ⟨stride, ?_⟩
  have hnext : (0 + dim first col * dims.prod) % 2 ^ 64 = c.tensor.size := by omega
  rw [hshape, hstack, List.map_cons, List.sum_cons, starts, hnext]
  rfl

/-- As long as the copies stay inside the block, each starts where the one before it ends. -/
theorem copyRows_ok (pre : List ℕ) (h : ∀ item ∈ l, Stackable col dims item) (ht : t.blob = pre ++ post)
    (hu : ((starts dims col pre.length l).zip l).foldlM (copyRow col) t = .ok u) :
    (l.flatMap (block col)).length ≤ post.length ∧ u.shape = t.shape ∧ u.size = t.size ∧
      u.blob = pre ++ l.flatMap (block col) ++ post.drop (l.flatMap (block col)).length := by
  induction l generalizing t pre post with
  | nil =>
    cases hu
    exact ⟨Nat.zero_le _, rfl, rfl, by simpa using ht⟩
  | cons item l ih =>
    rw [List.forall_mem_cons] at h
    obtain ⟨c, hc, hrows, -, hsize, hblock, hlen⟩ := h.1.spec
    rw [starts, List.zip_cons_cons, List.foldlM_cons] at hu
    obtain ⟨v, hv, hu⟩ := bind_eq_ok.mp hu
    obtain ⟨c', hc', hv⟩ := bind_eq_ok.mp hv
    cases (orStop_eq_ok (e := .memory) hc).symm.trans hc'
    obtain ⟨src, hsrc, hv⟩ := bind_eq_ok.mp hv
    obtain ⟨values, hvalues, hv⟩ := bind_eq_ok.mp hv
    have hvals : values = block col item := by
      unfold mutableBlob at hsrc
      split at hsrc <;> cases hsrc
      rw [fetch, if_pos (by rw [Nat.zero_add]; exact hrows.room)] at hvalues
      cases hvalues
      exact hblock.symm
    subst hvals
    obtain ⟨-, hroom, -, -⟩ := length_write hv
    dsimp only at hroom
    have hlt := t.capacity_lt
    rw [ht, List.length_append] at hroom hlt
    obtain ⟨w, hw, hshape, hwsize, hblob⟩ := Tensor.write_append (v := block col item) ht rfl (by omega)
    cases hv.symm.trans hw
    have hstart : (pre.length + dim item col * dims.prod) % 2 ^ 64 = (pre ++ block col item).length := by
      rw [List.length_append, hlen, Nat.mod_eq_of_lt (by omega)]
    rw [hstart] at hu
    obtain ⟨hle, hushape, husize, hublob⟩ := ih _ h.2 hblob hu
    rw [List.length_drop] at hle
    refine ⟨?_, hushape.trans hshape, husize.trans hwsize, ?_⟩
    · rw [List.flatMap_cons, List.length_append]
      omega
    · rw [hublob, List.flatMap_cons, List.length_append, List.drop_drop, List.append_assoc pre]

/-- The copies stay inside a block that has room for all tensors. -/
theorem copyRows_eq (pre : List ℕ) (h : ∀ item ∈ l, Stackable col dims item) (ht : t.blob = pre ++ post)
    (hle : (l.flatMap (block col)).length ≤ post.length) :
    ∃ u, ((starts dims col pre.length l).zip l).foldlM (copyRow col) t = .ok u := by
  induction l generalizing t pre post with
  | nil => exact ⟨t, rfl⟩
  | cons item l ih =>
    rw [List.forall_mem_cons] at h
    obtain ⟨c, hc, hrows, -, hsize, hblock, hlen⟩ := h.1.spec
    rw [List.flatMap_cons, List.length_append] at hle
    have hlt := t.capacity_lt
    rw [ht, List.length_append] at hlt
    obtain ⟨v, hv, -, -, hblob⟩ := Tensor.write_append (v := block col item) ht rfl (by omega)
    have hpos : 0 < dim item col * dims.prod := Nat.mul_pos hrows.pos_rows h.1.pos
    have hroom := hrows.room
    have hne : c.tensor.blob ≠ [] := List.ne_nil_of_length_pos (by omega)
    have hcopy : copyRow col t (pre.length, item) = .ok v := by
      rw [copyRow, orStop_eq_ok hc, ok_bind, mutableBlob, if_neg hne, ok_bind, fetch,
        if_pos (by rw [Nat.zero_add]; exact hroom), ok_bind, List.drop_zero, ← hblock]
      exact hv
    have hstart : (pre.length + dim item col * dims.prod) % 2 ^ 64 = (pre ++ block col item).length := by
      rw [List.length_append, hlen, Nat.mod_eq_of_lt (by omega)]
    obtain ⟨u, hu⟩ := ih _ h.2 hblob (by rw [List.length_drop]; omega)
    refine ⟨u, ?_⟩
    rw [starts, List.zip_cons_cons, List.foldlM_cons, hcopy, ok_bind, hstart, hu]

/-- The rows of tensors that are laid behind each other. -/
theorem rows_of_blocks (h : ∀ item ∈ l, Stackable col dims item)
    (hshape : t.shape = (l.map fun item => dim item col).sum :: dims) (hblob : t.blob = l.flatMap (block col)) :
    rows t = l.flatMap (rowsAt col) := by
  rw [rows, hshape, hblob, List.headD_cons, List.tail_cons]
  clear hshape hblob
  induction l with
  | nil => rfl
  | cons item l ih =>
    rw [List.forall_mem_cons] at h
    obtain ⟨c, hc, -, hshape, hsize, hblock, hlen⟩ := h.1.spec
    rw [List.map_cons, List.sum_cons, List.flatMap_cons, List.flatMap_cons, Rows.map_row_append hlen, ih h.2]
    congr 1
    rw [rowsAt, hc, Option.map_some, Option.getD_some, rows, hshape, List.headD_cons, List.tail_cons, hblock]
    refine List.map_congr_left fun i hi => Rows.row_take ?_
    rw [hsize]
    exact Nat.mul_le_mul_right _ (List.mem_range.mp hi)

/-- A column of a batch: if it can be made at all, then all rows are in it. -/
structure Column.Holds (items : List (Name × ItemConfig)) (batchTensor : List (List Column)) (col : ℕ) (dims : List ℕ)
    (c : Column) : Prop where
  config : ∃ name, items[col]? = some (name, c.config)
  dataType : toDataType c.config.type = .ok c.dataType
  hasRows : HasRows (batchTensor.map fun item => dim item col).sum c.tensor
  tail : c.tensor.shape.tail = dims
  blob : c.tensor.blob = batchTensor.flatMap (block col)
  size : c.tensor.size = c.tensor.blob.length
  rows : rows c.tensor = batchTensor.flatMap (rowsAt col)

/-- The steps in which a column was made. -/
theorem batchColumn_parts (hcol : ∀ item ∈ batchTensor, Stackable col dims item)
    (h : batchColumn g items batchTensor col = .ok c) : batchTensor ≠ [] ∧
      (∃ name, items[col]? = some (name, c.config)) ∧ toDataType c.config.type = .ok c.dataType ∧
      ∃ new zeros, Tensor.new g ((batchTensor.map fun item => dim item col).sum % 2 ^ 32 :: dims) = .ok new ∧
        new.write 0 (List.replicate new.blob.length 0) = .ok zeros ∧
        ((starts dims col 0 batchTensor).zip batchTensor).foldlM (copyRow col) zeros = .ok c.tensor := by
  obtain ⟨first, hfirst, h⟩ := bind_eq_ok.mp h
  obtain ⟨c₀, hc₀, h⟩ := bind_eq_ok.mp h
  obtain ⟨st, hst, h⟩ := bind_eq_ok.mp h
  obtain ⟨⟨name, config⟩, hconfig, h⟩ := bind_eq_ok.mp h
  obtain ⟨dataType, htype, h⟩ := bind_eq_ok.mp h
  obtain ⟨new, hnew, h⟩ := bind_eq_ok.mp h
  obtain ⟨blob, hblob, h⟩ := bind_eq_ok.mp h
  obtain ⟨zeros, hzeros, h⟩ := bind_eq_ok.mp h
  obtain ⟨result, hresult, h⟩ := bind_eq_ok.mp h
  cases h
  cases batchTensor with
  | nil => cases hfirst
  | cons item rest =>
    cases hfirst
    obtain ⟨stride, hstack⟩ := stack_eq hcol (orStop_ok hc₀)
    rw [List.tail_cons, hstack] at hst
    cases hst
    unfold mutableBlob at hblob
    split at hblob <;> cases hblob
    exact ⟨List.cons_ne_nil _ _, ⟨name, orStop_ok hconfig⟩, htype, new, zeros, hnew, hzeros, hresult⟩

theorem batchColumn_holds (hcol : ∀ item ∈ batchTensor, Stackable col dims item)
    (h : batchColumn g items batchTensor col = .ok c) : Column.Holds items batchTensor col dims c := by
  obtain ⟨hne, hconfig, htype, new, zeros, hnew, hzeros, hresult⟩ := batchColumn_parts hcol h
  obtain ⟨hlen, -, hzshape, hzsize⟩ := length_write hzeros
  obtain ⟨hfit, hrshape, hrsize, hrblob⟩ := copyRows_ok [] hcol (List.nil_append zeros.blob).symm hresult
  obtain ⟨hW, hpos⟩ := sizes_pos hcol hne
  have hlt := zeros.capacity_lt
  have hblocks := length_blocks hcol
  generalize hn : (batchTensor.map fun item => dim item col).sum = n at *
  have hnle : n ≤ n * dims.prod := Nat.le_mul_of_pos_right n hW
  rw [Nat.mod_eq_of_lt (by omega)] at hnew
  obtain ⟨new', hnew', hnshape, hnsize, hnlen⟩ := @Tensor.new_spec _ (n :: dims) g (by rw [List.prod_cons]; omega) hpos
  cases hnew.symm.trans hnew'
  rw [List.prod_cons] at hnsize hnlen
  have hblob : c.tensor.blob = batchTensor.flatMap (block col) := by
    rw [hrblob, List.nil_append, List.drop_eq_nil_of_le (by omega), List.append_nil]
  have hshape : c.tensor.shape = n :: dims := hrshape.trans (hzshape.trans hnshape)
  have hsize : c.tensor.size = n * dims.prod := hrsize.trans (hzsize.trans hnsize)
  refine ⟨hconfig, htype, ⟨⟨dims, hn.symm ▸ hshape⟩, ?_, ?_, ?_⟩, ?_, hblob, ?_, ?_⟩
  · rw [hshape]
    exact hpos
  · rw [hsize, hshape, List.prod_cons]
  · rw [hsize, hblob, hblocks]
  · rw [hshape, List.tail_cons]
  · rw [hsize, hblob, hblocks]
  · exact rows_of_blocks hcol (by rw [hn, hshape]) hblob

/-- A column of fewer than `2 ^ 31` elements is made. -/
theorem batchColumn_eq {name : Name} {config : ItemConfig} {dataType : TensorDataType}
    (hcol : ∀ item ∈ batchTensor, Stackable col dims item) (hne : batchTensor ≠ [])
    (hconfig : items[col]? = some (name, config)) (htype : toDataType config.type = .ok dataType)
    (hlt : (batchTensor.map fun item => dim item col).sum * dims.prod < 2 ^ 31) :
    ∃ c, batchColumn g items batchTensor col = .ok c := by
  obtain ⟨hW, hpos⟩ := sizes_pos hcol hne
  have hblocks := length_blocks hcol
  obtain ⟨first, rest, rfl⟩ := List.exists_cons_of_ne_nil hne
  obtain ⟨c, hc, -⟩ := (hcol first List.mem_cons_self).spec
  obtain ⟨stride, hstack⟩ := stack_eq hcol hc
  generalize ((first :: rest).map fun item => dim item col).sum = n at *
  have hnle : n ≤ n * dims.prod := Nat.le_mul_of_pos_right n hW
  have hnpos : 0 < n * dims.prod := Nat.mul_pos (hpos n List.mem_cons_self) hW
  obtain ⟨new, hnew, -, -, hnlen⟩ := @Tensor.new_spec _ (n :: dims) g (by rw [List.prod_cons]; omega) hpos
  rw [List.prod_cons] at hnlen
  obtain ⟨zeros, hzeros, -, -, hzblob⟩ := Tensor.write_all (t := new) (v := List.replicate new.blob.length 0)
    List.length_replicate
  obtain ⟨result, hresult⟩ := copyRows_eq (t := zeros) [] hcol (List.nil_append zeros.blob).symm
    (by rw [hzblob, List.length_replicate]; omega)
  rw [List.length_nil] at hresult
  refine ⟨⟨config, dataType, result⟩, ?_⟩
  rw [batchColumn, List.head?_cons, orStop_eq_ok rfl, ok_bind, orStop_eq_ok hc, ok_bind, List.tail_cons, hstack, ok_bind,
    orStop_eq_ok hconfig, ok_bind]
  dsimp only
  rw [htype, ok_bind, Nat.mod_eq_of_lt (by omega), hnew, ok_bind, mutableBlob,
    if_neg (List.ne_nil_of_length_pos (by omega)), ok_bind, hzeros, ok_bind, hresult]
  rfl

/-! ### All columns -/

theorem setColumns_ok {f : ℕ → Except Stop Column} (h : (List.range n).foldlM (fun batch col => do
    let result ← f col
    batch.set col (some result)) b = .ok batch) :
    ∀ col < n, ∃ c, f col = .ok c ∧ batch.getAt col = .ok (some c) := by
  induction n generalizing batch with
  | zero => exact fun col hcol => absurd hcol (Nat.not_lt_zero col)
  | succ n ih =>
    rw [List.range_succ, List.foldlM_append] at h
    obtain ⟨b', hb', h⟩ := bind_eq_ok.mp h
    rw [List.foldlM_cons] at h
    obtain ⟨b₂, hb₂, h⟩ := bind_eq_ok.mp h
    cases h
    obtain ⟨c, hc, hset⟩ := bind_eq_ok.mp hb₂
    intro col hcol
    rcases Nat.lt_succ_iff_lt_or_eq.mp hcol with hlt | rfl
    · obtain ⟨c', hc', hget⟩ := ih hb' col hlt
      exact ⟨c', hc', ((Batch.getAt_set hset).2 hlt.ne).trans hget⟩
    · exact ⟨c, hc, (Batch.getAt_set (j := col) hset).1⟩

theorem batchTensor2Batch_ok {first : List Column} (hfirst : first ∈ batchTensor.head?)
    (h : batchTensor2Batch g items batchTensor batch = .ok b) (hcol : col < first.length) :
    ∃ c, batchColumn g items batchTensor col = .ok c ∧ b.getAt col = .ok (some c) := by
  rw [batchTensor2Batch, orStop_eq_ok hfirst, ok_bind] at h
  exact setColumns_ok h col hcol

theorem setColumns_eq {f : ℕ → Except Stop Column} (hf : ∀ col < n, ∃ c, f col = .ok c) (hn : n ≤ b.tensors.length) :
    ∃ batch : Batch Column, (List.range n).foldlM (fun batch col => do
      let result ← f col
      batch.set col (some result)) b = .ok batch ∧ batch.tensors.length = b.tensors.length := by
  induction n with
  | zero => exact ⟨b, rfl, rfl⟩
  | succ n ih =>
    obtain ⟨b', hb', hlen⟩ := ih (fun col hcol => hf col (hcol.trans n.lt_succ_self)) (Nat.le_of_succ_le hn)
    obtain ⟨c, hc⟩ := hf n n.lt_succ_self
    have hset : b'.set n (some c) = .ok { b' with tensors := b'.tensors.set n (some c) } :=
      if_pos ⟨Int.natCast_nonneg n, by omega⟩
    refine ⟨{ b' with tensors := b'.tensors.set n (some c) }, ?_, (List.length_set ..).trans hlen⟩
    rw [List.range_succ, List.foldlM_append, hb', ok_bind, List.foldlM_cons, hc, ok_bind, hset]
    rfl

end Reader
end Hpps.Feeder

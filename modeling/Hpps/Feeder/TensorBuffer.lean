import Hpps.Feeder.RecordIo

/-! `Tensor` with its members: what `Reshape` keeps of the buffer, and what is written of it. -/
namespace Hpps.Feeder
open Bytes

/-- `blob` holds the bytes of the Blob that `blob_` owns, if any. -/
structure TensorBuffer where
  dataType : UInt8
  shape : List ℕ
  size : ℕ
  capacity : ℕ
  blob : Option (List UInt8)

/-- `Blob(size_t)`, when the allocation succeeds; `g` is what the memory holds. -/
def newBlob (g : ℕ → UInt8) (size : ℕ) : Except Stop (List UInt8) :=
  if 0 < size then .ok ((List.range size).map g) else .error .check

namespace TensorBuffer

variable {g : ℕ → UInt8} {type : UInt8} {elem : ℕ} {s shape : List ℕ} {shapes : List (List ℕ)}
  {t u : TensorBuffer}

/-- The `int` is compared with `capacity_` as a `size_t`, and so is the number of bytes computed. -/
def Reshape (g : ℕ → UInt8) (t : TensorBuffer) (shape : List ℕ) : Except Stop TensorBuffer := do
  let size := Tensor.toSizeT (Tensor.intSize shape)
  if t.capacity < size then
    let elem ← TensorDataTypeSize t.dataType
    let blob ← newBlob g (elem * size % 2 ^ 64)
    return { t with shape := shape, size := size, capacity := size, blob := some blob }
  else return { t with shape := shape, size := size }

def new (g : ℕ → UInt8) (type : UInt8) (shape : List ℕ) : Except Stop TensorBuffer :=
  Reshape g ⟨type, [], 0, 0, none⟩ shape

/-- The bytes of the Blob; 0 where there is none. -/
def bytes (t : TensorBuffer) : ℕ := t.blob.elim 0 List.length

/-- The buffer is there and has room for the size, which is that of the shape. -/
structure Fits (t : TensorBuffer) : Prop where
  size : t.shape.prod < 2 ^ 61 → t.size = t.shape.prod
  blob : t.blob ≠ none
  room : ∃ elem, TensorDataTypeSize t.dataType = .ok elem ∧ t.size * elem ≤ t.bytes

/-- Each state on the way fits, and no call shrinks the buffer. -/
def AlwaysFits (g : ℕ → UInt8) : TensorBuffer → List (List ℕ) → Prop
  | t, [] => Fits t
  | t, shape :: shapes => Fits t ∧ ∃ u, t.Reshape g shape = .ok u ∧ t.bytes ≤ u.bytes ∧ AlwaysFits g u shapes

/-- The product of the dimensions is an `int`; from `2 ^ 61` on only its lower half must be one. -/
def InRange (shape : List ℕ) : Prop :=
  shape.prod < 2 ^ 31 ∨ 2 ^ 61 ≤ shape.prod ∧ shape.prod % 2 ^ 32 < 2 ^ 31

/-! ### The size -/

theorem intSize_eq_bmod (shape : List ℕ) : Tensor.intSize shape = Int.bmod shape.prod (2 ^ 32) := by
  unfold Tensor.intSize
  induction shape using List.reverseRecOn with
  | nil => rfl
  | append_singleton shape d ih =>
    rw [List.foldl_append, List.foldl_cons, List.foldl_nil, ih, Int.bmod_mul_bmod, List.prod_append,
      List.prod_singleton, Int.natCast_mul]

/-- What `size_` becomes: the lower half of the product, its sign extended. -/
def sizeOf (shape : List ℕ) : ℕ :=
  if shape.prod % 2 ^ 32 < 2 ^ 31 then shape.prod % 2 ^ 32 else 2 ^ 64 - 2 ^ 32 + shape.prod % 2 ^ 32

theorem toSizeT_intSize (shape : List ℕ) : Tensor.toSizeT (Tensor.intSize shape) = sizeOf shape := by
  rw [intSize_eq_bmod, Tensor.toSizeT, sizeOf, Int.bmod_def]
  split <;> split <;> omega

theorem sizeOf_lt_iff : sizeOf shape < 2 ^ 31 ↔ shape.prod % 2 ^ 32 < 2 ^ 31 := by
  unfold sizeOf
  split <;> omega

theorem inRange_iff : InRange shape ↔ sizeOf shape < 2 ^ 31 ∧ (shape.prod < 2 ^ 61 → sizeOf shape = shape.prod) := by
  rw [sizeOf_lt_iff, InRange, sizeOf]
  split <;> omega

theorem typeSize_eq_ok_iff : TensorDataTypeSize type = .ok elem ↔
    (type = 0 ∨ type = 2) ∧ elem = 4 ∨ type = 1 ∧ elem = 8 := by
  unfold TensorDataTypeSize
  split_ifs with h0 h1 h2
  · subst h0
    simp [eq_comm]
  · subst h1
    simp [eq_comm]
  · subst h2
    simp [eq_comm]
  · simp [h0, h1, h2]

theorem typeSize_known : (∃ elem, TensorDataTypeSize type = .ok elem) ↔ type ≤ 2 := by
  have hle : type ≤ 2 ↔ type = 0 ∨ type = 1 ∨ type = 2 := by
    have h0 : (0 : UInt8).toNat = 0 := rfl
    have h1 : (1 : UInt8).toNat = 1 := rfl
    have h2 : (2 : UInt8).toNat = 2 := rfl
    rw [UInt8.le_iff_toNat_le, ← UInt8.toNat_inj, ← UInt8.toNat_inj, ← UInt8.toNat_inj, h0, h1, h2]
    omega
  simp only [typeSize_eq_ok_iff, hle]
  constructor
  · rintro ⟨-, ⟨h | h, -⟩ | ⟨h, -⟩⟩ <;> simp [h]
  · rintro (h | h | h) <;> simp [h]

theorem newBlob_of_pos {n : ℕ} (h : 0 < n) : newBlob g n = .ok ((List.range n).map g) := if_pos h

/-! ### The buffer -/

/-- The buffer has `capacity_` elements, and there is one unless `capacity_` is 0. -/
structure Kept (elem : ℕ) (t : TensorBuffer) : Prop where
  type : TensorDataTypeSize t.dataType = .ok elem
  size : t.size ≤ t.capacity
  capacity : t.capacity < 2 ^ 31
  bytes : t.bytes = t.capacity * elem
  blob : t.blob = none ↔ t.capacity = 0

theorem kept_empty (h : TensorDataTypeSize type = .ok elem) : Kept elem ⟨type, [], 0, 0, none⟩ :=
  ⟨h, le_rfl, by norm_num, by simp [bytes], by simp⟩

/-- `Reshape` to a size that is not negative. -/
theorem Kept.reshape (h : Kept elem t) (hs : sizeOf shape < 2 ^ 31) : ∃ u, t.Reshape g shape = .ok u ∧
    Kept elem u ∧ u.dataType = t.dataType ∧ u.shape = shape ∧ u.size = sizeOf shape ∧
      u.capacity = max t.capacity (sizeOf shape) := by
  have helem := typeSize_eq_ok_iff.mp h.type
  unfold Reshape
  rw [toSizeT_intSize]
  by_cases hc : t.capacity < sizeOf shape
  · have hbytes : elem * sizeOf shape % 2 ^ 64 = sizeOf shape * elem := by
      rw [Nat.mul_comm]
      rcases helem with ⟨-, rfl⟩ | ⟨-, rfl⟩ <;> omega
    have hpos : 0 < sizeOf shape * elem := by rcases helem with ⟨-, rfl⟩ | ⟨-, rfl⟩ <;> omega
    dsimp only
    rw [if_pos hc, h.type, ok_bind, hbytes, newBlob_of_pos hpos, ok_bind]
    refine ⟨_, rfl, ⟨h.type, le_rfl, hs, by simp [TensorBuffer.bytes], ?_⟩, rfl, rfl, rfl, (max_eq_right hc.le).symm⟩
    simp only [reduceCtorEq, false_iff]
    omega
  · dsimp only
    rw [if_neg hc]
    exact ⟨_, rfl, ⟨h.type, not_lt.mp hc, h.capacity, h.bytes, h.blob⟩, rfl, rfl, rfl,
      (max_eq_left (not_lt.mp hc)).symm⟩

/-- The buffer under the elements of `e`. -/
structure Under {α : Type} (elem : ℕ) (e : Tensor α) (t : TensorBuffer) : Prop where
  kept : Kept elem t
  shape : t.shape = e.shape
  size : t.size = e.size
  capacity : t.capacity = e.blob.length

/-- A `Reshape` of the elements is one of the buffer under them. -/
theorem Under.reshape {α : Type} {e e' : Tensor α} {f : ℕ → α} (h : Under elem e t) (he : e.reshape f shape = .ok e') :
    ∃ u, t.Reshape g shape = .ok u ∧ Under elem e' u := by
  have hs := Tensor.reshape_ok_iff.mp ⟨e', he⟩
  obtain ⟨hshape, hsize, -⟩ := Tensor.reshape_size he
  rw [toSizeT_intSize] at hs hsize
  obtain ⟨u, hu, hkept, -, hushape, husize, hucapacity⟩ := h.kept.reshape (g := g) hs
  refine ⟨u, hu, hkept, hushape.trans hshape.symm, husize.trans hsize.symm, ?_⟩
  rw [hucapacity, Tensor.reshape_length he, hsize, h.capacity]

/-- The elements end at the sizes of a negative `int`, for which the buffer is told to grow. -/
theorem Under.reshape_negative {α : Type} {e : Tensor α} {f : ℕ → α} (h : Under elem e t) (hs : 2 ^ 31 ≤ sizeOf shape) :
    e.reshape f shape = .error .memory ∧ t.capacity < sizeOf shape :=
  ⟨Tensor.reshape_error (by rwa [toSizeT_intSize]), h.kept.capacity.trans_le hs⟩

theorem Kept.fits (h : Kept elem t) (hsize : t.size = sizeOf t.shape) (hpos : 0 < t.capacity)
    (hrange : InRange t.shape) : Fits t where
  size hlt := hsize.trans ((inRange_iff.mp hrange).2 hlt)
  blob hnone := hpos.ne' (h.blob.mp hnone)
  room := ⟨elem, h.type, h.bytes ▸ Nat.mul_le_mul_right elem h.size⟩

theorem Kept.alwaysFits (h : Kept elem t) (hsize : t.size = sizeOf t.shape) (hpos : 0 < t.capacity)
    (hrange : InRange t.shape) (hshapes : ∀ shape ∈ shapes, InRange shape) : AlwaysFits g t shapes := by
  induction shapes generalizing t with
  | nil => exact h.fits hsize hpos hrange
  | cons shape shapes ih =>
    rw [List.forall_mem_cons] at hshapes
    obtain ⟨u, hu, hkept, -, hshape, hsizeu, hcapacity⟩ := h.reshape (g := g) (inRange_iff.mp hshapes.1).1
    refine ⟨h.fits hsize hpos hrange, u, hu, ?_, ih hkept (by rw [hsizeu, hshape]) (by omega)
      (hshape ▸ hshapes.1) hshapes.2⟩
    rw [h.bytes, hkept.bytes, hcapacity]
    exact Nat.mul_le_mul_right elem (le_max_left _ _)

/-- What any `Reshape` that returns has set. -/
theorem of_reshape (h : t.Reshape g shape = .ok u) (ht : t.bytes < 2 ^ 64) :
    u.dataType = t.dataType ∧ u.shape = shape ∧ u.size = sizeOf shape ∧ u.bytes < 2 ^ 64 ∧
      (u.blob ≠ none → t.blob = none → sizeOf shape ≠ 0) := by
  unfold Reshape at h
  rw [toSizeT_intSize] at h
  dsimp only at h
  split at h
  · rename_i hc
    obtain ⟨elem, -, h⟩ := bind_eq_ok.mp h
    obtain ⟨blob, hblob, h⟩ := bind_eq_ok.mp h
    cases h
    refine ⟨rfl, rfl, rfl, ?_, fun _ _ => by omega⟩
    unfold newBlob at hblob
    split at hblob <;> cases hblob
    simp only [bytes, Option.elim_some, List.length_map, List.length_range]
    exact Nat.mod_lt _ (by norm_num)
  · cases h
    exact ⟨rfl, rfl, rfl, ht, fun hu hnone => absurd hnone hu⟩

theorem Fits.inRange (h : Fits t) (hsize : t.size = sizeOf t.shape) (hbytes : t.bytes < 2 ^ 64) : InRange t.shape := by
  obtain ⟨elem, helem, hroom⟩ := h.room
  have hfour : 4 ≤ elem := by rcases typeSize_eq_ok_iff.mp helem with ⟨-, rfl⟩ | ⟨-, rfl⟩ <;> omega
  have hle : t.size * 4 ≤ t.size * elem := Nat.mul_le_mul_left _ hfour
  refine inRange_iff.mpr ⟨?_, fun hlt => hsize ▸ h.size hlt⟩
  rw [← hsize]
  unfold sizeOf at hsize
  split at hsize <;> omega

theorem AlwaysFits.fits (h : AlwaysFits g t shapes) : Fits t := by
  cases shapes with
  | nil => exact h
  | cons shape shapes => exact h.1

theorem AlwaysFits.inRange (h : AlwaysFits g t shapes) (hbytes : t.bytes < 2 ^ 64) :
    ∀ shape ∈ shapes, InRange shape := by
  induction shapes generalizing t with
  | nil => simp
  | cons shape shapes ih =>
    obtain ⟨-, u, hu, -, hrest⟩ := h
    obtain ⟨-, hshape, hsize, hbytesu, -⟩ := of_reshape hu hbytes
    refine List.forall_mem_cons.mpr ⟨?_, ih hrest hbytesu⟩
    rw [← hshape]
    exact hrest.fits.inRange (by rw [hsize, hshape]) hbytesu

/-- The buffer fits through all calls if and only if the type is known, the first size is not 0 and all
sizes are in range. -/
theorem always_fits_iff (g : ℕ → UInt8) (type : UInt8) (s : List ℕ) (shapes : List (List ℕ)) :
    (∃ t, new g type s = .ok t ∧ AlwaysFits g t shapes) ↔
      type ≤ 2 ∧ s.prod % 2 ^ 32 ≠ 0 ∧ ∀ shape ∈ s :: shapes, InRange shape := by
  have hzero : sizeOf s = 0 ↔ s.prod % 2 ^ 32 = 0 := by
    unfold sizeOf
    split <;> omega
  constructor
  · rintro ⟨t, ht, hfits⟩
    obtain ⟨htype, hshape, hsize, hbytes, hne⟩ := of_reshape ht (by simp [bytes])
    have hsize' : t.size = sizeOf t.shape := by rw [hsize, hshape]
    refine ⟨?_, fun h0 => hne hfits.fits.blob rfl (hzero.mpr h0), List.forall_mem_cons.mpr
      ⟨hshape ▸ hfits.fits.inRange hsize' hbytes, hfits.inRange hbytes⟩⟩
    obtain ⟨elem, helem, -⟩ := hfits.fits.room
    rw [htype] at helem
    exact typeSize_known.mp ⟨elem, helem⟩
  · rintro ⟨htype, hpos, hrange⟩
    rw [List.forall_mem_cons] at hrange
    obtain ⟨elem, helem⟩ : ∃ elem, TensorDataTypeSize type = .ok elem := typeSize_known.mpr htype
    obtain ⟨t, ht, hkept, -, hshape, hsize, hcapacity⟩ :=
      (kept_empty helem).reshape (g := g) (inRange_iff.mp hrange.1).1
    have hcap : 0 < t.capacity := by
      have hne : sizeOf s ≠ 0 := fun h0 => hpos (hzero.mp h0)
      omega
    exact ⟨t, ht, hkept.alwaysFits (by rw [hsize, hshape]) hcap (hshape ▸ hrange.1) hrange.2⟩

/-- A tensor without elements has no buffer, and the size of a shape of `2 ^ 32` elements is 0. -/
theorem not_always_fits : (¬ ∃ t, new (fun _ => 0) 2 [0] = .ok t ∧ AlwaysFits (fun _ => 0) t []) ∧
    ¬ ∃ t, new (fun _ => 0) 2 [1] = .ok t ∧ AlwaysFits (fun _ => 0) t [[65536, 65536]] := by
  constructor
  · rintro ⟨t, ht, hfits⟩
    obtain ⟨-, -, -, -, hne⟩ := of_reshape ht (by simp [bytes])
    exact hne hfits.blob rfl rfl
  · rintro ⟨t, ht, -, u, hu, -, hfits⟩
    obtain ⟨-, -, -, hbytes, -⟩ := of_reshape ht (by simp [bytes])
    obtain ⟨-, hshape, hsize, -⟩ := of_reshape hu hbytes
    have h := hfits.size
    rw [hsize, hshape] at h
    exact absurd (h (by norm_num)) (by decide)

/-! ### What is written -/

/-- `HPPS_TensorLoadData` copies values to an offset. -/
def loadData (t : TensorBuffer) (offset : ℕ) (data : List UInt8) : Except Stop TensorBuffer := do
  let elem ← TensorDataTypeSize t.dataType
  let blob ← orStop .memory t.blob
  let blob ← memcpy blob (elem * offset) data
  return { t with blob := some blob }

/-- `HPPS_TensorExportData` copies the whole Blob. -/
def exportData (t : TensorBuffer) (data : List UInt8) : Except Stop (List UInt8) := do
  let blob ← orStop .memory t.blob
  memcpy data 0 blob

/-- The tensor as `WriteSample` finds it. -/
def raw (t : TensorBuffer) : RawTensor := ⟨t.dataType, t.shape, t.blob.getD []⟩

/-- Constructed and reshaped to these shapes in this order, with data loaded in between. -/
inductive History (type : UInt8) : List (List ℕ) → TensorBuffer → Prop
  | new (g : ℕ → UInt8) (s : List ℕ) (t : TensorBuffer) : TensorBuffer.new g type s = .ok t → History type [s] t
  | reshape (g : ℕ → UInt8) (shapes : List (List ℕ)) (shape : List ℕ) (t u : TensorBuffer) :
      History type shapes t → t.Reshape g shape = .ok u → History type (shapes ++ [shape]) u
  | load (shapes : List (List ℕ)) (offset : ℕ) (data : List UInt8) (t u : TensorBuffer) :
      History type shapes t → t.loadData offset data = .ok u → History type shapes u

/-- Positive dimensions whose product does not overflow. -/
def Regular (shape : List ℕ) : Prop := (∀ dim ∈ shape, 0 < dim) ∧ shape.prod < 2 ^ 31

theorem Regular.sizeOf_eq (h : Regular shape) : sizeOf shape = shape.prod := by
  have := h.2
  unfold sizeOf
  split <;> omega

/-- The capacity is the largest size so far. -/
structure Grown (elem : ℕ) (shapes : List (List ℕ)) (t : TensorBuffer) : Prop where
  kept : Kept elem t
  last : shapes.getLast? = some t.shape
  size : t.size = t.shape.prod
  le : ∀ shape ∈ shapes, shape.prod ≤ t.capacity
  attained : ∃ shape ∈ shapes, shape.prod = t.capacity

theorem History.grown (h : History type shapes t) (helem : TensorDataTypeSize type = .ok elem)
    (hregular : ∀ shape ∈ shapes, Regular shape) : Grown elem shapes t := by
  induction h with
  | new g s t ht =>
    have hs := hregular s (by simp)
    obtain ⟨u, hu, hkept, -, hshape, hsize, hcapacity⟩ :=
      (kept_empty helem).reshape (g := g) (hs.sizeOf_eq ▸ hs.2)
    cases ht.symm.trans hu
    rw [hs.sizeOf_eq] at hsize hcapacity
    dsimp only at hcapacity
    refine ⟨hkept, by simp [hshape], by rw [hsize, hshape], fun shape hmem => ?_, s, by simp, by omega⟩
    rw [List.mem_singleton.mp hmem]
    omega
  | reshape g shapes shape t u _ hu ih =>
    obtain ⟨hkept, -, -, hle, w, hw, hmax⟩ := ih fun shape hmem => hregular shape (by simp [hmem])
    have hs := hregular shape (by simp)
    obtain ⟨u', hu', hkept', -, hshape, hsize, hcapacity⟩ := hkept.reshape (g := g) (hs.sizeOf_eq ▸ hs.2)
    cases hu.symm.trans hu'
    rw [hs.sizeOf_eq] at hsize hcapacity
    refine ⟨hkept', by simp [hshape], by rw [hsize, hshape], fun shape' hmem => ?_, ?_⟩
    · rcases List.mem_append.mp hmem with hmem | hmem
      · have := hle shape' hmem
        omega
      · rw [List.mem_singleton.mp hmem]
        omega
    · by_cases hc : t.capacity ≤ shape.prod
      · exact ⟨shape, by simp, by omega⟩
      · exact ⟨w, by simp [hw], by omega⟩
  | load shapes offset data t u _ hu ih =>
    obtain ⟨hkept, hlast, hsize, hle, hmax⟩ := ih hregular
    obtain ⟨elem', -, hu⟩ := bind_eq_ok.mp hu
    obtain ⟨blob, hblob, hu⟩ := bind_eq_ok.mp hu
    obtain ⟨blob', hblob', hu⟩ := bind_eq_ok.mp hu
    cases hu
    have hsome : t.blob = some blob := by
      cases hb : t.blob with
      | none => simp [hb, orStop] at hblob
      | some b => simpa [hb, orStop] using hblob
    obtain ⟨hroom, rfl⟩ := memcpy_eq_ok_iff.mp hblob'
    refine ⟨⟨hkept.type, hkept.size, hkept.capacity, ?_, ?_⟩, hlast, hsize, hle, hmax⟩
    · have hbytes := hkept.bytes
      rw [TensorBuffer.bytes, hsome] at hbytes
      exact (Rows.length_overwrite hroom).trans hbytes
    · have hnone := hkept.blob
      rw [hsome] at hnone
      simpa using hnone

/-- A record whose samples hold this tensor is read back sample by sample, up to the end of the file. -/
def ReadsBack (t : TensorBuffer) : Prop :=
  ∀ (limit : ℕ) (buf : List UInt8) (tensorMeta : List (Name × ItemConfig)) (samples : List Sample) (w : RecordIo),
    buf.length = kTensorNameLen → tensorMeta.length < 2 ^ 16 →
    (∀ item ∈ tensorMeta, RecordIo.GoodName item.1) →
    (∀ sample ∈ samples, ∀ item ∈ tensorMeta, ∃ u, sample item.1 = some u ∧
      (u = t.raw ∧ item.2.type = t.dataType ∨ RecordIo.GoodTensor item.2.type u)) →
    RecordIo.record limit buf tensorMeta samples = .ok w →
    ∃ r c, RecordIo.readHeader (RecordIo.opened w.stream.buf) = .ok r ∧
      repeated (fun _ => RecordIo.readSampleAsMap r.items) (List.range samples.length) r.stream =
        .ok (samples.map (RecordIo.restrict tensorMeta), c) ∧
      c = ⟨w.stream.buf, w.stream.buf.length⟩

/-- What `WriteSample` adds to the file for the tensor: its dimensions, then the payload. -/
def Emits (t : TensorBuffer) (payload : List UInt8) : Prop :=
  ∀ (limit n : ℕ) (sample : Sample) (name : Name) (config : ItemConfig), sample name = some t.raw →
    (RecordIo.IsPrimary config → t.shape ≠ []) → ∃ m, Writes .fatal limit
      (RecordIo.writeTensors limit sample n [(name, config)])
      (encode 1 t.shape.length ++ (t.shape.flatMap (encode 4) ++ payload)) m

/-- The tensor is written and exported with the bytes of its shape. -/
structure ByShape (elem : ℕ) (t : TensorBuffer) : Prop where
  written : ∃ payload, t.Emits payload ∧ payload.length = t.shape.prod * elem ∧
    ∀ data, payload.length ≤ data.length → t.exportData data = .ok (payload ++ data.drop payload.length)
  readsBack : t.ReadsBack

theorem emits_blob (t : TensorBuffer) : t.Emits (t.blob.getD []) := by
  intro limit n sample name config ht hprimary
  have hdims : Writes .fatal limit (repeated (fun dim => RecordIo.put limit (encode 4 dim)) t.shape)
      (t.shape.flatMap (encode 4)) (t.shape.map fun _ => ()) := .repeated fun _ _ => .write
  have htail : ∀ m, Writes .fatal limit (do
      RecordIo.put limit (encode 1 t.shape.length)
      let _ ← repeated (fun dim => RecordIo.put limit (encode 4 dim)) t.shape
      RecordIo.put limit (t.blob.getD [])
      RecordIo.writeTensors limit sample m [])
      (encode 1 t.shape.length ++ (t.shape.flatMap (encode 4) ++ t.blob.getD [])) m :=
    fun m => .bind .write (.bind hdims (.bind_pure .write .pure))
  by_cases hp : RecordIo.IsPrimary config
  · obtain ⟨d, shape, hd⟩ := List.exists_cons_of_ne_nil (hprimary hp)
    refine ⟨d, .lift (RecordIo.orStop_eq_ok ht) ?_⟩
    simp only [hp, if_true]
    exact .lift (RecordIo.orStop_eq_ok (by simp [raw, hd])) (htail d)
  · refine ⟨n, .lift (RecordIo.orStop_eq_ok ht) ?_⟩
    simp only [hp]
    exact htail n

theorem exportData_eq {blob data : List UInt8} (hb : t.blob = some blob) :
    t.exportData data = if blob.length ≤ data.length then .ok (blob ++ data.drop blob.length) else .error .memory := by
  rw [exportData, RecordIo.orStop_eq_ok hb, ok_bind, memcpy]
  simp [Rows.overwrite]

/-- A record can hold the tensor, but only 255 dimensions come back. -/
theorem ReadsBack.length_lt (h : t.ReadsBack) : t.shape.length < 2 ^ 8 := by
  by_contra hlen
  have hne : t.shape ≠ [] := List.ne_nil_of_length_pos (by omega)
  have hbuf : (List.replicate kTensorNameLen (0 : UInt8)).length = kTensorNameLen := List.length_replicate
  have hname : RecordIo.GoodName [120] := ⟨by decide, by decide, by decide⟩
  have hitem : ∀ item ∈ [(([120] : Name), (⟨t.dataType, 0, 0⟩ : ItemConfig))],
      item = ([120], ⟨t.dataType, 0, 0⟩) := by simp
  have hsample : ∀ sample ∈ [fun _ : Name => some t.raw], sample = fun _ => some t.raw := by simp
  have hcomplete : ∀ sample ∈ [fun _ : Name => some t.raw],
      RecordIo.Complete [([120], ⟨t.dataType, 0, 0⟩)] sample := by
    intro sample hs item hi
    rw [hsample sample hs, hitem item hi]
    exact ⟨t.raw, rfl, fun _ => hne⟩
  have hrecord := (RecordIo.record_eq hbuf (fun item hi => hitem item hi ▸ hname) hcomplete).trans (if_pos le_rfl)
  obtain ⟨r, c, -, hread, -⟩ := h _ _ _ _ _ hbuf (by simp) (fun item hi => hitem item hi ▸ hname)
    (fun sample hs item hi => ⟨t.raw, by rw [hsample sample hs], .inl ⟨rfl, by rw [hitem item hi]⟩⟩) hrecord
  have hall := ((Returns.repeated fun _ _ => RecordIo.returns_readSampleAsMap) _ _ _ hread).2 _ List.mem_cons_self
  exact hlen (hall [120] t.raw (by simp [RecordIo.restrict]))

/-- Written and exported by shape is what no earlier shape was larger than, and read back what has fewer than 256
dimensions as well. -/
theorem by_shape_iff (h : History type shapes t) (helem : TensorDataTypeSize type = .ok elem)
    (hregular : ∀ shape ∈ shapes, Regular shape) :
    ByShape elem t ↔ (∀ shape ∈ shapes, shape.prod ≤ t.shape.prod) ∧ t.shape.length < 2 ^ 8 := by
  obtain ⟨hkept, hlast, hsize, hle, w, hw, hmax⟩ := h.grown helem hregular
  have hmem : t.shape ∈ shapes := List.mem_of_getLast? hlast
  have hpos : 0 < t.shape.prod := List.prod_pos (hregular _ hmem).1
  have hcap : t.shape.prod ≤ t.capacity := hle _ hmem
  obtain ⟨blob, hblob⟩ := Option.ne_none_iff_exists'.mp fun hnone => (hkept.blob.mp hnone ▸ hcap).not_gt hpos
  have hlen : blob.length = t.capacity * elem := by
    have := hkept.bytes
    rwa [TensorBuffer.bytes, hblob] at this
  have helem0 : 0 < elem := by rcases typeSize_eq_ok_iff.mp helem with ⟨-, rfl⟩ | ⟨-, rfl⟩ <;> omega
  constructor
  · rintro ⟨⟨payload, -, hpayload, hexport⟩, hreads⟩
    refine ⟨fun shape hshape => ?_, hreads.length_lt⟩
    have hok := hexport (List.replicate (t.shape.prod * elem) 0) (by simp [hpayload])
    rw [exportData_eq hblob, List.length_replicate] at hok
    split at hok
    · rename_i hfit
      rw [hlen] at hfit
      exact (hle shape hshape).trans (Nat.le_of_mul_le_mul_right hfit helem0)
    · cases hok
  · rintro ⟨hall, hdims⟩
    have hfull : t.capacity = t.shape.prod := le_antisymm (hmax ▸ hall w hw) hcap
    rw [hfull] at hlen
    refine ⟨⟨blob, ?_, hlen, fun data hdata => ?_⟩, ?_⟩
    · have := t.emits_blob
      rwa [hblob] at this
    · rw [exportData_eq hblob, if_pos hdata]
    · intro limit buf tensorMeta samples w hbuf hcount hnames hsamples hrecord
      have hfits : RecordIo.Fits t.dataType t.raw := by
        refine ⟨hdims, (hregular _ hmem).1, (hregular _ hmem).2, ?_⟩
        rw [hkept.type, raw, hblob]
        simp [Except.map, hlen, Nat.mul_comm]
      have hcomplete := RecordIo.complete_of_record hrecord
      have hreadable : ∀ sample ∈ samples, RecordIo.Readable tensorMeta sample := by
        intro sample hsample item hitem
        obtain ⟨u, hu, hcase⟩ := hsamples sample hsample item hitem
        obtain ⟨u', hu', hne⟩ := hcomplete sample hsample item hitem
        obtain rfl := Option.some.inj (hu.symm.trans hu')
        rcases hcase with ⟨rfl, htype⟩ | hother
        · exact ⟨_, hu, htype.symm, htype ▸ hfits, hne⟩
        · exact ⟨u, hu, hother.dataType, hother.fits, hne⟩
      obtain ⟨r, c, hr, -, -, -, hread, hend⟩ := RecordIo.record_read_back hbuf hcount hnames hreadable hrecord
      exact ⟨r, c, hr, hread, hend⟩

theorem by_shape_iff_grown : ∃ t, History 2 [[2], [4]] t ∧ ByShape 4 t := by
  have hhistory : History 2 [[2], [4]] _ :=
    .reshape (fun _ => 0) [[2]] [4] _ _ (.new (fun _ => 0) [2] _ rfl) rfl
  refine ⟨_, hhistory, (by_shape_iff hhistory rfl ?_).mpr ⟨?_, by decide⟩⟩
  · intro shape hshape
    fin_cases hshape <;> exact ⟨by decide, by decide⟩
  · intro shape hshape
    fin_cases hshape <;> decide

/-- Four floats, reshaped to two: the payload still has 16 bytes, and an array of two floats is overrun. -/
theorem not_by_shape : ∃ t, History 2 [[4], [2]] t ∧ (∀ shape ∈ [[4], [2]], Regular shape) ∧ ¬ ByShape 4 t ∧
    (∃ payload, t.Emits payload ∧ payload.length = 16) ∧ t.exportData (List.replicate 8 0) = .error .memory := by
  have hhistory : History 2 [[4], [2]] _ :=
    .reshape (fun _ => 0) [[4]] [2] _ _ (.new (fun _ => 0) [4] _ rfl) rfl
  refine ⟨_, hhistory, ?_, fun h => ?_, ⟨_, emits_blob _, rfl⟩, rfl⟩
  · intro shape hshape
    fin_cases hshape <;> exact ⟨by decide, by decide⟩
  · obtain ⟨payload, -, hlen, hexport⟩ := h.written
    have hfail := hexport (List.replicate 8 0) (by rw [hlen]; decide)
    cases hfail

end TensorBuffer
end Hpps.Feeder

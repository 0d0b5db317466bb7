import Hpps.Feeder.Batch
import Hpps.Feeder.Split

/-! The samples of a record that could be written, and the columns that are read from them. -/
namespace Hpps.Feeder

open Bytes

def toDataType (type : UInt8) : Except Stop TensorDataType :=
  if type = 0 then .ok .kUInt32 else if type = 1 then .ok .kUInt64 else if type = 2 then .ok .kFloat32
  else .error .fatal

/-- The elements of a block, each as the number that its bytes encode. -/
def elements (width : ℕ) (blob : List UInt8) : List ℕ :=
  (List.range (blob.length / width)).map fun i => decode (Rows.row width blob i)

/-- The same tensor by its elements. -/
def toColumn (config : ItemConfig) (t : RawTensor) : Except Stop Column := do
  let dataType ← toDataType t.dataType
  let width ← TensorDataTypeSize t.dataType
  if h : (elements width t.blob).length < 2 ^ 31 then
    return ⟨config, dataType, ⟨t.shape, Tensor.toSizeT (Tensor.intSize t.shape), elements width t.blob, h⟩⟩
  else throw .memory

namespace RecordIo

open Split (HasRows)

variable {limit : ℕ} {buf : List UInt8} {items tensorMeta : List (Name × ItemConfig)} {config : ItemConfig}
  {sample : Sample} {samples : List Sample} {t : RawTensor} {r r' w : RecordIo} {item : List Column}

/-- `ReadSampleAsArray`, with the tensors by their elements. -/
def readColumns (items : List (Name × ItemConfig)) : Serial Stop (List Column) := do
  let array ← readSampleAsArray items
  liftM ((items.zip array).mapM fun p => toColumn p.1.2 p.2)

/-- There is no sample behind the last one. -/
theorem readColumns_end {c : Cursor} (h : c.buf.length < c.pos + 2) : readColumns items c = .error .memory := by
  change (number Stop.memory 2 c >>= fun p => _) >>= (fun p => _) = _
  rw [number_error h]
  rfl

/-! ### Samples that could be written -/

/-- The file of a record holds its samples behind a header with the names as they are shown. -/
theorem record_stored (hbuf : buf.length = kTensorNameLen) (hw : record limit buf tensorMeta samples = .ok w) :
    (∀ sample ∈ samples, Complete tensorMeta sample) ∧ ∃ items, items.map Prod.snd = tensorMeta.map Prod.snd ∧
      (∀ item ∈ items, ShortName item.1) ∧
      w.stream.buf = headerImage buf items (totalRows tensorMeta samples % 2 ^ 64) ++ samplesImage tensorMeta samples := by
  obtain ⟨r₁, hr₁, hw⟩ := bind_eq_ok.mp hw
  obtain ⟨hprinted, hle, rfl⟩ := writeHeader_shown hbuf hr₁
  obtain ⟨r₂, hr₂, hw⟩ := bind_eq_ok.mp hw
  have hcomplete := complete_of_writeSamples hr₂
  refine ⟨hcomplete, (tensorMeta.map cItem).map shownItem, ?_, ?_, ?_⟩
  · rw [List.map_map, List.map_map]
    rfl
  · intro item hitem
    obtain ⟨item', hitem', rfl⟩ := List.mem_map.mp hitem
    obtain ⟨item, hmem, rfl⟩ := List.mem_map.mp hitem'
    exact short_shown (hprinted item hmem) (no_nul_cItem item)
  · rw [writeSamples_eq rfl hle (by norm_num) hcomplete] at hr₂
    split at hr₂
    · rename_i hfit
      cases hr₂
      rw [Nat.zero_add, writeFinalize_eq rfl (by rwa [atEnd, List.length_append])] at hw
      cases hw
      rfl
    · cases hr₂

/-! ### Samples that are read back -/

/-- A sample whose tensors are all read back. -/
def FitSample (items : List (Name × ItemConfig)) (sample : Sample) : Prop :=
  ∀ item ∈ items, ∃ t, sample item.1 = some t ∧ Fits item.2.type t

def columnsOf (items : List (Name × ItemConfig)) (sample : Sample) : Except Stop (List Column) :=
  items.mapM fun item => toColumn item.2 { tensor sample item.1 with dataType := item.2.type }

theorem Fits.column (h : Fits config.type t) : ∃ c, toColumn config { t with dataType := config.type } = .ok c ∧
    c.config = config ∧ toDataType config.type = .ok c.dataType ∧ c.tensor.shape = t.shape ∧
    c.tensor.size = t.shape.prod ∧ c.tensor.blob.length = t.shape.prod ∧
    ∀ width, TensorDataTypeSize config.type = .ok width → c.tensor.blob = elements width t.blob := by
  have hsize : Tensor.toSizeT (Tensor.intSize t.shape) = t.shape.prod := by
    rw [Tensor.intSize_eq h.size_lt h.pos, Tensor.toSizeT_natCast (h.size_lt.trans (by norm_num))]
  obtain ⟨dataType, width, htype, hwidth, hpos⟩ : ∃ dataType width, toDataType config.type = .ok dataType ∧
      TensorDataTypeSize config.type = .ok width ∧ 0 < width := by
    have hb := h.blob
    unfold TensorDataTypeSize at hb ⊢
    unfold toDataType
    split_ifs at hb ⊢
    · exact ⟨_, _, rfl, rfl, by norm_num⟩
    · exact ⟨_, _, rfl, rfl, by norm_num⟩
    · exact ⟨_, _, rfl, rfl, by norm_num⟩
    · cases hb
  have hlen : (elements width t.blob).length = t.shape.prod := by
    have hb := h.blob
    rw [hwidth] at hb
    simp only [Except.map, Except.ok.injEq] at hb
    rw [elements, List.length_map, List.length_range, ← hb, Nat.mul_div_cancel_left _ hpos]
  have hlt : (elements width t.blob).length < 2 ^ 31 := hlen ▸ h.size_lt
  refine ⟨⟨config, dataType, ⟨t.shape, Tensor.toSizeT (Tensor.intSize t.shape), elements width t.blob, hlt⟩⟩, ?_, rfl,
    htype, rfl, hsize, hlen, fun _ h => by cases hwidth.symm.trans h; rfl⟩
  simp only [toColumn, htype, hwidth, ok_bind, hlt, dite_true]
  rfl

/-- A batch of the record's columns, whose primary ones have rows. -/
structure Fit (configs : List ItemConfig) (item : List Column) : Prop where
  configs : item.map Column.config = configs
  primary : ∀ c ∈ item, IsPrimary c.config → ∃ n, HasRows n c.tensor

/-- The columns have the shapes of the sample's tensors, and blocks of just their sizes. -/
theorem columnsOf_spec (h : FitSample tensorMeta sample) : ∃ item, columnsOf tensorMeta sample = .ok item ∧
    item.length = tensorMeta.length ∧ ∀ (i : ℕ) (p : Name × ItemConfig) (c : Column), tensorMeta[i]? = some p →
      item[i]? = some c → c.config = p.2 ∧ toDataType p.2.type = .ok c.dataType ∧
        c.tensor.shape = (tensor sample p.1).shape ∧ c.tensor.size = c.tensor.shape.prod ∧
        c.tensor.blob.length = c.tensor.shape.prod ∧ (∀ dim ∈ c.tensor.shape, 0 < dim) ∧
        ∀ width, TensorDataTypeSize p.2.type = .ok width → c.tensor.blob = elements width (tensor sample p.1).blob := by
  have hcolumn : ∀ p ∈ tensorMeta, ∃ c, toColumn p.2 { tensor sample p.1 with dataType := p.2.type } = .ok c ∧
      (c.config = p.2 ∧ toDataType p.2.type = .ok c.dataType ∧ c.tensor.shape = (tensor sample p.1).shape ∧
        c.tensor.size = c.tensor.shape.prod ∧ c.tensor.blob.length = c.tensor.shape.prod ∧
        (∀ dim ∈ c.tensor.shape, 0 < dim) ∧
        ∀ width, TensorDataTypeSize p.2.type = .ok width → c.tensor.blob = elements width (tensor sample p.1).blob) := by
    intro p hp
    obtain ⟨t, ht, hfits⟩ := h p hp
    rw [tensor, ht, Option.getD_some]
    obtain ⟨c, hc, hconfig, htype, hshape, hsize, hlen, hblob⟩ := hfits.column
    exact ⟨c, hc, hconfig, htype, hshape, hshape ▸ hsize, hshape ▸ hlen, hshape ▸ hfits.pos, hblob⟩
  obtain ⟨item, hmap, hlen, hall⟩ := mapM_eq_ok hcolumn
  exact ⟨item, hmap, hlen, hall⟩

theorem columnsOf_fit (h : FitSample tensorMeta sample) (hc : Complete tensorMeta sample) :
    ∃ item, columnsOf tensorMeta sample = .ok item ∧ Fit (tensorMeta.map Prod.snd) item := by
  obtain ⟨item, hmap, hlen, hall⟩ := columnsOf_spec h
  refine ⟨item, hmap, ?_, fun c hcmem hp => ?_⟩
  · apply List.ext_getElem (by simp [hlen])
    intro i hi hi'
    rw [List.length_map] at hi hi'
    rw [List.getElem_map, List.getElem_map]
    exact (hall i _ _ (List.getElem?_eq_getElem hi') (List.getElem?_eq_getElem hi)).1
  · obtain ⟨i, hi⟩ := List.mem_iff_getElem?.mp hcmem
    have hlt := (List.getElem?_eq_some_iff.mp hi).1
    have hp' : tensorMeta[i]? = some tensorMeta[i] := List.getElem?_eq_getElem (by omega)
    obtain ⟨hconfig, -, hshape, hsize, hblob, hpos, -⟩ := hall i _ c hp' hi
    obtain ⟨t, ht, hne⟩ := hc _ (List.mem_of_getElem? hp')
    rw [tensor, ht, Option.getD_some] at hshape
    obtain ⟨n, dims, hd⟩ := List.exists_cons_of_ne_nil (hne (hconfig ▸ hp))
    exact ⟨n, ⟨dims, hshape.trans hd⟩, hpos, hsize, by rw [hsize, hblob]⟩

theorem reads_columns (hitems : items.map Prod.snd = tensorMeta.map Prod.snd) (hcount : tensorMeta.length < 2 ^ 16)
    (h : FitSample tensorMeta sample) (hcolumns : columnsOf tensorMeta sample = .ok item) :
    Reads (readColumns items) (sampleImage tensorMeta sample) item := by
  have hlen : items.length = tensorMeta.length := by simpa using congrArg List.length hitems
  have hread : ∀ i ∈ tensorMeta, Reads (readTensor i.2.type) (tensorImage (tensor sample i.1))
      { tensor sample i.1 with dataType := i.2.type } := by
    intro i hi
    obtain ⟨t, ht, hfits⟩ := h i hi
    rw [tensor, ht, Option.getD_some]
    exact hfits.reads
  have harray : Reads (readSampleAsArray items) (sampleImage tensorMeta sample)
      (tensorMeta.map fun i => { tensor sample i.1 with dataType := i.2.type }) := by
    have hcount : tensorMeta.length < 256 ^ 2 := hcount
    refine .bind (.number hcount) ?_
    rw [if_pos hlen.symm, repeated_map (r := fun config : ItemConfig => readTensor config.type) (f := Prod.snd), hitems,
      ← repeated_map]
    exact .repeated hread
  refine .bind_pure harray (.liftM ?_)
  -- the pairs of a configuration and a tensor do not depend on the names
  have hzip : ∀ array : List RawTensor, (items.zip array).mapM (fun p => toColumn p.1.2 p.2) =
      ((items.map Prod.snd).zip array).mapM fun p => toColumn p.1 p.2 := by
    intro array
    rw [List.zip_map_left, List.mapM_map]
    rfl
  rw [hzip, hitems, List.zip_map', List.mapM_map]
  exact hcolumns

/-- What is read from the file of a record: its header, and the samples up to one that may not be read. -/
theorem record_provides {read unread : List Sample} {xs : List (List Column)} (hbuf : buf.length = kTensorNameLen)
    (hw : record limit buf tensorMeta (read ++ unread) = .ok w) (hcount : tensorMeta.length < 2 ^ 16)
    (hfit : ∀ sample ∈ read, FitSample tensorMeta sample) (hxs : read.mapM (columnsOf tensorMeta) = .ok xs) :
    ∃ r, readHeader (opened w.stream.buf) = .ok r ∧ r.items.map Prod.snd = tensorMeta.map Prod.snd ∧
      r.sampleCount = totalRows tensorMeta (read ++ unread) % 2 ^ 64 ∧ Provides (readColumns r.items) r.stream xs ∧
      ∀ x ∈ xs, Fit (tensorMeta.map Prod.snd) x := by
  obtain ⟨hcomplete, items, hitems, hshort, hbytes⟩ := record_stored hbuf hw
  have hlen : items.length = tensorMeta.length := by simpa using congrArg List.length hitems
  have htotal : totalRows tensorMeta (read ++ unread) % 2 ^ 64 < 2 ^ 64 := Nat.mod_lt _ (by norm_num)
  have hitemsCount : items.length = items.length % 2 ^ 16 := (Nat.mod_eq_of_lt (hlen ▸ hcount)).symm
  have hread := reads_header_of (samplesImage tensorMeta (read ++ unread)) hbuf hitemsCount htotal hshort
  rw [hbytes]
  refine ⟨_, hread, hitems, rfl, ?_⟩
  have hcomplete : ∀ sample ∈ read, Complete tensorMeta sample :=
    fun sample hsample => hcomplete sample (List.mem_append_left _ hsample)
  choose! columns hcolumns using fun sample hsample => columnsOf_fit (hfit sample hsample) (hcomplete sample hsample)
  rw [mapM_map fun sample hsample => (hcolumns sample hsample).1] at hxs
  cases hxs
  have hreads : ∀ sample ∈ read, Reads (readColumns items) (sampleImage tensorMeta sample) (columns sample) ∧
      sampleImage tensorMeta sample ≠ [] := fun sample hsample =>
    ⟨reads_columns hitems hcount (hfit sample hsample) (hcolumns sample hsample).1, by simp [sampleImage, encode]⟩
  have hprovides := Reads.provides hreads (headerImage buf items (totalRows tensorMeta (read ++ unread) % 2 ^ 64))
    (samplesImage tensorMeta unread)
  rw [List.append_assoc, ← samplesImage, ← samplesImage_append] at hprovides
  refine ⟨hprovides, fun x hx => ?_⟩
  obtain ⟨sample, hsample, rfl⟩ := List.mem_map.mp hx
  exact (hcolumns sample hsample).2

end RecordIo
end Hpps.Feeder

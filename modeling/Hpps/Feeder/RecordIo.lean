import Hpps.Common.Tensor
import Hpps.Lib.Bytes

/-! `RecordIO`: the file of a record. A header and samples, each with one tensor per name. -/
namespace Hpps.Feeder

open Bytes

def HPPS_VERSION : ℕ := 0 * 1000 + 1

def kTensorNameLen : ℕ := 32

abbrev Name := List UInt8

structure ItemConfig where
  type : UInt8
  level : Int32
  isAuxNumber : Int8
  deriving DecidableEq

/-- A tensor as the bytes of its block. -/
structure RawTensor where
  dataType : UInt8
  shape : List ℕ
  blob : List UInt8
  deriving DecidableEq

/-- The maps a sample is given in and returned as. -/
abbrev Sample := Name → Option RawTensor

def orStop {α : Type} (e : Stop) (x : Option α) : Except Stop α := x.elim (.error e) .ok

def TensorDataTypeSize (type : UInt8) : Except Stop ℕ :=
  if type = 0 then .ok 4 else if type = 1 then .ok 8 else if type = 2 then .ok 4 else .error .fatal

/-- The bytes of a new tensor's block; a tensor without elements has none. -/
def blobSize (type : UInt8) (shape : List ℕ) : Except Stop ℕ :=
  let size := Tensor.toSizeT (Tensor.intSize shape)
  if size = 0 then .error .memory
  else if size < 2 ^ 31 then (TensorDataTypeSize type).map (· * size)
  else .error .memory

/-- What a format prints: `%%` is a `%`, and any other directive would take an argument that was not
passed. -/
def printed : List UInt8 → Option (List UInt8)
  | [] => some []
  | c :: format =>
    if c = 37 then
      match format with
      | 37 :: format => (printed format).map (37 :: ·)
      | _ => none
    else (printed format).map (c :: ·)

/-- The format is the name. -/
def snprintf (buf : List UInt8) (name : Name) : Except Stop (List UInt8) :=
  match printed (name.takeWhile (· ≠ 0)) with
  | some text => .ok (Rows.overwrite buf 0 (text.take (buf.length - 1) ++ [0]))
  | none => .error .memory

/-- A `std::string` from a buffer, up to the first NUL. -/
def cString (buf : List UInt8) : Except Stop Name :=
  if 0 ∈ buf then .ok (buf.takeWhile (· ≠ 0)) else .error .memory

/-- `names_` and `configs_` are filled together, item by item. -/
structure RecordIo where
  stream : Cursor
  sampleCount : ℕ
  items : List (Name × ItemConfig)
  version : Int32

namespace RecordIo

variable {limit : ℕ} {buf : List UInt8} {items : List (Name × ItemConfig)} {config : ItemConfig}
  {name : Name} {sample : Sample} {samples : List Sample} {t : RawTensor} {r : RecordIo}

/-- A record whose stream was opened on a file that holds these bytes. -/
def opened (buf : List UInt8) : RecordIo := ⟨⟨buf, 0⟩, 0, [], 0⟩

def names (r : RecordIo) : List Name := r.items.map Prod.fst

def IsPrimary (config : ItemConfig) : Bool := config.level = 0 ∧ config.isAuxNumber = 0

/-- `Write`, which ends the process when the file cannot grow. -/
def put (limit : ℕ) (bytes : List UInt8) : Serial Stop Unit := write .fatal limit bytes

/-- The items of the header. What a name leaves of `buf` is written along with it. -/
def writeItems (limit : ℕ) : List UInt8 → List (Name × ItemConfig) → Serial Stop Unit
  | _, [] => pure ()
  | buf, (name, config) :: items => do
    let buf ← snprintf buf name
    put limit buf
    put limit (encode 1 config.type.toNat)
    put limit (encode 4 config.level.toUInt32.toNat)
    put limit (encode 1 config.isAuxNumber.toUInt8.toNat)
    writeItems limit buf items

def writeHeader (limit : ℕ) (buf : List UInt8) (tensorMeta : List (Name × ItemConfig))
    (r : RecordIo) : Except Stop RecordIo := do
  let items := r.items ++ tensorMeta
  let writer : Serial Stop Unit := do
    put limit (encode 4 HPPS_VERSION)
    put limit (encode 8 r.sampleCount)
    put limit (encode 2 items.length)
    writeItems limit buf items
  let ((), stream) ← writer r.stream
  return ⟨stream, r.sampleCount, items, ⟨UInt32.ofNat HPPS_VERSION⟩⟩

/-- The tensors of a sample, one per item, and the rows it adds to the record. -/
def writeTensors (limit : ℕ) (sample : Sample) : ℕ → List (Name × ItemConfig) → Serial Stop ℕ
  | batchSize, [] => pure batchSize
  | batchSize, (name, config) :: items => do
    let tensor ← orStop .check (sample name)
    let batchSize ← if IsPrimary config then orStop .memory tensor.shape.head? else pure batchSize
    put limit (encode 1 tensor.shape.length)
    let _ ← repeated (fun dim => put limit (encode 4 dim)) tensor.shape
    put limit tensor.blob
    writeTensors limit sample batchSize items

def writeSample (limit : ℕ) (r : RecordIo) (sample : Sample) : Except Stop RecordIo := do
  let writer : Serial Stop ℕ := do
    put limit (encode 2 r.items.length)
    writeTensors limit sample 1 r.items
  let (batchSize, stream) ← writer r.stream
  return { r with stream := stream, sampleCount := (r.sampleCount + batchSize) % 2 ^ 64 }

def writeFinalize (limit : ℕ) (r : RecordIo) : Except Stop RecordIo := do
  let writer : Serial Stop Unit := do
    seek 4
    put limit (encode 8 r.sampleCount)
  let ((), stream) ← writer r.stream
  return { r with stream := stream }

def readItem : Serial Stop (Name × ItemConfig) := do
  let buf ← next .memory kTensorNameLen
  let name ← cString buf
  let type ← number .memory 1
  let level ← number .memory 4
  let isAuxNumber ← number .memory 1
  return (name, ⟨UInt8.ofNat type, ⟨UInt32.ofNat level⟩, ⟨UInt8.ofNat isAuxNumber⟩⟩)

/-- `Read` does not report a file that is too short: the process goes on with what it never read. -/
def readHeader (r : RecordIo) : Except Stop RecordIo := do
  let reader : Serial Stop (ℕ × ℕ × List (Name × ItemConfig)) := do
    let version ← number .memory 4
    let sampleCount ← number .memory 8
    let tensorCount ← number .memory 2
    let items ← repeated (fun _ => readItem) (List.range tensorCount)
    return (version, sampleCount, items)
  let ((version, sampleCount, items), stream) ← reader r.stream
  return ⟨stream, sampleCount, items, ⟨UInt32.ofNat version⟩⟩

def readTensor (type : UInt8) : Serial Stop RawTensor := do
  let dimCount ← number .memory 1
  let shape ← repeated (fun _ => number .memory 4) (List.range dimCount)
  let size ← blobSize type shape
  let blob ← next .memory size
  return ⟨type, shape, blob⟩

def readSampleAsArray (items : List (Name × ItemConfig)) : Serial Stop (List RawTensor) := do
  let count ← number .memory 2
  if count = items.length then repeated (fun item => readTensor item.2.type) items
  else throw .check

def readSampleAsMap (items : List (Name × ItemConfig)) : Serial Stop Sample := do
  let array ← readSampleAsArray items
  return ((items.map Prod.fst).zip array).foldl (fun map p => Function.update map p.1 (some p.2))
    fun _ => none

/-! ### The bytes of a record -/

/-- A header and the bytes that `snprintf` leaves in `buf` after each name. -/
def itemsImage : List UInt8 → List (Name × ItemConfig) → List UInt8
  | _, [] => []
  | buf, (name, config) :: items =>
    let buf := Rows.overwrite buf 0 (name ++ [0])
    buf ++ encode 1 config.type.toNat ++ encode 4 config.level.toUInt32.toNat ++
      encode 1 config.isAuxNumber.toUInt8.toNat ++ itemsImage buf items

def tensorImage (t : RawTensor) : List UInt8 :=
  encode 1 t.shape.length ++ t.shape.flatMap (encode 4) ++ t.blob

/-- What the sample holds for a name. -/
def tensor (sample : Sample) (name : Name) : RawTensor := (sample name).getD ⟨0, [], []⟩

def sampleImage (items : List (Name × ItemConfig)) (sample : Sample) : List UInt8 :=
  encode 2 items.length ++ items.flatMap fun item => tensorImage (tensor sample item.1)

/-- At most 31 characters, none of them `%` or NUL. -/
structure GoodName (name : Name) : Prop where
  length_lt : name.length < kTensorNameLen
  no_nul : 0 ∉ name
  no_percent : 37 ∉ name

/-- A name as it stands in a header. -/
structure ShortName (name : Name) : Prop where
  length_lt : name.length < kTensorNameLen
  no_nul : 0 ∉ name

theorem GoodName.short (h : GoodName name) : ShortName name := ⟨h.length_lt, h.no_nul⟩

/-- A tensor of this type with positive dimensions, whose block has just the size of its shape. -/
structure GoodTensor (type : UInt8) (t : RawTensor) : Prop where
  dataType : t.dataType = type
  dims : 0 < t.shape.length ∧ t.shape.length < 2 ^ 8
  pos : ∀ dim ∈ t.shape, 0 < dim
  size_lt : t.shape.prod < 2 ^ 31
  blob : (TensorDataTypeSize type).map (· * t.shape.prod) = .ok t.blob.length

def GoodSample (items : List (Name × ItemConfig)) (sample : Sample) : Prop :=
  ∀ item ∈ items, ∃ t, sample item.1 = some t ∧ GoodTensor item.2.type t

/-- A tensor that is read back as it was written, but for its data type. -/
structure Fits (type : UInt8) (t : RawTensor) : Prop where
  dims : t.shape.length < 2 ^ 8
  pos : ∀ dim ∈ t.shape, 0 < dim
  size_lt : t.shape.prod < 2 ^ 31
  blob : (TensorDataTypeSize type).map (· * t.shape.prod) = .ok t.blob.length

theorem GoodTensor.fits {type : UInt8} (h : GoodTensor type t) : Fits type t := ⟨h.dims.2, h.pos, h.size_lt, h.blob⟩

/-- A sample that can be written: a tensor for each item, with a first dimension if it is primary. -/
def Complete (items : List (Name × ItemConfig)) (sample : Sample) : Prop :=
  ∀ item ∈ items, ∃ t, sample item.1 = some t ∧ (IsPrimary item.2 → t.shape ≠ [])

theorem GoodSample.complete (h : GoodSample items sample) : Complete items sample := by
  intro item hitem
  obtain ⟨t, ht, hgood⟩ := h item hitem
  exact ⟨t, ht, fun _ => List.ne_nil_of_length_pos hgood.dims.1⟩

/-- A sample that can be written and is then read as it was: a tensor without dimensions may stand where no rows are
counted. -/
def Readable (items : List (Name × ItemConfig)) (sample : Sample) : Prop :=
  ∀ item ∈ items, ∃ t, sample item.1 = some t ∧ t.dataType = item.2.type ∧ Fits item.2.type t ∧
    (IsPrimary item.2 → t.shape ≠ [])

theorem GoodSample.readable (h : GoodSample items sample) : Readable items sample := by
  intro item hitem
  obtain ⟨t, ht, hgood⟩ := h item hitem
  exact ⟨t, ht, hgood.dataType, hgood.fits, fun _ => List.ne_nil_of_length_pos hgood.dims.1⟩

theorem Readable.complete (h : Readable items sample) : Complete items sample := by
  intro item hitem
  obtain ⟨t, ht, -, -, hne⟩ := h item hitem
  exact ⟨t, ht, hne⟩

theorem takeWhile_ne_zero (h : 0 ∉ name) : name.takeWhile (· ≠ 0) = name :=
  List.takeWhile_eq_self_iff.mpr fun c hc => by
    have : c ≠ 0 := fun h0 => h (h0 ▸ hc)
    simpa using this

theorem printed_eq_self (h : 37 ∉ name) : printed name = some name := by
  induction name with
  | nil => rfl
  | cons c name ih =>
    rw [List.mem_cons, not_or] at h
    unfold printed
    rw [if_neg (Ne.symm h.1), ih h.2, Option.map_some]

theorem snprintf_eq (h : GoodName name) (hbuf : buf.length = kTensorNameLen) :
    snprintf buf name = .ok (Rows.overwrite buf 0 (name ++ [0])) := by
  have hlen := h.length_lt
  unfold snprintf
  rw [takeWhile_ne_zero h.no_nul, printed_eq_self h.no_percent]
  dsimp only
  rw [List.take_of_length_le (by omega)]

theorem length_overwrite_name (h : ShortName name) (hbuf : buf.length = kTensorNameLen) :
    (Rows.overwrite buf 0 (name ++ [0])).length = kTensorNameLen := by
  have hlen := h.length_lt
  rw [Rows.length_overwrite, hbuf]
  rw [List.length_append, List.length_singleton]
  omega

theorem cString_overwrite (h : ShortName name) :
    cString (Rows.overwrite buf 0 (name ++ [0])) = .ok name := by
  unfold cString
  rw [if_pos (by simp [Rows.overwrite])]
  have htw : name.takeWhile (· ≠ 0) = name := takeWhile_ne_zero h.no_nul
  simp only [Rows.overwrite, List.take_zero, List.nil_append, List.append_assoc, List.singleton_append]
  rw [List.takeWhile_append, htw]
  simp

theorem orStop_eq_ok {α : Type} {e : Stop} {x : Option α} {a : α} (h : x = some a) :
    orStop e x = .ok a := by
  rw [h, orStop, Option.elim_some]

theorem orStop_ok {α : Type} {e : Stop} {x : Option α} {a : α} (h : orStop e x = .ok a) : x = some a := by
  cases x with
  | none => cases h
  | some b =>
    cases h
    rfl

/-! ### Writing -/

theorem writes_items (hbuf : buf.length = kTensorNameLen) (h : ∀ item ∈ items, GoodName item.1) :
    Writes .fatal limit (writeItems limit buf items) (itemsImage buf items) () := by
  induction items generalizing buf with
  | nil => exact .pure
  | cons item items ih =>
    obtain ⟨name, config⟩ := item
    simp only [List.forall_mem_cons] at h
    simp only [itemsImage, List.append_assoc]
    refine .lift (snprintf_eq h.1 hbuf) ?_
    refine .bind .write (.bind .write (.bind .write (.bind .write ?_)))
    exact ih (length_overwrite_name h.1.short hbuf) h.2

/-- The rows of a sample: the first dimension of its last primary tensor. -/
def rowCount (items : List (Name × ItemConfig)) (sample : Sample) (n : ℕ) : ℕ :=
  match (items.filter fun item => IsPrimary item.2).getLast? with
  | none => n
  | some item => (tensor sample item.1).shape.headD 0

theorem rowCount_cons {item : Name × ItemConfig} {n : ℕ} : rowCount (item :: items) sample n =
    rowCount items sample (if IsPrimary item.2 then (tensor sample item.1).shape.headD 0 else n) := by
  unfold rowCount
  by_cases h : IsPrimary item.2
  · rw [List.filter_cons_of_pos (by simpa using h), List.getLast?_cons, if_pos h]
    cases (items.filter fun item => IsPrimary item.2).getLast? <;> rfl
  · rw [List.filter_cons_of_neg (by simpa using h), if_neg h]

theorem writes_tensors (h : Complete items sample) (n : ℕ) :
    Writes .fatal limit (writeTensors limit sample n items)
      (items.flatMap fun item => tensorImage (tensor sample item.1)) (rowCount items sample n) := by
  induction items generalizing n with
  | nil => exact .pure
  | cons item items ih =>
    obtain ⟨name, config⟩ := item
    obtain ⟨⟨t, ht, hne⟩, hrest⟩ := List.forall_mem_cons.mp h
    have htensor : tensor sample name = t := by rw [tensor, ht, Option.getD_some]
    rw [rowCount_cons, List.flatMap_cons, htensor, tensorImage]
    simp only [List.append_assoc]
    refine .lift (orStop_eq_ok ht) ?_
    have hdims : Writes .fatal limit (repeated (fun dim => put limit (encode 4 dim)) t.shape)
        (t.shape.flatMap (encode 4)) (t.shape.map fun _ => ()) := .repeated fun _ _ => .write
    have htail : ∀ m, Writes .fatal limit (do
        put limit (encode 1 t.shape.length)
        let _ ← repeated (fun dim => put limit (encode 4 dim)) t.shape
        put limit t.blob
        writeTensors limit sample m items)
        (encode 1 t.shape.length ++ (t.shape.flatMap (encode 4) ++ (t.blob ++
          items.flatMap fun item => tensorImage (tensor sample item.1))))
        (rowCount items sample m) :=
      fun m => .bind .write (.bind hdims (.bind .write (ih hrest m)))
    by_cases hp : IsPrimary config
    · obtain ⟨d, hd⟩ : ∃ d, t.shape.head? = some d := by
        cases hs : t.shape with
        | nil => exact absurd hs (hne hp)
        | cons d _ => exact ⟨d, rfl⟩
      rw [if_pos hp]
      simp only [hp, if_true]
      refine .lift (orStop_eq_ok hd) ?_
      rw [List.headD_eq_head?_getD, hd]
      exact htail d
    · rw [if_neg hp]
      simp only [hp]
      exact htail n

/-- Nothing else gets written. -/
theorem returns_writeTensors (n : ℕ) : Returns (writeTensors limit sample n items) fun _ => Complete items sample := by
  induction items generalizing n with
  | nil => exact .pure (by simp [Complete])
  | cons item items ih =>
    obtain ⟨name, config⟩ := item
    refine .lift fun t ht => ?_
    have htail : ∀ m, (IsPrimary config → t.shape ≠ []) → Returns (do
        put limit (encode 1 t.shape.length)
        let _ ← repeated (fun dim => put limit (encode 4 dim)) t.shape
        put limit t.blob
        writeTensors limit sample m items) fun _ => Complete ((name, config) :: items) sample :=
      fun m hne => Returns.any.bind fun _ _ => Returns.any.bind fun _ _ => Returns.any.bind fun _ _ =>
        (ih m).mono fun _ hrest => List.forall_mem_cons.mpr ⟨⟨t, orStop_ok ht, hne⟩, hrest⟩
    by_cases hp : IsPrimary config
    · simp only [hp, if_true]
      refine .lift fun d hd => htail d fun _ hnil => ?_
      simpa [hnil] using orStop_ok hd
    · simp only [hp]
      exact htail n fun h => absurd h hp

theorem writeSample_eq {bytes : List UInt8} (hr : r.stream = atEnd bytes) (hfit : bytes.length ≤ limit)
    (h : Complete r.items sample) : writeSample limit r sample =
      if bytes.length + (sampleImage r.items sample).length ≤ limit then
        .ok { r with
          stream := atEnd (bytes ++ sampleImage r.items sample)
          sampleCount := (r.sampleCount + rowCount r.items sample 1) % 2 ^ 64 }
      else .error .fatal := by
  have hw : Writes .fatal limit (do
      put limit (encode 2 r.items.length)
      writeTensors limit sample 1 r.items) (sampleImage r.items sample) (rowCount r.items sample 1) :=
    .bind .write (writes_tensors h 1)
  have := hw bytes hfit
  simp only [writeSample, hr, this]
  split <;> rfl

def samplesImage (items : List (Name × ItemConfig)) (samples : List Sample) : List UInt8 :=
  samples.flatMap (sampleImage items)

theorem samplesImage_append {more : List Sample} :
    samplesImage items (samples ++ more) = samplesImage items samples ++ samplesImage items more :=
  List.flatMap_append

/-- The rows of all samples together. -/
def totalRows (items : List (Name × ItemConfig)) (samples : List Sample) : ℕ :=
  (samples.map fun sample => rowCount items sample 1).sum

theorem writeSamples_eq {bytes : List UInt8} (hr : r.stream = atEnd bytes) (hfit : bytes.length ≤ limit)
    (hcount : r.sampleCount < 2 ^ 64) (h : ∀ sample ∈ samples, Complete r.items sample) :
    samples.foldlM (writeSample limit) r =
      if bytes.length + (samplesImage r.items samples).length ≤ limit then
        .ok { r with
          stream := atEnd (bytes ++ samplesImage r.items samples)
          sampleCount := (r.sampleCount + totalRows r.items samples) % 2 ^ 64 }
      else .error .fatal := by
  induction samples generalizing r bytes with
  | nil =>
    rw [List.foldlM_nil, samplesImage, List.flatMap_nil, List.length_nil, Nat.add_zero, if_pos hfit,
      List.append_nil, ← hr, totalRows, List.map_nil, List.sum_nil, Nat.add_zero, Nat.mod_eq_of_lt hcount]
    rfl
  | cons sample samples ih =>
    simp only [List.forall_mem_cons] at h
    rw [List.foldlM_cons, writeSample_eq hr hfit h.1]
    have himage : samplesImage r.items (sample :: samples) =
        sampleImage r.items sample ++ samplesImage r.items samples := rfl
    have hrows : totalRows r.items (sample :: samples) =
        rowCount r.items sample 1 + totalRows r.items samples := by simp [totalRows]
    rw [himage, hrows, List.length_append]
    by_cases hs : bytes.length + (sampleImage r.items sample).length ≤ limit
    · have hlt : (r.sampleCount + rowCount r.items sample 1) % 2 ^ 64 < 2 ^ 64 :=
        Nat.mod_lt _ (by norm_num)
      have := ih (r := ⟨atEnd (bytes ++ sampleImage r.items sample), _, r.items, r.version⟩) rfl
        (by rwa [List.length_append]) hlt h.2
      rw [if_pos hs, ok_bind, this]
      simp only [List.length_append, Nat.add_assoc, List.append_assoc, Nat.mod_add_mod]
    · rw [if_neg hs, if_neg (by omega)]
      rfl

def headerImage (buf : List UInt8) (items : List (Name × ItemConfig)) (count : ℕ) : List UInt8 :=
  encode 4 HPPS_VERSION ++ (encode 8 count ++ (encode 2 items.length ++ itemsImage buf items))

theorem writeHeader_eq (hbuf : buf.length = kTensorNameLen) (h : ∀ item ∈ items, GoodName item.1) :
    writeHeader limit buf items (opened []) =
      if (headerImage buf items 0).length ≤ limit then
        .ok ⟨atEnd (headerImage buf items 0), 0, items, ⟨UInt32.ofNat HPPS_VERSION⟩⟩
      else .error .fatal := by
  have hw : Writes .fatal limit (do
      put limit (encode 4 HPPS_VERSION)
      put limit (encode 8 0)
      put limit (encode 2 items.length)
      writeItems limit buf items) (headerImage buf items 0) () :=
    .bind .write (.bind .write (.bind .write (writes_items hbuf h)))
  have := hw [] (Nat.zero_le _)
  simp only [List.length_nil, Nat.zero_add, List.nil_append] at this
  have hempty : atEnd [] = ⟨[], 0⟩ := rfl
  rw [hempty] at this
  simp only [writeHeader, opened, List.nil_append, this]
  split <;> rfl

theorem writeFinalize_eq {count : ℕ} {rest : List UInt8} {c : Cursor} {tensorMeta : List (Name × ItemConfig)}
    {version : Int32} (hr : c.buf = headerImage buf items 0 ++ rest) (hfit : c.buf.length ≤ limit) :
    writeFinalize limit ⟨c, count, tensorMeta, version⟩ =
      .ok ⟨⟨headerImage buf items count ++ rest, 12⟩, count, tensorMeta, version⟩ := by
  have hsplit : ∀ n, headerImage buf items n ++ rest = encode 4 HPPS_VERSION ++ encode 8 n ++
      (encode 2 items.length ++ itemsImage buf items ++ rest) := by
    simp [headerImage]
  rw [hr, hsplit] at hfit
  have hw : put limit (encode 8 count) ⟨c.buf, 4⟩ =
      .ok ((), ⟨headerImage buf items count ++ rest, 12⟩) := by
    rw [hsplit]
    refine write_middle ?_ ?_ hfit
    · rw [hr, hsplit, length_encode]
    · rw [length_encode, length_encode]
  change (put limit (encode 8 count) ⟨c.buf, 4⟩ >>= fun p => _) = _
  rw [hw]
  rfl

/-- A record written to a new file. -/
def record (limit : ℕ) (buf : List UInt8) (tensorMeta : List (Name × ItemConfig))
    (samples : List Sample) : Except Stop RecordIo := do
  let r ← writeHeader limit buf tensorMeta (opened [])
  let r ← samples.foldlM (writeSample limit) r
  writeFinalize limit r

def recordImage (buf : List UInt8) (items : List (Name × ItemConfig)) (samples : List Sample) :
    List UInt8 :=
  headerImage buf items (totalRows items samples % 2 ^ 64) ++ samplesImage items samples

theorem length_recordImage : (recordImage buf items samples).length =
    (headerImage buf items 0).length + (samplesImage items samples).length := by
  simp only [recordImage, headerImage, List.length_append, length_encode]

/-- The file holds the image of the record, if it has room for it. -/
theorem record_eq (hbuf : buf.length = kTensorNameLen) (h : ∀ item ∈ items, GoodName item.1)
    (hs : ∀ sample ∈ samples, Complete items sample) : record limit buf items samples =
      if (recordImage buf items samples).length ≤ limit then
        .ok ⟨⟨recordImage buf items samples, 12⟩, totalRows items samples % 2 ^ 64, items,
          ⟨UInt32.ofNat HPPS_VERSION⟩⟩
      else .error .fatal := by
  rw [record, writeHeader_eq hbuf h, length_recordImage]
  by_cases hhead : (headerImage buf items 0).length ≤ limit
  · rw [if_pos hhead, ok_bind, writeSamples_eq rfl hhead (by norm_num) hs]
    by_cases hfit : (headerImage buf items 0).length + (samplesImage items samples).length ≤ limit
    · rw [if_pos hfit, if_pos hfit, ok_bind, Nat.zero_add]
      exact writeFinalize_eq rfl (by rwa [atEnd, List.length_append])
    · rw [if_neg hfit, if_neg hfit]
      rfl
  · rw [if_neg hhead, if_neg (by omega)]
    rfl

theorem complete_of_writeSamples {u : RecordIo} (hu : samples.foldlM (writeSample limit) r = .ok u) :
    ∀ sample ∈ samples, Complete r.items sample := by
  induction samples generalizing r with
  | nil => simp
  | cons sample samples ih =>
    rw [List.foldlM_cons] at hu
    obtain ⟨r', hr', hu⟩ := bind_eq_ok.mp hu
    obtain ⟨⟨n, c⟩, hp, hr'⟩ := bind_eq_ok.mp hr'
    cases hr'
    have hrest := ih hu
    have hwrites : Returns (writeTensors limit sample 1 r.items) fun _ => Complete r.items sample :=
      returns_writeTensors 1
    have hsample := (Returns.any.bind fun _ _ => hwrites) _ _ _ hp
    exact List.forall_mem_cons.mpr ⟨hsample, hrest⟩

theorem complete_of_record {tensorMeta : List (Name × ItemConfig)} {w : RecordIo}
    (hw : record limit buf tensorMeta samples = .ok w) : ∀ sample ∈ samples, Complete tensorMeta sample := by
  obtain ⟨r, hr, hw⟩ := bind_eq_ok.mp hw
  obtain ⟨u, hu, -⟩ := bind_eq_ok.mp hw
  obtain ⟨p, -, hr⟩ := bind_eq_ok.mp hr
  cases hr
  exact complete_of_writeSamples hu

/-! ### Reading -/

theorem reads_item (h : ShortName name) (hbuf : buf.length = kTensorNameLen) :
    Reads readItem (Rows.overwrite buf 0 (name ++ [0]) ++ (encode 1 config.type.toNat ++
      (encode 4 config.level.toUInt32.toNat ++ encode 1 config.isAuxNumber.toUInt8.toNat)))
      (name, config) := by
  have htype : config.type.toNat < 256 ^ 1 := config.type.toNat_lt
  have hlevel : config.level.toUInt32.toNat < 256 ^ 4 := config.level.toUInt32.toNat_lt
  have haux : config.isAuxNumber.toUInt8.toNat < 256 ^ 1 := config.isAuxNumber.toUInt8.toNat_lt
  refine .bind (.next (length_overwrite_name h hbuf)) ?_
  refine .lift (cString_overwrite h) ?_
  refine .bind (.number htype) (.bind (.number hlevel) (.bind_pure (.number haux) ?_))
  rw [UInt8.ofNat_toNat, UInt32.ofNat_toNat, UInt8.ofNat_toNat]
  exact .pure

theorem reads_items {l : List ℕ} (hl : l.length = items.length) (hbuf : buf.length = kTensorNameLen)
    (h : ∀ item ∈ items, ShortName item.1) :
    Reads (repeated (fun _ => readItem) l) (itemsImage buf items) items := by
  induction items generalizing buf l with
  | nil =>
    rw [List.length_eq_zero_iff.mp hl]
    exact .pure
  | cons item items ih =>
    obtain ⟨name, config⟩ := item
    simp only [List.forall_mem_cons] at h
    obtain ⟨i, l, rfl⟩ : ∃ i l', l = i :: l' := by
      cases l with
      | nil => cases hl
      | cons i l => exact ⟨i, l, rfl⟩
    have hrest := ih (l := l) (by simpa using hl) (length_overwrite_name h.1 hbuf) h.2
    have himage : itemsImage buf ((name, config) :: items) =
        (Rows.overwrite buf 0 (name ++ [0]) ++ (encode 1 config.type.toNat ++
          (encode 4 config.level.toUInt32.toNat ++ encode 1 config.isAuxNumber.toUInt8.toNat))) ++
        itemsImage (Rows.overwrite buf 0 (name ++ [0])) items := by
      simp only [itemsImage, List.append_assoc]
    rw [himage]
    exact .bind (reads_item h.1 hbuf) (.bind_pure hrest .pure)

theorem Fits.blobSize_eq {type : UInt8} (h : Fits type t) :
    blobSize type t.shape = .ok t.blob.length := by
  have hpos : 0 < t.shape.prod := List.prod_pos h.pos
  have hsize : Tensor.toSizeT (Tensor.intSize t.shape) = t.shape.prod := by
    rw [Tensor.intSize_eq h.size_lt h.pos, Tensor.toSizeT_natCast (h.size_lt.trans (by norm_num))]
  simp only [blobSize, hsize]
  rw [if_neg (by omega), if_pos h.size_lt, h.blob]

theorem Fits.reads {type : UInt8} (h : Fits type t) :
    Reads (readTensor type) (tensorImage t) { t with dataType := type } := by
  have hdims : Reads (repeated (fun _ => number Stop.memory 4) (List.range t.shape.length))
      (t.shape.flatMap (encode 4)) t.shape := by
    have hdim : ∀ dim ∈ t.shape, Reads (number Stop.memory 4) (encode 4 dim) (id dim) := by
      intro dim hdim
      refine .number ?_
      have := Nat.le_of_dvd (List.prod_pos h.pos) (List.dvd_prod hdim)
      have := h.size_lt
      omega
    have := Reads.repeated_const hdim
    rwa [List.map_id] at this
  have hcount : t.shape.length < 256 ^ 1 := h.dims
  rw [tensorImage, List.append_assoc]
  exact .bind (.number hcount) (.bind hdims (.lift h.blobSize_eq (.bind_pure (.next rfl) .pure)))

/-- The number of dimensions is a byte. -/
theorem returns_readTensor {type : UInt8} : Returns (readTensor type) fun t => t.shape.length < 2 ^ 8 := by
  refine Returns.number.bind fun dimCount hlt => ?_
  refine (Returns.repeated fun _ _ => Returns.any).bind fun shape hshape => ?_
  refine .lift fun size _ => Returns.any.bind fun blob _ => .pure ?_
  dsimp only
  rw [hshape.1, List.length_range]
  exact hlt

theorem returns_readSampleAsMap : Returns (readSampleAsMap items) fun sample =>
    ∀ name t, sample name = some t → t.shape.length < 2 ^ 8 := by
  have harray : Returns (readSampleAsArray items) fun array => ∀ t ∈ array, t.shape.length < 2 ^ 8 := by
    refine Returns.any.bind fun count _ => ?_
    split
    · exact (Returns.repeated fun _ _ => returns_readTensor).mono fun _ h => h.2
    · intro c a c' h
      cases h
  refine harray.bind fun array hall => .pure ?_
  generalize hpairs : (items.map Prod.fst).zip array = pairs
  replace hpairs : ∀ p ∈ pairs, p.2.shape.length < 2 ^ 8 := by
    rintro ⟨name, t⟩ hp
    exact hall t (List.of_mem_zip (hpairs ▸ hp)).2
  induction pairs using List.reverseRecOn with
  | nil => simp
  | append_singleton pairs p ih =>
    intro name t ht
    rw [List.foldl_append, List.foldl_cons, List.foldl_nil] at ht
    by_cases hname : name = p.1
    · rw [hname, Function.update_self, Option.some.injEq] at ht
      exact ht ▸ hpairs p (by simp)
    · rw [Function.update_of_ne hname] at ht
      exact ih (fun q hq => hpairs q (by simp [hq])) name t ht

theorem foldl_update_zip {names : List Name} {f : Name → RawTensor} (m : Sample) :
    (names.zip (names.map f)).foldl (fun (map : Sample) p => Function.update map p.1 (some p.2)) m =
      fun name => if name ∈ names then some (f name) else m name := by
  induction names generalizing m with
  | nil => simp
  | cons a names ih =>
    rw [List.map_cons, List.zip_cons_cons, List.foldl_cons, ih]
    funext name
    by_cases hmem : name ∈ names
    · rw [if_pos hmem, if_pos (List.mem_cons_of_mem _ hmem)]
    · by_cases ha : name = a
      · simp [ha]
      · simp [hmem, ha]

/-- The part of a sample that the record keeps. -/
def restrict (items : List (Name × ItemConfig)) (sample : Sample) : Sample :=
  fun name => if name ∈ items.map Prod.fst then sample name else none

theorem reads_sample (hitems : items.length < 2 ^ 16) (h : Readable items sample) :
    Reads (readSampleAsMap items) (sampleImage items sample) (restrict items sample) := by
  have htensor : ∀ item ∈ items, sample item.1 = some (tensor sample item.1) := by
    intro item hitem
    obtain ⟨t, ht, -⟩ := h item hitem
    rw [tensor, ht, Option.getD_some]
  have harray : Reads (readSampleAsArray items) (sampleImage items sample)
      (items.map fun item => tensor sample item.1) := by
    have hcount : items.length < 256 ^ 2 := hitems
    refine .bind (.number hcount) ?_
    rw [if_pos rfl]
    refine .repeated fun item hitem => ?_
    obtain ⟨t, ht, htype, hfits, -⟩ := h item hitem
    rw [tensor, ht, Option.getD_some]
    have hreads := hfits.reads
    rwa [← htype] at hreads ⊢
  refine .bind_pure harray ?_
  have hmap : (items.map fun item => tensor sample item.1) =
      (items.map Prod.fst).map (tensor sample) := by rw [List.map_map]; rfl
  rw [hmap, foldl_update_zip]
  have : restrict items sample = fun name =>
      if name ∈ items.map Prod.fst then some (tensor sample name) else none := by
    funext name
    unfold restrict
    by_cases hname : name ∈ items.map Prod.fst
    · obtain ⟨item, hitem, rfl⟩ := List.mem_map.mp hname
      rw [if_pos hname, if_pos hname, htensor item hitem]
    · rw [if_neg hname, if_neg hname]
  rw [this]
  exact .pure

/-- As many items are read as the 16 bits of the count say. -/
theorem reads_header_of {k count : ℕ} (rest : List UInt8) (hbuf : buf.length = kTensorNameLen)
    (hitems : items.length = k % 2 ^ 16) (hcount : count < 2 ^ 64) (h : ∀ item ∈ items, ShortName item.1) :
    readHeader (opened (encode 4 HPPS_VERSION ++ (encode 8 count ++ (encode 2 k ++ itemsImage buf items)) ++ rest)) =
      .ok ⟨⟨encode 4 HPPS_VERSION ++ (encode 8 count ++ (encode 2 k ++ itemsImage buf items)) ++ rest,
        (encode 4 HPPS_VERSION ++ (encode 8 count ++ (encode 2 k ++ itemsImage buf items))).length⟩, count, items,
        ⟨UInt32.ofNat HPPS_VERSION⟩⟩ := by
  have hversion : HPPS_VERSION < 256 ^ 4 := by decide
  have hcount' : count < 256 ^ 8 := hcount
  have hr : Reads (do
      let version ← number Stop.memory 4
      let sampleCount ← number Stop.memory 8
      let tensorCount ← number Stop.memory 2
      let items ← repeated (fun _ => readItem) (List.range tensorCount)
      return (version, sampleCount, items))
      (encode 4 HPPS_VERSION ++ (encode 8 count ++ (encode 2 k ++ itemsImage buf items)))
      (HPPS_VERSION, count, items) :=
    .bind (.number hversion) (.bind (.number hcount') (.bind .number_mod
      (.bind_pure (reads_items (List.length_range.trans hitems.symm) hbuf h) .pure)))
  have := hr [] rest
  rw [List.nil_append, List.length_nil, Nat.zero_add] at this
  simp only [readHeader, opened, this]
  rfl

theorem reads_header {count : ℕ} (rest : List UInt8) (hbuf : buf.length = kTensorNameLen)
    (hitems : items.length < 2 ^ 16) (hcount : count < 2 ^ 64) (h : ∀ item ∈ items, GoodName item.1) :
    readHeader (opened (headerImage buf items count ++ rest)) =
      .ok ⟨⟨headerImage buf items count ++ rest, (headerImage buf items count).length⟩, count, items,
        ⟨UInt32.ofNat HPPS_VERSION⟩⟩ :=
  reads_header_of rest hbuf (Nat.mod_eq_of_lt hitems).symm hcount fun item hitem => (h item hitem).short

/-! ### What was written is read -/

/-- The bytes of a record: 14 and 38 for each name, and each sample's counts, shapes and blocks. -/
def recordSize (tensorMeta : List (Name × ItemConfig)) (samples : List Sample) : ℕ :=
  14 + 38 * tensorMeta.length + (samples.map fun sample => 2 + (tensorMeta.map fun item =>
    1 + 4 * (tensor sample item.1).shape.length + (tensor sample item.1).blob.length).sum).sum

theorem length_itemsImage (hbuf : buf.length = kTensorNameLen) (h : ∀ item ∈ items, GoodName item.1) :
    (itemsImage buf items).length = 38 * items.length := by
  induction items generalizing buf with
  | nil => rfl
  | cons item items ih =>
    obtain ⟨name, config⟩ := item
    simp only [List.forall_mem_cons] at h
    have hlen := length_overwrite_name h.1.short hbuf
    simp only [itemsImage, List.length_append, hlen, length_encode, ih hlen h.2, List.length_cons,
      kTensorNameLen]
    omega

theorem length_sampleImage : (sampleImage items sample).length = 2 + (items.map fun item =>
    1 + 4 * (tensor sample item.1).shape.length + (tensor sample item.1).blob.length).sum := by
  rw [sampleImage, List.length_append, length_encode, List.length_flatMap]
  congr 3
  funext item
  have hdims : ∀ shape : List ℕ, (shape.flatMap (encode 4)).length = 4 * shape.length := by
    intro shape
    rw [Rows.length_flatMap fun _ _ => length_encode, Nat.mul_comm]
  rw [tensorImage, List.length_append, List.length_append, length_encode, hdims]

theorem length_recordImage_eq (hbuf : buf.length = kTensorNameLen)
    (h : ∀ item ∈ items, GoodName item.1) :
    (recordImage buf items samples).length = recordSize items samples := by
  have hsamples : (samplesImage items samples).length = (samples.map fun sample =>
      (sampleImage items sample).length).sum := List.length_flatMap
  simp only [length_sampleImage] at hsamples
  rw [length_recordImage, hsamples, headerImage]
  simp only [List.length_append, length_encode, length_itemsImage hbuf h, recordSize]
  omega

theorem Fits.head_le {type : UInt8} (h : Fits type t) :
    t.shape.headD 0 ≤ t.blob.length := by
  have hblob : t.shape.prod ≤ t.blob.length := by
    have hb := h.blob
    unfold TensorDataTypeSize at hb
    split_ifs at hb <;> simp only [Except.map, Except.ok.injEq, reduceCtorEq] at hb <;> omega
  cases hs : t.shape with
  | nil => exact Nat.zero_le _
  | cons dim shape =>
    have hdim : dim ∈ t.shape := hs ▸ List.mem_cons_self
    exact (Nat.le_of_dvd (List.prod_pos h.pos) (List.dvd_prod hdim)).trans hblob

/-- A sample takes more bytes than it has rows. -/
theorem rowCount_le (h : Readable items sample) :
    rowCount items sample 1 ≤ (sampleImage items sample).length := by
  unfold rowCount
  split
  · rw [length_sampleImage]
    omega
  · rename_i item hlast
    have hitem : item ∈ items := (List.mem_filter.mp (List.mem_of_getLast? hlast)).1
    obtain ⟨t, ht, -, hfits, -⟩ := h item hitem
    have htensor : tensor sample item.1 = t := by rw [tensor, ht, Option.getD_some]
    have hhead := hfits.head_le
    obtain ⟨l, l', rfl⟩ := List.append_of_mem hitem
    rw [length_sampleImage, htensor]
    simp only [List.map_append, List.map_cons, List.sum_append, List.sum_cons, htensor]
    omega

theorem totalRows_le (h : ∀ sample ∈ samples, Readable items sample) :
    totalRows items samples ≤ (samplesImage items samples).length := by
  rw [samplesImage, List.length_flatMap]
  exact List.sum_le_sum fun sample hsample => rowCount_le (h sample hsample)

/-- The record that was written is read back sample by sample, up to the end of the file. -/
theorem record_read_back {tensorMeta : List (Name × ItemConfig)} {w : RecordIo}
    (hbuf : buf.length = kTensorNameLen) (hcount : tensorMeta.length < 2 ^ 16)
    (hnames : ∀ item ∈ tensorMeta, GoodName item.1)
    (hsamples : ∀ sample ∈ samples, Readable tensorMeta sample)
    (hw : record limit buf tensorMeta samples = .ok w) :
    ∃ r c, readHeader (opened w.stream.buf) = .ok r ∧
      r.version = ⟨UInt32.ofNat HPPS_VERSION⟩ ∧ r.items = tensorMeta ∧
      r.sampleCount = totalRows tensorMeta samples % 2 ^ 64 ∧
      repeated (fun _ => readSampleAsMap r.items) (List.range samples.length) r.stream =
        .ok (samples.map (restrict tensorMeta), c) ∧
      c = ⟨w.stream.buf, w.stream.buf.length⟩ := by
  rw [record_eq hbuf hnames fun sample hsample => (hsamples sample hsample).complete] at hw
  split at hw
  · cases hw
    have htotal : totalRows tensorMeta samples % 2 ^ 64 < 2 ^ 64 := Nat.mod_lt _ (by norm_num)
    have hheader := reads_header (samplesImage tensorMeta samples) hbuf hcount htotal hnames
    have hread : Reads (repeated (fun _ => readSampleAsMap tensorMeta) (List.range samples.length))
        (samplesImage tensorMeta samples) (samples.map (restrict tensorMeta)) :=
      .repeated_const fun sample hsample => reads_sample hcount (hsamples sample hsample)
    have := hread (headerImage buf tensorMeta (totalRows tensorMeta samples % 2 ^ 64)) []
    simp only [recordImage]
    refine ⟨_, _, hheader, rfl, rfl, rfl, ?_, rfl⟩
    rwa [List.append_nil, ← List.length_append] at this
  · cases hw

/-- The rows of a record are fewer than its bytes. -/
theorem totalRows_lt {tensorMeta : List (Name × ItemConfig)} {w : RecordIo} (hlimit : limit < 2 ^ 63)
    (hbuf : buf.length = kTensorNameLen) (hnames : ∀ item ∈ tensorMeta, GoodName item.1)
    (hsamples : ∀ sample ∈ samples, Readable tensorMeta sample)
    (hw : record limit buf tensorMeta samples = .ok w) : totalRows tensorMeta samples < 2 ^ 64 := by
  rw [record_eq hbuf hnames fun sample hsample => (hsamples sample hsample).complete, length_recordImage] at hw
  split at hw
  · have h := totalRows_le hsamples
    omega
  · cases hw

/-- A file offset is a signed 64-bit number, so no file is longer than `limit`. -/
theorem read_write {tensorMeta : List (Name × ItemConfig)} (hlimit : limit < 2 ^ 63)
    (hbuf : buf.length = kTensorNameLen) (hcount : tensorMeta.length < 2 ^ 16)
    (hnames : ∀ item ∈ tensorMeta, GoodName item.1)
    (hsamples : ∀ sample ∈ samples, GoodSample tensorMeta sample) :
    (recordSize tensorMeta samples ≤ limit → ∃ w, record limit buf tensorMeta samples = .ok w) ∧
    ∀ w, record limit buf tensorMeta samples = .ok w →
      ∃ r c, readHeader (opened w.stream.buf) = .ok r ∧
        r.version = ⟨UInt32.ofNat HPPS_VERSION⟩ ∧ r.items = tensorMeta ∧
        r.sampleCount = totalRows tensorMeta samples ∧
        repeated (fun _ => readSampleAsMap r.items) (List.range samples.length) r.stream =
          .ok (samples.map (restrict tensorMeta), c) ∧
        c = ⟨w.stream.buf, w.stream.buf.length⟩ := by
  have hreadable := fun sample hsample => (hsamples sample hsample).readable
  refine ⟨fun hfit => ?_, fun w hw => ?_⟩
  · rw [record_eq hbuf hnames fun sample hsample => (hsamples sample hsample).complete,
      length_recordImage_eq hbuf hnames]
    exact ⟨_, if_pos hfit⟩
  · have h := record_read_back hbuf hcount hnames hreadable hw
    rwa [Nat.mod_eq_of_lt (totalRows_lt hlimit hbuf hnames hreadable hw)] at h

/-- One name, and a sample with a tensor of two floats. -/
def oneItem : List (Name × ItemConfig) := [([105, 100], ⟨2, 0, 0⟩)]

def twoFloats : Sample := fun _ => some ⟨2, [2, 1], [0, 0, 128, 63, 0, 0, 0, 64]⟩

theorem goodSample_twoFloats : GoodSample oneItem twoFloats := by
  intro item hitem
  obtain rfl := List.mem_singleton.mp hitem
  exact ⟨_, rfl, rfl, by decide, by decide, by decide, rfl⟩

theorem read_write_two_samples : ∃ w r c,
    record 1000 (List.replicate 32 7) oneItem [twoFloats, twoFloats] = .ok w ∧
    readHeader (opened w.stream.buf) = .ok r ∧ r.sampleCount = 4 ∧
    repeated (fun _ => readSampleAsMap r.items) (List.range 2) r.stream =
      .ok ([twoFloats, twoFloats].map (restrict oneItem), c) ∧
    c = ⟨w.stream.buf, w.stream.buf.length⟩ := by
  have hname : ∀ item ∈ oneItem, GoodName item.1 := by
    intro item hitem
    obtain rfl := List.mem_singleton.mp hitem
    exact ⟨by decide, by decide, by decide⟩
  have hsamples : ∀ sample ∈ [twoFloats, twoFloats], GoodSample oneItem sample := by
    simp [goodSample_twoFloats]
  have hlimit : 1000 < 2 ^ 63 := by norm_num
  have hbuf : (List.replicate 32 (7 : UInt8)).length = kTensorNameLen := List.length_replicate
  have h := read_write hlimit hbuf (by decide) hname hsamples
  obtain ⟨w, hw⟩ := h.1 (by decide)
  obtain ⟨r, c, hr, -, -, hcount, hread, hend⟩ := h.2 w hw
  exact ⟨w, r, c, hw, hr, hcount, hread, hend⟩

end RecordIo
end Hpps.Feeder

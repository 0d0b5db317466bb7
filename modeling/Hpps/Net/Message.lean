import Hpps.Common.Stop
import Hpps.Lib.Bytes

/-! A `Message` as the bytes that MPI carries and as the frames that ZMQ carries. -/
namespace Hpps.Net

open Bytes

abbrev Blob := List UInt8

structure Message where
  header : Fin 8 → Int32
  data : List Blob

/-- A part of a message that ZMQ delivers as a whole, and whether another part follows. -/
structure Frame where
  bytes : List UInt8
  more : Bool
  deriving DecidableEq, Repr

namespace Message

variable {msg : Message} {blob : Blob} {blobs : List Blob} {frames : List Frame}

def kHeaderSize : ℕ := 8 * 4

/-- The length that ends a message, `std::numeric_limits<size_t>::max()`. -/
def kover : ℕ := 2 ^ 64 - 1

/-- `memcpy` of the eight ints. -/
def headerBytes (header : Fin 8 → Int32) : List UInt8 :=
  (List.ofFn header).flatMap fun x => encode 4 x.toUInt32.toNat

def headerOf (bytes : List UInt8) : Fin 8 → Int32 :=
  fun i => ⟨UInt32.ofNat (decode (Rows.row 4 bytes i))⟩

/-- Each blob with its length. -/
def blobsSize (blobs : List Blob) : ℕ := (blobs.map fun blob => 8 + blob.length).sum

/-! ### MPI -/

def serializedSize (msg : Message) : ℕ := 8 + kHeaderSize + blobsSize msg.data

/-- The loop over the blobs; `p` is where the next byte goes. -/
def serializeBlobs : List Blob → List UInt8 → ℕ → Except Stop (List UInt8 × ℕ)
  | [], buffer, p => .ok (buffer, p)
  | blob :: blobs, buffer, p => do
    let buffer ← memcpy buffer p (encode 8 blob.length)
    let buffer ← memcpy buffer (p + 8) blob
    serializeBlobs blobs buffer (p + 8 + blob.length)

/-- The send buffer of the handle grows to `size`. Returned are the buffer, the end of what was
written, and the size that is announced to MPI. -/
def serializeAndSend (g : ℕ → UInt8) (msg : Message) (sendBuffer : List UInt8) :
    Except Stop (List UInt8 × ℕ × ℕ) := do
  let size := serializedSize msg
  let buffer := sendBuffer ++ (List.range (size - sendBuffer.length)).map g
  let buffer ← memcpy buffer 0 (headerBytes msg.header)
  let (buffer, p) ← serializeBlobs msg.data buffer kHeaderSize
  let buffer ← memcpy buffer p (encode 8 kover)
  return (buffer, p + 8, size)

/-- The loop that ends at `kover`; each round takes at least eight bytes of the buffer. -/
def deserializeBlobs : ℕ → ℕ → Serial Stop (List Blob)
  | 0, _ => throw .memory
  | n + 1, s =>
    if s = kover then pure []
    else if s = 0 then throw .check
    else do
      let data ← next .memory s
      let s ← number .memory 8
      let blobs ← deserializeBlobs n s
      return data :: blobs

/-- The message in the receive buffer, and the position where it ends. -/
def recvAndDeserialize (recvBuffer : List UInt8) : Except Stop (Message × ℕ) := do
  let reader : Serial Stop Message := do
    let header ← next .memory kHeaderSize
    let s ← number .memory 8
    let data ← deserializeBlobs recvBuffer.length s
    return ⟨headerOf header, data⟩
  let (msg, c) ← reader ⟨recvBuffer, 0⟩
  return (msg, c.pos)

/-! ### ZMQ -/

/-- The frames of the blobs and the number of bytes sent. A blob without data fails the CHECK. -/
def sendBlobs : List Blob → Except Stop (List Frame × ℕ)
  | [] => .ok ([], 0)
  | blob :: blobs =>
    if blob = [] ∨ 2 ^ 31 ≤ blob.length then .error .check
    else do
      let (frames, size) ← sendBlobs blobs
      return (⟨encode 8 blob.length, true⟩ :: ⟨blob, !blobs.isEmpty⟩ :: frames, size + blob.length + 8)

def send (msg : Message) : Except Stop (List Frame × ℕ) := do
  let (frames, size) ← sendBlobs msg.data
  return (⟨headerBytes msg.header, !msg.data.isEmpty⟩ :: frames, kHeaderSize + size)

/-- The blobs while the frame before had the more-flag; `none` when a frame is still missing. -/
def recvBlobs : List Frame → Except Stop (Option (List Blob × ℕ × List Frame))
  | [] => .ok none
  | length :: frames =>
    if length.bytes.length ≠ 8 ∨ !length.more then .error .check
    else if decode length.bytes = 0 then .error .check
    else
      match frames with
      | [] => .ok none
      | blob :: frames =>
        if blob.bytes.length ≠ decode length.bytes then .error .check
        else if blob.more then do
          let blobs ← recvBlobs frames
          return blobs.map fun (blobs, size, rest) =>
            (blob.bytes :: blobs, size + 8 + blob.bytes.length, rest)
        else .ok (some ([blob.bytes], 8 + blob.bytes.length, frames))

/-- Without a frame `Recv` returns `-1`. -/
def recv : List Frame → Except Stop (Option (Message × ℕ × List Frame))
  | [] => .ok none
  | header :: frames =>
    if header.bytes.length ≠ kHeaderSize then .error .check
    else if header.more then do
      let blobs ← recvBlobs frames
      return blobs.map fun (blobs, size, rest) =>
        (⟨headerOf header.bytes, blobs⟩, kHeaderSize + size, rest)
    else .ok (some (⟨headerOf header.bytes, []⟩, kHeaderSize, frames))

/-! ### The header -/

theorem length_headerBytes {header : Fin 8 → Int32} : (headerBytes header).length = kHeaderSize := by
  rw [headerBytes, Rows.length_flatMap fun _ _ => length_encode, List.length_ofFn, kHeaderSize]

theorem headerOf_headerBytes {header : Fin 8 → Int32} : headerOf (headerBytes header) = header := by
  funext i
  have hi : (i : ℕ) < (List.ofFn header).length := by rw [List.length_ofFn]; exact i.isLt
  have hlt : (header i).toUInt32.toNat < 256 ^ 4 := (header i).toUInt32.toNat_lt
  rw [headerOf, headerBytes, Rows.row_flatMap (fun _ _ => length_encode) hi, List.getElem_ofFn,
    decode_encode_of_lt hlt, UInt32.ofNat_toNat]

/-! ### What MPI carries -/

def blobsImage (blobs : List Blob) : List UInt8 := blobs.flatMap fun blob => encode 8 blob.length ++ blob

theorem length_blobsImage : (blobsImage blobs).length = blobsSize blobs := by
  simp [blobsImage, blobsSize, List.length_flatMap]

/-- The bytes of a message. -/
def image (msg : Message) : List UInt8 :=
  headerBytes msg.header ++ (blobsImage msg.data ++ encode 8 kover)

theorem length_image : msg.image.length = serializedSize msg := by
  simp only [image, List.length_append, length_headerBytes, length_blobsImage, length_encode,
    serializedSize]
  omega

theorem serializeBlobs_eq (pre old : List UInt8) (h : (blobsImage blobs).length ≤ old.length) :
    serializeBlobs blobs (pre ++ old) pre.length =
      .ok (pre ++ blobsImage blobs ++ old.drop (blobsImage blobs).length,
        pre.length + (blobsImage blobs).length) := by
  induction blobs generalizing pre old with
  | nil => simp [serializeBlobs, blobsImage]
  | cons blob blobs ih =>
    have himage : blobsImage (blob :: blobs) = encode 8 blob.length ++ (blob ++ blobsImage blobs) := by
      simp [blobsImage]
    rw [himage] at h ⊢
    simp only [List.length_append, length_encode] at h
    have hlen : (encode 8 blob.length).length ≤ old.length := by rw [length_encode]; omega
    rw [serializeBlobs, memcpy_append rfl hlen, ok_bind, memcpy_append (by simp) (by simp; omega), ok_bind]
    have := ih (pre ++ encode 8 blob.length ++ blob) (old.drop (8 + blob.length))
      (by rw [List.length_drop]; omega)
    simp only [List.length_append, length_encode, List.drop_drop, List.append_assoc,
      Nat.add_assoc] at this ⊢
    rw [this]

theorem serializeAndSend_eq (msg : Message) (g : ℕ → UInt8) (sendBuffer : List UInt8) :
    ∃ old, serializeAndSend g msg sendBuffer =
      .ok (msg.image ++ old, serializedSize msg, serializedSize msg) := by
  obtain ⟨buffer, hbuffer⟩ :
    ∃ buffer, buffer = sendBuffer ++ (List.range (serializedSize msg - sendBuffer.length)).map g := ⟨_, rfl⟩
  have hlen : serializedSize msg ≤ buffer.length := by
    rw [hbuffer, List.length_append, List.length_map, List.length_range]
    omega
  have hblobs : (blobsImage msg.data).length = blobsSize msg.data := length_blobsImage
  have hheader : (headerBytes msg.header).length = kHeaderSize := length_headerBytes
  unfold serializedSize at hlen
  have h₁ : memcpy buffer 0 (headerBytes msg.header) =
      .ok (headerBytes msg.header ++ buffer.drop kHeaderSize) := by
    have hroom : (headerBytes msg.header).length ≤ buffer.length := by omega
    have := memcpy_append (l := []) rfl hroom
    rwa [hheader] at this
  have h₂ := serializeBlobs_eq (headerBytes msg.header) (buffer.drop kHeaderSize)
    (show (blobsImage msg.data).length ≤ _ by rw [List.length_drop]; omega)
  have hroom : (encode 8 kover).length ≤ ((buffer.drop kHeaderSize).drop (blobsImage msg.data).length).length := by
    rw [List.length_drop, List.length_drop, length_encode]
    omega
  have h₃ := memcpy_append (l := headerBytes msg.header ++ blobsImage msg.data) rfl hroom
  rw [hheader] at h₂
  rw [List.length_append, hheader] at h₃
  refine ⟨((buffer.drop kHeaderSize).drop (blobsImage msg.data).length).drop 8, ?_⟩
  simp only [serializeAndSend, ← hbuffer, h₁, ok_bind, h₂, h₃]
  simp only [image, length_encode, List.append_assoc, hblobs, serializedSize]
  congr 3
  omega

/-! ### What MPI delivers -/

theorem length_le_blobsSize : blobs.length ≤ blobsSize blobs := by
  induction blobs with
  | nil => exact Nat.zero_le _
  | cons blob blobs ih =>
    simp only [blobsSize, List.length_cons, List.map_cons, List.sum_cons] at ih ⊢
    omega

theorem reads_blobs {n : ℕ} (h : ∀ blob ∈ blobs, blob ≠ [] ∧ blob.length < kover)
    (hn : blobs.length < n) :
    Reads (number .memory 8 >>= deserializeBlobs n) (blobsImage blobs ++ encode 8 kover) blobs := by
  induction blobs generalizing n with
  | nil =>
    obtain ⟨n, rfl⟩ : ∃ m, n = m + 1 := ⟨n - 1, by simp at hn; omega⟩
    refine .bind_pure (.number (by decide)) ?_
    rw [deserializeBlobs, if_pos rfl]
    exact .pure
  | cons blob blobs ih =>
    obtain ⟨n, rfl⟩ : ∃ m, n = m + 1 := ⟨n - 1, by simp at hn; omega⟩
    obtain ⟨⟨hne, hlt⟩, hrest⟩ := List.forall_mem_cons.mp h
    have hlen : blob.length < 256 ^ 8 := hlt.trans (by decide)
    have himage : blobsImage (blob :: blobs) ++ encode 8 kover =
        encode 8 blob.length ++ (blob ++ (blobsImage blobs ++ encode 8 kover)) := by
      simp [blobsImage]
    rw [himage]
    refine .bind (.number hlen) ?_
    rw [deserializeBlobs, if_neg (by omega), if_neg (by simpa using hne)]
    refine .bind (.next rfl) ?_
    rw [← bind_assoc]
    exact .bind_pure (ih hrest (by simpa using hn)) .pure

theorem recvAndDeserialize_eq (h : ∀ blob ∈ msg.data, blob ≠ [] ∧ blob.length < kover)
    (rest : List UInt8) :
    recvAndDeserialize (msg.image ++ rest) = .ok (msg, serializedSize msg) := by
  have hfuel : msg.data.length < (msg.image ++ rest).length := by
    have : msg.data.length ≤ blobsSize msg.data := length_le_blobsSize
    rw [List.length_append, length_image, serializedSize]
    omega
  have hr : Reads (do
      let header ← next Stop.memory kHeaderSize
      let s ← number Stop.memory 8
      let data ← deserializeBlobs (msg.image ++ rest).length s
      return (⟨headerOf header, data⟩ : Message)) msg.image msg := by
    refine .bind (.next length_headerBytes) ?_
    rw [← bind_assoc]
    refine .bind_pure (reads_blobs h hfuel) ?_
    rw [headerOf_headerBytes]
    exact .pure
  have := hr [] rest
  rw [List.nil_append, List.length_nil, Nat.zero_add, length_image] at this
  simp only [recvAndDeserialize, this]
  rfl

/-! ### What ZMQ delivers -/

theorem recvBlobs_sendBlobs (h : ∀ blob ∈ blobs, blob ≠ [] ∧ blob.length < 2 ^ 31) :
    ∃ frames, sendBlobs blobs = .ok (frames, blobsSize blobs) ∧ (blobs ≠ [] → ∀ rest,
      recvBlobs (frames ++ rest) = .ok (some (blobs, blobsSize blobs, rest))) := by
  induction blobs with
  | nil => exact ⟨[], rfl, fun hne => absurd rfl hne⟩
  | cons blob blobs ih =>
    obtain ⟨⟨hne, hlt⟩, hrest⟩ := List.forall_mem_cons.mp h
    obtain ⟨frames, hsend, hrecv⟩ := ih hrest
    have hsize : blobsSize (blob :: blobs) = blobsSize blobs + blob.length + 8 := by
      simp only [blobsSize, List.map_cons, List.sum_cons]
      omega
    have hdecode : decode (encode 8 blob.length) = blob.length :=
      decode_encode_of_lt (hlt.trans (by norm_num))
    refine ⟨⟨encode 8 blob.length, true⟩ :: ⟨blob, !blobs.isEmpty⟩ :: frames, ?_, fun _ rest => ?_⟩
    · rw [sendBlobs, if_neg (not_or.mpr ⟨hne, not_le.mpr hlt⟩), hsend, hsize]
      rfl
    · rw [List.cons_append, List.cons_append, recvBlobs, if_neg (by simp), hdecode,
        if_neg (by simpa using hne)]
      simp only [ne_eq, not_true_eq_false, if_false]
      cases blobs with
      | nil =>
        cases hsend
        simp [blobsSize]
      | cons blob' blobs =>
        rw [hrecv (by simp), hsize, Nat.add_right_comm]
        rfl

/-- Decoding undoes encoding, on MPI and on ZMQ. -/
theorem decode_undoes_encode (hblobs : ∀ blob ∈ msg.data, blob ≠ []) (hsize : serializedSize msg < 2 ^ 31) :
    (∀ g sendBuffer, ∃ buffer, serializeAndSend g msg sendBuffer =
        .ok (buffer, serializedSize msg, serializedSize msg) ∧
      serializedSize msg ≤ buffer.length ∧ ∀ rest,
        recvAndDeserialize (buffer.take (serializedSize msg) ++ rest) = .ok (msg, serializedSize msg)) ∧
    ∃ frames size, send msg = .ok (frames, size) ∧ ∀ rest,
      recv (frames ++ rest) = .ok (some (msg, size, rest)) := by
  have hlt : ∀ blob ∈ msg.data, blob.length < 2 ^ 31 := by
    intro blob hblob
    have := List.le_sum_of_mem (List.mem_map_of_mem (f := fun blob : Blob => 8 + blob.length) hblob)
    unfold serializedSize blobsSize at hsize
    omega
  constructor
  · intro g sendBuffer
    obtain ⟨old, hsend⟩ := serializeAndSend_eq msg g sendBuffer
    refine ⟨_, hsend, ?_, fun rest => ?_⟩
    · rw [List.length_append, length_image]
      exact Nat.le_add_right ..
    · rw [← length_image, List.take_left, length_image]
      refine recvAndDeserialize_eq (fun blob hblob => ⟨hblobs blob hblob, ?_⟩) rest
      exact (hlt blob hblob).trans (by decide)
  · obtain ⟨frames, hsend, hrecv⟩ := recvBlobs_sendBlobs fun blob hblob =>
      ⟨hblobs blob hblob, hlt blob hblob⟩
    refine ⟨_, _, by rw [send, hsend]; rfl, fun rest => ?_⟩
    rw [List.cons_append, recv, if_neg (by simp [length_headerBytes]), headerOf_headerBytes]
    obtain ⟨header, data⟩ := msg
    cases data with
    | nil =>
      cases hsend
      rfl
    | cons blob blobs =>
      rw [hrecv (by simp)]
      rfl

theorem decode_undoes_encode_two_blobs : ∃ msg : Message, msg.data = [[1, 2], [3]] ∧
    (∀ g sendBuffer, ∃ buffer, serializeAndSend g msg sendBuffer = .ok (buffer, 59, 59) ∧
      59 ≤ buffer.length ∧ ∀ rest, recvAndDeserialize (buffer.take 59 ++ rest) = .ok (msg, 59)) ∧
    ∃ frames size, send msg = .ok (frames, size) ∧ ∀ rest,
      recv (frames ++ rest) = .ok (some (msg, size, rest)) :=
  ⟨⟨fun _ => -1, [[1, 2], [3]]⟩, rfl, decode_undoes_encode (by decide) (by decide)⟩

end Message
end Hpps.Net

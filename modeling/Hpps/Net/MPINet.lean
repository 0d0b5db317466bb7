import Hpps.Lib.Heap
import Hpps.Lib.TransitionSystem
import Hpps.Net.Message

/-! `MPINetWrapper::Send` and its recycled send buffers, in one memory; MPI completes the sends in any order. -/
namespace Hpps.Net

open Bytes (encode length_encode)
open Heap Message TransitionSystem

/-- `sendBuffer` is an address, and `handle` the number of a send that was started; there is none in a new handle,
and none in one whose request completed (`MPI_REQUEST_NULL`). -/
structure MPIMsgHandle where
  sendBuffer : Option ℕ
  sendSize : ℤ
  handle : Option ℕ

/-- A send that was started: until it is completed MPI reads the bytes of `msg` at `buf`. -/
structure Isend where
  buf : Range
  msg : Message
  completed : Bool

structure MPINetWrapper where
  heap : Heap UInt8
  handles : List MPIMsgHandle
  isends : List Isend

/-- `flag` is what `MPI_Test` says of the first handle, and `addr` where `realloc` finds memory. -/
inductive SendMove
  | send (msg : Option Message) (flag : Bool) (addr : ℕ)
  | complete (r : ℕ)

def SendMove.msg : SendMove → Option Message
  | .send msg _ _ => msg
  | .complete _ => none

def MPIMsgHandle.new : MPIMsgHandle := ⟨none, 0, none⟩

def MPIMsgHandle.block (handle : MPIMsgHandle) : Range := ⟨handle.sendBuffer.getD 0, handle.sendSize.toNat⟩

namespace MPINetWrapper

variable {s t : MPINetWrapper} {m m' : Heap UInt8} {msg : Message} {blobs : List Blob} {handle handle' : MPIMsgHandle}
  {handles : List MPIMsgHandle} {x x' : Isend} {a : SendMove} {bytes : ℕ → UInt8} {flag : Bool} {addr p r : ℕ} {block : Range}

def init (bytes : ℕ → UInt8) : MPINetWrapper := ⟨⟨bytes, []⟩, [], []⟩

/-- The local `size`, an `int`. -/
def intSize (msg : Message) : Int32 :=
  msg.data.foldl (fun size data => size + Int32.ofNat (8 + data.length)) (Int32.ofNat (8 + kHeaderSize))

def copyBlobs : List Blob → Heap UInt8 → ℕ → Heap UInt8 × ℕ
  | [], m, p => (m, p)
  | data :: blobs, m, p =>
    copyBlobs blobs ((m.memcpy p (encode 8 data.length)).memcpy (p + 8) data) (p + 8 + data.length)

/-- The copies that SerializeAndSend makes. -/
def serialize (msg : Message) (buffer : ℕ) (m : Heap UInt8) : Heap UInt8 :=
  let (m, p) := copyBlobs msg.data (m.memcpy buffer (headerBytes msg.header)) (buffer + kHeaderSize)
  m.memcpy p (encode 8 kover)

def grow (size : Int32) (addr : ℕ) (m : Heap UInt8) (handle : MPIMsgHandle) : Heap UInt8 × MPIMsgHandle :=
  if size.toInt > handle.sendSize then
    (m.realloc handle.sendBuffer handle.sendSize.toNat addr size.toInt.toNat,
      { handle with sendBuffer := some addr, sendSize := size.toInt })
  else (m, handle)

/-- `MPI_Isend` does not accept a negative size. -/
def serializeAndSend (m : Heap UInt8) (isends : List Isend) (msg : Message) (handle : MPIMsgHandle) (addr : ℕ) :
    Except Stop (Heap UInt8 × List Isend × MPIMsgHandle × Int32) :=
  let size := intSize msg
  let (m, handle) := grow size addr m handle
  match handle.sendBuffer with
  | none => .error .memory
  | some buffer =>
    if size.toInt < 0 then .error .check
    else .ok (serialize msg buffer m, isends ++ [⟨⟨buffer, size.toInt.toNat⟩, msg, false⟩],
      { handle with handle := some isends.length }, size)

/-- The handle that is used, and those that stay in `handles_`. -/
def takeHandle (handles : List MPIMsgHandle) (flag : Bool) : MPIMsgHandle × List MPIMsgHandle :=
  match handles with
  | [] => (.new, [])
  | handle :: handles => if flag then ({ handle with handle := none }, handles) else (.new, handle :: handles)

def send (s : MPINetWrapper) (msg : Option Message) (flag : Bool) (addr : ℕ) : Except Stop (MPINetWrapper × Int32) :=
  match msg with
  | none => .ok ({ s with heap := { s.heap with touched := [] } }, 0)
  | some msg => do
    let (handle, handles) := takeHandle s.handles flag
    let (m, isends, handle, size) ← serializeAndSend { s.heap with touched := [] } s.isends msg handle addr
    return (⟨m, handles ++ [handle], isends⟩, size)

/-! ### What MPI and the allocator do -/

def completed (isends : List Isend) (r : ℕ) : Bool := isends[r]?.all Isend.completed

/-- `MPI_Test` says true only of a request that completed, and the allocator hands out memory that no handle has. -/
def allowed (s : MPINetWrapper) (msg : Option Message) (flag : Bool) (addr : ℕ) : Bool :=
  (flag → ∀ handle ∈ s.handles.head?, ∀ r ∈ handle.handle, completed s.isends r) ∧
    ∀ curr ∈ msg, (intSize curr).toInt > (takeHandle s.handles flag).1.sendSize →
      ∀ other ∈ (takeHandle s.handles flag).2, Range.Apart ⟨addr, (intSize curr).toInt.toNat⟩ other.block

def step (s : MPINetWrapper) : SendMove → Option MPINetWrapper
  | .send msg flag addr => if s.allowed msg flag addr then (s.send msg flag addr).toOption.map Prod.fst else none
  | .complete r =>
    if completed s.isends r then none
    else some { s with
      heap := { s.heap with touched := [] }
      isends := s.isends.modify r fun x => { x with completed := true } }

/-! ### What it is for -/

/-- A send that was started and has not completed. -/
def Pending (s : MPINetWrapper) (r : ℕ) (x : Isend) : Prop := s.isends[r]? = some x ∧ x.completed = false

def Owned (s : MPINetWrapper) : Prop := ∀ r x, Pending s r x → s.handles.countP (fun h => h.handle = some r) = 1

def Kept (s : MPINetWrapper) : Prop := ∀ r x, Pending s r x → read s.heap.bytes x.buf = x.msg.image

/-- What the last call wrote or gave back was in use by no send that had not completed in `s`. -/
def Idle (s t : MPINetWrapper) : Prop := ∀ range ∈ t.heap.touched, ∀ r x, Pending s r x → range.Apart x.buf

/-- The message fits in an `int`. -/
def Fits (_ : MPINetWrapper) (a : SendMove) : Prop := ∀ msg ∈ a.msg, serializedSize msg < 2 ^ 31

instance (s : MPINetWrapper) (a : SendMove) : Decidable (Fits s a) :=
  inferInstanceAs (Decidable (∀ msg ∈ a.msg, serializedSize msg < 2 ^ 31))

/-! ### The bytes that are copied -/

theorem foldl_size {n : ℕ} : blobs.foldl (fun size data => size + Int32.ofNat (8 + data.length)) (Int32.ofNat n) =
    Int32.ofNat (n + blobsSize blobs) := by
  induction blobs generalizing n with
  | nil => rfl
  | cons data blobs ih =>
    rw [List.foldl_cons, ← Int32.ofNat_add, ih, blobsSize, blobsSize, List.map_cons, List.sum_cons, Nat.add_assoc]

theorem intSize_eq : intSize msg = Int32.ofNat (serializedSize msg) := foldl_size

theorem toInt_intSize (h : serializedSize msg < 2 ^ 31) : (intSize msg).toInt = serializedSize msg := by
  rw [intSize_eq, Int32.toInt_ofNat_of_lt h]

theorem copyBlobs_end : (copyBlobs blobs m p).2 = p + blobsSize blobs := by
  induction blobs generalizing m p with
  | nil => rfl
  | cons data blobs ih =>
    rw [copyBlobs, ih, blobsSize, blobsSize, List.map_cons, List.sum_cons]
    omega

theorem copyBlobs_bytes : (copyBlobs blobs m p).1.bytes = write m.bytes p (blobsImage blobs) := by
  induction blobs generalizing m p with
  | nil => exact write_nil.symm
  | cons data blobs ih =>
    have hlen : (encode 8 data.length).length = 8 := length_encode
    rw [copyBlobs, ih, blobsImage, blobsImage, List.flatMap_cons, ← write_append, ← write_append, List.length_append, hlen,
      ← Nat.add_assoc]
    rfl

theorem spares_copyBlobs (h : Range.Apart ⟨p, blobsSize blobs⟩ block) : Spares m (copyBlobs blobs m p).1 block := by
  induction blobs generalizing m p with
  | nil => exact .refl
  | cons data blobs ih =>
    have hsize : blobsSize (data :: blobs) = 8 + data.length + blobsSize blobs := by
      rw [blobsSize, blobsSize, List.map_cons, List.sum_cons]
    rw [hsize] at h
    refine (spares_memcpy (h.mono ⟨?_, ?_⟩ .refl)).trans ((spares_memcpy (h.mono ⟨?_, ?_⟩ .refl)).trans
      (ih (h.mono ⟨?_, ?_⟩ .refl)))
    all_goals
      simp only [length_encode]
      omega

theorem serialize_bytes : (serialize msg p m).bytes = write m.bytes p msg.image := by
  have hheader : (headerBytes msg.header).length = kHeaderSize := length_headerBytes
  have hblobs : (blobsImage msg.data).length = blobsSize msg.data := length_blobsImage
  rw [serialize, image, ← write_append, ← write_append, hheader, hblobs, ← copyBlobs_end (m := m.memcpy p (headerBytes msg.header))]
  exact congrArg (fun bytes => write bytes _ _) copyBlobs_bytes

theorem spares_serialize (h : Range.Apart ⟨p, serializedSize msg⟩ block) : Spares m (serialize msg p m) block := by
  have hend : (copyBlobs msg.data (m.memcpy p (headerBytes msg.header)) (p + kHeaderSize)).2 =
      p + kHeaderSize + blobsSize msg.data := copyBlobs_end
  unfold serializedSize at h
  refine (spares_memcpy (h.mono ⟨?_, ?_⟩ .refl)).trans ((spares_copyBlobs (h.mono ⟨?_, ?_⟩ .refl)).trans
    (spares_memcpy (h.mono ⟨?_, ?_⟩ .refl)))
  all_goals
    simp only [length_encode, length_headerBytes, hend]
    omega

/-! ### The invariant -/

/-- Each handle has a block of its own, and each send that has not completed is some handle's, in the block of which
its message is. -/
structure Inv (s : MPINetWrapper) : Prop where
  apart : s.handles.Pairwise fun handle handle' => handle.block.Apart handle'.block
  requests : (s.handles.map MPIMsgHandle.handle).Nodup
  started : ∀ handle ∈ s.handles, ∃ b r x, handle.sendBuffer = some b ∧ handle.handle = some r ∧
    s.isends[r]? = some x ∧ x.buf.Within handle.block
  owned : ∀ r x, Pending s r x → ∃ handle ∈ s.handles, handle.handle = some r
  kept : Kept s

/-- The handle that Send uses has no request any more. -/
structure Taken (s : MPINetWrapper) (handle : MPIMsgHandle) (handles : List MPIMsgHandle) : Prop where
  rest : handles.Sublist s.handles
  apart : ∀ other ∈ handles, handle.block.Apart other.block
  buffer : handle.sendBuffer = none → handle.sendSize = 0
  owned : ∀ r x, Pending s r x → ∃ other ∈ handles, other.handle = some r

theorem inv_init : Inv (init bytes) :=
  ⟨.nil, .nil, by simp [init], fun _ _ h => by simp [Pending, init] at h, fun _ _ h => by simp [Pending, init] at h⟩

theorem takeHandle_sublist : (takeHandle handles flag).2.Sublist handles := by
  cases handles with
  | nil => exact .refl _
  | cons front handles =>
    cases flag with
    | false => exact .refl _
    | true => exact List.sublist_cons_self ..

theorem Inv.taken (h : Inv s)
    (hflag : flag = true → ∀ handle ∈ s.handles.head?, ∀ r ∈ handle.handle, completed s.isends r = true) :
    Taken s (takeHandle s.handles flag).1 (takeHandle s.handles flag).2 := by
  obtain ⟨hpair, -, hstarted, howned, -⟩ := h
  have hrest : ∀ handles, s.handles = handles → (takeHandle handles flag).2.Sublist s.handles :=
    fun _ hs => hs ▸ takeHandle_sublist
  generalize hs : s.handles = handles at hpair hstarted howned hflag ⊢
  cases handles with
  | nil => exact ⟨hrest _ hs, by simp [takeHandle], fun _ => rfl, howned⟩
  | cons front handles =>
    rw [List.pairwise_cons] at hpair
    cases flag with
    | false => exact ⟨hrest _ hs, fun _ _ => .inl (Nat.zero_le _), fun _ => rfl, howned⟩
    | true =>
      refine ⟨hrest _ hs, hpair.1, fun hnone => ?_, fun r x hp => ?_⟩
      · obtain ⟨b, -, -, hb, -⟩ := hstarted front List.mem_cons_self
        cases hb.symm.trans hnone
      · obtain ⟨other, hmem, hr⟩ := howned r x hp
        rcases List.mem_cons.mp hmem with rfl | hmem
        · have hdone := hflag rfl other rfl r hr
          rw [completed, hp.1, Option.all_some, hp.2] at hdone
          cases hdone
        · exact ⟨other, hmem, hr⟩

/-- A send that has not completed is in the block of a handle that stays. -/
theorem Taken.within (ht : Taken s handle handles) (h : Inv s) (hp : Pending s r x) :
    ∃ other ∈ handles, x.buf.Within other.block := by
  obtain ⟨other, hmem, hr⟩ := ht.owned r x hp
  obtain ⟨-, r', x', -, hr', hx', hwithin⟩ := h.started other (ht.rest.subset hmem)
  cases hr.symm.trans hr'
  cases hp.1.symm.trans hx'
  exact ⟨other, hmem, hwithin⟩

/-- The block of the handle is large enough afterwards. -/
theorem grow_spec {size : Int32} {n : ℕ} (hsize : size.toInt = n) (hn : 0 < n) (ht : Taken s handle handles)
    (haddr : size.toInt > handle.sendSize → ∀ other ∈ handles, Range.Apart ⟨addr, size.toInt.toNat⟩ other.block) :
    ∃ b m' handle', grow size addr m handle = (m', handle') ∧ handle'.sendBuffer = some b ∧
      Range.Within ⟨b, n⟩ handle'.block ∧ ∀ other ∈ handles, handle'.block.Apart other.block ∧ Spares m m' other.block := by
  unfold grow
  by_cases hgrow : size.toInt > handle.sendSize
  · rw [if_pos hgrow]
    refine ⟨addr, _, _, rfl, rfl, ⟨le_rfl, by simp [MPIMsgHandle.block, hsize]⟩, fun other hmem =>
      ⟨haddr hgrow other hmem, spares_realloc (fun b hb => ?_) (haddr hgrow other hmem) (by omega)⟩⟩
    have hapart := ht.apart other hmem
    rwa [MPIMsgHandle.block, Option.mem_def.mp hb] at hapart
  · rw [if_neg hgrow]
    cases hb : handle.sendBuffer with
    | none =>
      have := ht.buffer hb
      omega
    | some b =>
      refine ⟨b, m, handle, rfl, hb, ⟨by simp [MPIMsgHandle.block, hb], ?_⟩, fun other hmem => ⟨ht.apart other hmem, .refl⟩⟩
      simp only [MPIMsgHandle.block, hb, Option.getD_some]
      omega

/-! ### A call of Send -/

theorem pending_append (hp : Pending ⟨m, handles, s.isends ++ [x']⟩ r x) :
    Pending s r x ∨ r = s.isends.length ∧ x = x' := by
  obtain ⟨hx, hcompleted⟩ := hp
  rcases lt_trichotomy r s.isends.length with hlt | rfl | hgt
  · rw [List.getElem?_append_left hlt] at hx
    exact .inl ⟨hx, hcompleted⟩
  · rw [List.getElem?_concat_length, Option.some_inj] at hx
    exact .inr ⟨rfl, hx.symm⟩
  · rw [List.getElem?_eq_none (by simpa using hgt)] at hx
    cases hx

/-- With a new handle, whatever the `int` says. -/
theorem send_new (s : MPINetWrapper) (addr : ℕ) (h : 0 < (intSize msg).toInt) : s.send (some msg) false addr =
    .ok (⟨serialize msg addr ⟨s.heap.bytes, [⟨addr, (intSize msg).toInt.toNat⟩]⟩,
      s.handles ++ [⟨some addr, (intSize msg).toInt, some s.isends.length⟩],
      s.isends ++ [⟨⟨addr, (intSize msg).toInt.toNat⟩, msg, false⟩]⟩, intSize msg) := by
  have htake : takeHandle s.handles false = (.new, s.handles) := by
    cases s.handles with
    | nil => rfl
    | cons front handles => rfl
  simp only [send, htake, serializeAndSend, grow, MPIMsgHandle.new, gt_iff_lt, if_pos h]
  rw [if_neg (by omega)]
  rfl

/-- A message that was copied into the block of a handle and is sent from there. -/
theorem inv_send {b n : ℕ} (h : Inv s) (ht : Taken s handle handles) (hn : serializedSize msg = n)
    (hbuffer : handle'.sendBuffer = some b) (hwithin : Range.Within ⟨b, n⟩ handle'.block)
    (hspares : ∀ other ∈ handles, handle'.block.Apart other.block ∧ Spares ⟨s.heap.bytes, []⟩ m other.block) :
    let t : MPINetWrapper := ⟨serialize msg b m, handles ++ [{ handle' with handle := some s.isends.length }],
      s.isends ++ [⟨⟨b, n⟩, msg, false⟩]⟩
    Inv t ∧ Idle s t := by
  intro t
  have hall : ∀ other ∈ handles, Spares ⟨s.heap.bytes, []⟩ (serialize msg b m) other.block := fun other hmem =>
    (hspares other hmem).2.trans (spares_serialize ((hspares other hmem).1.mono (hn ▸ hwithin) .refl))
  have hlt : ∀ other ∈ handles, ∀ r, other.handle = some r → r < s.isends.length := by
    intro other hmem r hr
    obtain ⟨-, r', x, -, hr', hx, -⟩ := h.started other (ht.rest.subset hmem)
    cases hr.symm.trans hr'
    exact (List.getElem?_eq_some_iff.mp hx).1
  refine ⟨⟨?_, ?_, ?_, ?_, ?_⟩, ?_⟩
  · refine List.pairwise_append.mpr ⟨h.apart.sublist ht.rest, List.pairwise_singleton .., fun other hmem last hlast => ?_⟩
    rw [List.mem_singleton.mp hlast]
    exact (hspares other hmem).1.symm
  · rw [List.map_append, List.nodup_append]
    refine ⟨h.requests.sublist (ht.rest.map _), List.nodup_singleton _, fun r hr r' hr' heq => ?_⟩
    obtain ⟨other, hmem, rfl⟩ := List.mem_map.mp hr
    rw [List.mem_singleton.mp hr'] at heq
    exact absurd (hlt other hmem _ heq) (lt_irrefl _)
  · intro other hmem
    rcases List.mem_append.mp hmem with hmem | hmem
    · obtain ⟨b', r, x, hb', hr, hx, hwithin'⟩ := h.started other (ht.rest.subset hmem)
      exact ⟨b', r, x, hb', hr, by rwa [List.getElem?_append_left (hlt other hmem r hr)], hwithin'⟩
    · rw [List.mem_singleton.mp hmem]
      exact ⟨b, _, _, hbuffer, rfl, List.getElem?_concat_length, hwithin⟩
  · intro r x hp
    rcases pending_append hp with hp | ⟨rfl, -⟩
    · obtain ⟨other, hmem, hr⟩ := ht.owned r x hp
      exact ⟨other, List.mem_append_left _ hmem, hr⟩
    · exact ⟨_, List.mem_append_right _ List.mem_cons_self, rfl⟩
  · intro r x hp
    rcases pending_append hp with hp | ⟨-, rfl⟩
    · obtain ⟨other, hmem, hx⟩ := ht.within h hp
      exact ((hall other hmem).kept _ hx).trans (h.kept r x hp)
    · change read (serialize msg b m).bytes ⟨b, n⟩ = msg.image
      rw [serialize_bytes, ← hn, ← length_image, read_of_write]
  · intro range hrange r x hp
    obtain ⟨other, hmem, hx⟩ := ht.within h hp
    rcases (hall other hmem).touched range hrange with hnil | hapart
    · cases hnil
    · exact hapart.mono .refl hx

/-- A message that fits is sent, and the call says how many bytes it has. -/
theorem send_ok (h : Inv s) (hfits : serializedSize msg < 2 ^ 31) (hallowed : s.allowed (some msg) flag addr) :
    ∃ t size, s.send (some msg) flag addr = .ok (t, size) ∧ size.toInt = serializedSize msg ∧ Inv t ∧ Idle s t := by
  simp only [allowed, decide_eq_true_eq] at hallowed
  obtain ⟨hflag, haddr⟩ := hallowed
  have ht := h.taken hflag
  have hsize := toInt_intSize hfits
  obtain ⟨b, m, handle, hgrow, hbuffer, hwithin, hspares⟩ :=
    grow_spec (m := ⟨s.heap.bytes, []⟩) hsize (by unfold serializedSize; omega) ht (haddr msg rfl)
  refine ⟨_, _, ?_, hsize, inv_send h ht rfl hbuffer hwithin hspares⟩
  simp only [send, serializeAndSend, hgrow, hbuffer]
  rw [if_neg (by omega), hsize]
  rfl

/-! ### Every run -/

theorem inv_complete (h : Inv s) : let t : MPINetWrapper :=
      ⟨⟨s.heap.bytes, []⟩, s.handles, s.isends.modify r fun x => { x with completed := true }⟩
    Inv t ∧ Idle s t := by
  intro t
  have hpending : ∀ r' x, Pending t r' x → Pending s r' x := by
    rintro r' x ⟨hx, hcompleted⟩
    obtain ⟨x', hx', rfl⟩ := Option.map_eq_some_iff.mp ((List.getElem?_modify ..).symm.trans hx)
    by_cases hr : r = r'
    · rw [if_pos hr] at hcompleted
      cases hcompleted
    · rw [if_neg hr] at hcompleted ⊢
      exact ⟨hx', hcompleted⟩
  refine ⟨⟨h.apart, h.requests, fun handle hmem => ?_, fun r' x hp => h.owned r' x (hpending r' x hp),
    fun r' x hp => h.kept r' x (hpending r' x hp)⟩, fun _ hrange => absurd hrange List.not_mem_nil⟩
  obtain ⟨b, r', x, hb, hr, hx, hwithin⟩ := h.started handle hmem
  refine ⟨b, r', _, hb, hr, by rw [List.getElem?_modify, hx]; rfl, ?_⟩
  split
  · exact hwithin
  · exact hwithin

theorem inv_step (h : Inv s) (hs : restrict Fits step s a = some t) : Inv t ∧ Idle s t := by
  obtain ⟨hfits, hs⟩ := restrict_eq_some.mp hs
  cases a with
  | send msg flag addr =>
    rw [step] at hs
    split at hs
    · rename_i hallowed
      cases msg with
      | none =>
        cases hs
        exact ⟨⟨h.apart, h.requests, h.started, h.owned, h.kept⟩, fun _ hrange => absurd hrange List.not_mem_nil⟩
      | some msg =>
        obtain ⟨t', size, hsend, -, hinv⟩ := send_ok h (hfits msg rfl) hallowed
        rw [hsend] at hs
        cases hs
        exact hinv
    · cases hs
  | complete r =>
    rw [step] at hs
    split at hs
    · cases hs
    · cases hs
      exact inv_complete h

theorem Inv.countP_handle (h : Inv s) : Owned s := by
  intro r x hp
  obtain ⟨handle, hmem, hr⟩ := h.owned r x hp
  have hcount := List.count_eq_one_of_mem h.requests (List.mem_map.mpr ⟨handle, hmem, hr⟩)
  rw [List.count, List.countP_map] at hcount
  rw [← hcount]
  refine List.countP_congr fun other _ => ?_
  simp

/-- When all messages fit in an `int`, no buffer is touched before its send completes. -/
theorem untouched_in_flight (h : Reachable (restrict Fits step) (init bytes) s) :
    Owned s ∧ Kept s ∧ ∀ a t, restrict Fits step s a = some t → Idle s t := by
  have hinv : Inv s := h.invariant inv_init fun _ _ _ hx hs => (inv_step hx hs).1
  exact ⟨hinv.countP_handle, hinv.kept, fun a t hs => (inv_step hinv hs).2⟩

/-- A message with one blob, under way. -/
theorem untouched_in_flight_one : ∃ s x, Reachable (restrict Fits step) (init fun _ => 0) s ∧ Pending s 0 x ∧
    Owned s ∧ Kept s ∧ ∀ a t, restrict Fits step s a = some t → Idle s t := by
  obtain ⟨msg, hmsg⟩ : ∃ msg : Message, msg = ⟨fun _ => 0, [[1]]⟩ := ⟨_, rfl⟩
  have hfits : serializedSize msg < 2 ^ 31 := by
    rw [hmsg]
    decide
  have hallowed : allowed (init fun _ => 0) (some msg) false 64 := by simp [allowed, takeHandle, init]
  have hpos : 0 < (intSize msg).toInt := by
    rw [toInt_intSize hfits]
    unfold serializedSize
    omega
  obtain ⟨s, hs, hisends⟩ : ∃ s, step (init fun _ => 0) (.send (some msg) false 64) = some s ∧
      s.isends = [⟨⟨64, (intSize msg).toInt.toNat⟩, msg, false⟩] := by
    rw [step, if_pos hallowed, send_new _ _ hpos]
    exact ⟨_, rfl, rfl⟩
  have hstep := restrict_eq_some.mpr ⟨show Fits _ (.send (some msg) false 64) by rintro _ ⟨⟩; exact hfits, hs⟩
  have hreach : Reachable (restrict Fits step) (init fun _ => 0) s :=
    ⟨[.send (some msg) false 64], exec_cons.mpr ⟨s, hstep, rfl⟩⟩
  exact ⟨s, _, hreach, ⟨by rw [hisends]; rfl, rfl⟩, untouched_in_flight hreach⟩

/-- The `int` of a blob of 2^32 bytes is too small; the copy goes on into the next block, whose message is under way. -/
theorem overwritten_in_flight : ¬ ∀ bytes s, Reachable step (init bytes) s → Kept s := by
  intro h
  obtain ⟨blob, hlen, hget⟩ : ∃ blob : Blob, blob.length = 2 ^ 32 ∧ blob[8]? = some 1 :=
    ⟨List.replicate (2 ^ 32) 1, List.length_replicate, by rw [List.getElem?_replicate, if_pos (by norm_num)]⟩
  obtain ⟨small, hsmall⟩ : ∃ msg : Message, msg = ⟨fun _ => 0, []⟩ := ⟨_, rfl⟩
  obtain ⟨large, hlarge⟩ : ∃ msg : Message, msg = ⟨fun _ => 0, [blob]⟩ := ⟨_, rfl⟩
  have hsize : (intSize small).toInt = 40 := by
    rw [hsmall]
    rfl
  have hsize' : (intSize large).toInt = 48 := by
    rw [hlarge, intSize_eq, serializedSize, blobsSize, List.map_singleton, List.sum_singleton, hlen]
    rfl
  have hfirst := send_new (init fun _ => 0) 112 (show 0 < (intSize small).toInt by omega)
  rw [hsize] at hfirst
  obtain ⟨s, hs⟩ : ∃ s : MPINetWrapper, s = ⟨serialize small 112 ⟨fun _ => 0, [⟨112, 40⟩]⟩, [⟨some 112, 40, some 0⟩],
    [⟨⟨112, 40⟩, small, false⟩]⟩ := ⟨_, rfl⟩
  have hstep : step (init fun _ => 0) (.send (some small) false 112) = some s := by
    rw [step, if_pos (by simp [allowed, takeHandle, init]), hfirst, hs]
    rfl
  have hallowed : s.allowed (some large) false 64 := by
    simp only [allowed, decide_eq_true_eq]
    refine ⟨by simp, fun curr hcurr _ other hother => ?_⟩
    cases hcurr
    rw [hs] at hother
    rw [List.mem_singleton.mp hother, hsize']
    decide
  have hsecond := send_new s 64 (show 0 < (intSize large).toInt by omega)
  have hkept := h (fun _ => 0) _ ⟨[.send (some small) false 112, .send (some large) false 64],
    exec_cons.mpr ⟨s, hstep, exec_cons.mpr ⟨_, by rw [step, if_pos hallowed, hsecond]; rfl, rfl⟩⟩⟩ 0 _ ⟨by rw [hs]; rfl, rfl⟩
  have hbyte := congrArg (fun l => l[0]?) hkept
  have hlarge' : large.image[48]? = some 1 := by
    rw [image, List.getElem?_append_right (by simp [length_headerBytes, kHeaderSize]), length_headerBytes, hlarge]
    have hblobs : blobsImage [blob] = encode 8 blob.length ++ blob := by simp [blobsImage]
    rw [hblobs, List.append_assoc, List.getElem?_append_right (by simp [kHeaderSize]), length_encode,
      List.getElem?_append_left (by omega)]
    exact hget
  have hsmall' : small.image[0]? = some 0 := by
    rw [hsmall]
    rfl
  dsimp only at hbyte
  rw [serialize_bytes, hsmall'] at hbyte
  simp [Heap.read, Heap.write, hlarge'] at hbyte

end MPINetWrapper
end Hpps.Net

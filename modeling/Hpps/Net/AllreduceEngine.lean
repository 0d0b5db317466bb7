import Hpps.Common.Stop
import Hpps.Lib.Network
import Hpps.Net.Topology

/-! `AllreduceEngine`: the program that each rank runs. -/
namespace Hpps.Net

open Network

variable {n : ℕ} {α β : Type}

/-- What rank `r` of `n` runs. -/
abbrev Program (n : ℕ) (α β : Type) := Proc (Fin n) α β

instance : MonadLift (Except Stop) (Program n α) where
  monadLift
    | .ok b => .ret b
    | .error _ => .fail

@[simp] theorem lift_ok (b : β) : (liftM (Except.ok b : Except Stop β) : Program n α β) = .ret b :=
  rfl

theorem lift_bind {γ : Type} (x : Except Stop β) (f : β → Except Stop γ) :
    (liftM (x >>= f) : Program n α γ) = liftM x >>= fun b => liftM (f b) := by
  cases x <;> rfl

/-- There are only `n` ranks. -/
def sendTo (rank : ℕ) (data : List α) : Program n α Unit :=
  if h : rank < n then .send ⟨rank, h⟩ data (.ret ()) else .fail

def recvFrom (rank len : ℕ) : Program n α (List α) :=
  if h : rank < n then .recv ⟨rank, h⟩ len .ret else .fail

def sendRecv (sendRank : ℕ) (data : List α) (recvRank len : ℕ) : Program n α (List α) := do
  sendTo sendRank data
  recvFrom recvRank len

theorem sendTo_bind {dst : ℕ} (h : dst < n) {data : List α} {K : Unit → Program n α β} :
    sendTo dst data >>= K = .send ⟨dst, h⟩ data (K ()) := by
  rw [sendTo, dif_pos h]
  rfl

theorem recvFrom_bind {src : ℕ} (h : src < n) {len : ℕ} {K : List α → Program n α β} :
    recvFrom src len >>= K = .recv ⟨src, h⟩ len K := by
  rw [recvFrom, dif_pos h]
  rfl

theorem sendRecv_bind {dst src : ℕ} (hd : dst < n) (hs : src < n) {data : List α} {len : ℕ}
    {K : List α → Program n α β} :
    sendRecv dst data src len >>= K = .send ⟨dst, hd⟩ data (.recv ⟨src, hs⟩ len K) := by
  rw [sendRecv, bind_assoc, sendTo_bind hd, recvFrom_bind hs]

/-- `std::reverse` of the range from `first` up to `last`. -/
def reverse (l : List α) (first last : ℕ) : Except Stop (List α) :=
  if first ≤ last ∧ last ≤ l.length then
    .ok (l.take first ++ ((l.take last).drop first).reverse ++ l.drop last)
  else .error .memory

/-! ### Allgather -/

structure GatherState (α : Type) where
  output : List α
  writePtr : ℕ
  accumulatedBlock : ℕ

/-- The sizes of `count` blocks from `first` on, wrapping around. -/
def wrappedSize (blockLen : ℕ → ℕ) (n first count : ℕ) : ℕ :=
  (List.range count).foldl (fun size j => size + blockLen ((first + j) % n)) 0

def gatherRound (rank : Fin n) (blockLen : ℕ → ℕ) (st : GatherState α) (i : ℕ) :
    Program n α (GatherState α) := do
  let map := BruckMap.construct rank n
  let curBlockSize := min (2 ^ i) (n - st.accumulatedBlock)
  let sendLen := wrappedSize blockLen n rank curBlockSize
  let needRecvCnt := wrappedSize blockLen n (rank + st.accumulatedBlock) curBlockSize
  let data ← fetch st.output 0 sendLen
  let data ← sendRecv (map.outRanks i) data (map.inRanks i) needRecvCnt
  let output ← memcpy st.output st.writePtr data
  return ⟨output, st.writePtr + needRecvCnt, st.accumulatedBlock + curBlockSize⟩

def allgather (rank : Fin n) (input : List α) (allSize : ℕ) (blockStart blockLen : ℕ → ℕ)
    (output : List α) : Program n α (List α) := do
  let data ← fetch input 0 (blockLen rank)
  let output ← memcpy output 0 data
  let k := (BruckMap.construct rank n).k
  let st ← (List.range k).foldlM (gatherRound rank blockLen) ⟨output, blockLen rank, 1⟩
  let output ← reverse st.output 0 allSize
  let output ← reverse output 0 (blockStart rank)
  reverse output (blockStart rank) allSize

/-! ### Reduce scatter -/

/-- The two buffers of a rank; `input` is where it accumulates. -/
structure ScatterState (α : Type) where
  input : List α
  output : List α

/-- `reducer(output, input + first, len)`; a reducer maps `src` and `dst` to what `dst` becomes. -/
def reduceInto (reducer : List α → List α → List α) (st : ScatterState α) (first len : ℕ) :
    Except Stop (ScatterState α) := do
  let src ← fetch st.output 0 len
  let dst ← fetch st.input first len
  let input ← memcpy st.input first (reducer src dst)
  return { st with input }

/-- A group of two first brings its data together. -/
def collect (map : RecursiveHalvingMap) (inputSize : ℕ) (reducer : List α → List α → List α)
    (st : ScatterState α) : Program n α (ScatterState α) :=
  match map.type with
  | .other => do
    let data ← fetch st.input 0 inputSize
    sendTo map.neighbor data
    return st
  | .groupLeader => do
    let data ← recvFrom map.neighbor inputSize
    let output ← memcpy st.output 0 data
    reduceInto reducer { st with output } 0 inputSize
  | .normal => return st

def scatterRound (map : RecursiveHalvingMap) (blockStart blockLen : ℕ → ℕ)
    (reducer : List α → List α → List α) (st : ScatterState α) (i : ℕ) :
    Program n α (ScatterState α) := do
  let target := map.ranks i
  let sendSize := sumFrom blockLen (map.sendBlockStart i) (map.sendBlockLen i)
  let needRecvCnt := sumFrom blockLen (map.recvBlockStart i) (map.recvBlockLen i)
  let data ← fetch st.input (blockStart (map.sendBlockStart i)) sendSize
  let data ← sendRecv target data target needRecvCnt
  let output ← memcpy st.output 0 data
  reduceInto reducer { st with output } (blockStart (map.recvBlockStart i)) needRecvCnt

def copyBlock (rank : Fin n) (blockStart blockLen : ℕ → ℕ) (st : ScatterState α) :
    Except Stop (ScatterState α) := do
  let data ← fetch st.input (blockStart rank) (blockLen rank)
  let output ← memcpy st.output 0 data
  return { st with output }

/-- A group of two shares its result. -/
def deliver (rank : Fin n) (map : RecursiveHalvingMap) (blockStart blockLen : ℕ → ℕ)
    (st : ScatterState α) : Program n α (ScatterState α) :=
  match map.type with
  | .groupLeader => do
    let data ← fetch st.input (blockStart map.neighbor) (blockLen map.neighbor)
    sendTo map.neighbor data
    copyBlock rank blockStart blockLen st
  | .other => do
    let data ← recvFrom map.neighbor (blockLen rank)
    let output ← memcpy st.output 0 data
    return { st with output }
  | .normal => copyBlock rank blockStart blockLen st

/-- The buffers as `ReduceScatter` leaves them. -/
def reduceScatter (rank : Fin n) (input : List α) (inputSize : ℕ) (blockStart blockLen : ℕ → ℕ)
    (output : List α) (reducer : List α → List α → List α) : Program n α (ScatterState α) := do
  let map := RecursiveHalvingMap.construct rank n
  let isPowerof2 := n &&& (n - 1) = 0
  let st : ScatterState α := ⟨input, output⟩
  let st ← if isPowerof2 then pure st else collect map inputSize reducer st
  let st ← if map.type = .other then pure st
    else (List.range map.k).foldlM (scatterRound map blockStart blockLen reducer) st
  if isPowerof2 then copyBlock rank blockStart blockLen st
  else deliver rank map blockStart blockLen st

/-! ### Allreduce -/

/-- The buffers of a rank with that of the engine, `buffer_size_` bytes long. -/
structure ReduceState (α : Type) extends ScatterState α where
  buffer : List α

/-- Every rank has a block of the same size. -/
def equalStart (sendSize : ℕ) : ℕ → ℕ
  | 0 => 0
  | i + 1 => equalStart sendSize i + sendSize

/-- `step * type_size` bytes for each rank, as long as there are so many. -/
def evenStart (stepSize inputSize : ℕ) : ℕ → ℕ
  | 0 => 0
  | i + 1 => evenStart stepSize inputSize i + min stepSize (inputSize - evenStart stepSize inputSize i)

/-- The last rank has what is left. -/
def evenLen (stepSize inputSize n i : ℕ) : ℕ :=
  if i < n - 1 then min stepSize (inputSize - evenStart stepSize inputSize i)
  else inputSize - evenStart stepSize inputSize (n - 1)

/-- `reducer(buffer + block_start[i], buffer + block_start[0], input_size)`. -/
def reduceBlock (inputSize : ℕ) (reducer : List α → List α → List α) (buffer : List α) (i : ℕ) :
    Except Stop (List α) := do
  let src ← fetch buffer (equalStart inputSize i) inputSize
  let dst ← fetch buffer (equalStart inputSize 0) inputSize
  memcpy buffer (equalStart inputSize 0) (reducer src dst)

def reduceBlocks (n inputSize : ℕ) (reducer : List α → List α → List α) (buffer : List α) :
    Except Stop (List α) :=
  (List.range' 1 (n - 1)).foldlM (reduceBlock inputSize reducer) buffer

/-- What `new char[]` holds is up to `fresh`. -/
def allreduceByAllGather (rank : Fin n) (inputSize : ℕ) (reducer : List α → List α → List α)
    (fresh : ℕ → α) (st : ReduceState α) : Program n α (ReduceState α) := do
  let allSize := inputSize * n
  let buffer := if st.buffer.length < allSize then (List.range allSize).map fresh else st.buffer
  let buffer ← allgather rank st.input allSize (equalStart inputSize) (fun _ => inputSize) buffer
  let buffer ← reduceBlocks n inputSize reducer buffer
  let data ← fetch buffer 0 inputSize
  let output ← memcpy st.output 0 data
  return ⟨⟨st.input, output⟩, buffer⟩

/-- `Allreduce` from the assignment of the blocks on. -/
def allreduceByBlocks (rank : Fin n) (inputSize typeSize : ℕ) (reducer : List α → List α → List α)
    (st : ReduceState α) : Program n α (ReduceState α) := do
  let count := inputSize / typeSize
  let step := max ((count + n - 1) / n) 1
  let blockStart := evenStart (step * typeSize) inputSize
  let blockLen := evenLen (step * typeSize) inputSize n
  let scattered ← reduceScatter rank st.input inputSize blockStart blockLen st.output reducer
  let output ← allgather rank scattered.output inputSize blockStart blockLen scattered.output
  return ⟨⟨scattered.input, output⟩, st.buffer⟩

def allreduce (rank : Fin n) (inputSize typeSize : ℕ) (reducer : List α → List α → List α)
    (fresh : ℕ → α) (st : ReduceState α) : Program n α (ReduceState α) :=
  let count := inputSize / typeSize
  if count < n ∨ inputSize < 4096 then allreduceByAllGather rank inputSize reducer fresh st
  else allreduceByBlocks rank inputSize typeSize reducer st

end Hpps.Net

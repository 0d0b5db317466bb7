import Hpps.Common.Stop
import Hpps.Lib.Refill

/-! `Random`: values that are drawn a buffer at a time, and handed out in pieces of any size. -/
namespace Hpps

open Refill

inductive RandomAlgoType
  | kGaussian
  | kUniform
  | kAssign
  deriving DecidableEq

/-- The slots of `data_`. -/
structure RandomOption (α : Type) where
  algorithm : ℤ
  mu : α
  sigma : α
  assignedValue : α
  seed : ℤ
  min : α
  max : α

def RandomOption.algo {α : Type} (option : RandomOption α) : Option RandomAlgoType :=
  if option.algorithm = 0 then some .kGaussian
  else if option.algorithm = 1 then some .kUniform
  else if option.algorithm = 2 then some .kAssign
  else none

/-- A distribution of the standard library: the state of a new one, and how it draws from the engine. -/
structure Distribution (σ δ α : Type) where
  new : δ
  draw : δ → σ → α × δ × σ

/-- The engine and the distributions of `<random>`. -/
structure RandomLibrary (σ δ α : Type) where
  seed : ℤ → σ
  uniformReal : α → α → Distribution σ δ α
  normal : α → α → Distribution σ δ α

def kRandomBufferSize : ℕ := 1024

instance : NeZero kRandomBufferSize := ⟨by decide⟩

/-- The last `bufferRemaining` values of the buffer were not handed out yet. -/
structure Random (σ α : Type) where
  randomOption : RandomOption α
  rndEngine : σ
  buffer : List α
  bufferRemaining : ℕ
  length_buffer : buffer.length = kRandomBufferSize
  remaining_le : bufferRemaining ≤ kRandomBufferSize

namespace Random

variable {σ δ α : Type} (lib : RandomLibrary σ δ α)

/-- The loop that draws `n` values. -/
def drawLoop (dist : Distribution σ δ α) : ℕ → δ → σ → List α × σ
  | 0, _, s => ([], s)
  | n + 1, d, s =>
    let (x, d, s) := dist.draw d s
    let (xs, s) := drawLoop dist n d s
    (x :: xs, s)

/-- What the loop of each algorithm puts into the last `n` places of the buffer. -/
def genValues (option : RandomOption α) (algorithm : RandomAlgoType) (n : ℕ) (s : σ) : List α × σ :=
  match algorithm with
  | .kAssign => (List.replicate n option.assignedValue, s)
  | .kUniform =>
    let dist := lib.uniformReal option.min option.max
    drawLoop dist n dist.new s
  | .kGaussian =>
    let dist := lib.normal option.mu option.sigma
    drawLoop dist n dist.new s

theorem length_drawLoop {dist : Distribution σ δ α} {n : ℕ} {d : δ} {s : σ} :
    (drawLoop dist n d s).1.length = n := by
  induction n generalizing d s with
  | zero => rfl
  | succ n ih => simp [drawLoop, ih]

theorem length_genValues {option : RandomOption α} {algorithm : RandomAlgoType} {n : ℕ} {s : σ} :
    (genValues lib option algorithm n s).1.length = n := by
  cases algorithm with
  | kAssign => simp [genValues]
  | kUniform | kGaussian => exact length_drawLoop

/-- A new object; the values that `resize` puts into its buffer are zeros. -/
def new [Zero α] (option : RandomOption α) : Random σ α where
  randomOption := option
  rndEngine := lib.seed option.seed
  buffer := List.replicate kRandomBufferSize 0
  bufferRemaining := 0
  length_buffer := List.length_replicate
  remaining_le := Nat.zero_le _

/-- Afterwards no value of the buffer was handed out. -/
def genBuffer (r : Random σ α) : Except Stop {r : Random σ α // 0 < r.bufferRemaining} :=
  match r.randomOption.algo with
  | none => .error .fatal
  | some algorithm =>
    let values := genValues lib r.randomOption algorithm (kRandomBufferSize - r.bufferRemaining) r.rndEngine
    .ok ⟨{ r with
      rndEngine := values.2
      buffer := r.buffer.take r.bufferRemaining ++ values.1
      bufferRemaining := kRandomBufferSize
      length_buffer := by
        have := r.remaining_le
        rw [List.length_append, List.length_take, r.length_buffer, length_genValues]
        omega
      remaining_le := le_rfl }, NeZero.pos kRandomBufferSize⟩

/-- An empty buffer is filled before anything is copied. -/
def ready (r : Random σ α) : Except Stop {r : Random σ α // 0 < r.bufferRemaining} :=
  if h : r.bufferRemaining = 0 then genBuffer lib r else .ok ⟨r, Nat.pos_of_ne_zero h⟩

/-- The part of the buffer that was not handed out. -/
def rest (r : Random σ α) : List α := r.buffer.drop (kRandomBufferSize - r.bufferRemaining)

theorem length_rest (r : Random σ α) : r.rest.length = r.bufferRemaining := by
  have := r.remaining_le
  rw [rest, List.length_drop, r.length_buffer]
  omega

/-- `n` more values were handed out. -/
def copy (r : Random σ α) (n : ℕ) : Random σ α := { r with
  bufferRemaining := r.bufferRemaining - n
  remaining_le := (Nat.sub_le ..).trans r.remaining_le }

/-- Each round of the loop copies at least one value. -/
def gen (r : Random σ α) (size : ℕ) : Except Stop (List α × Random σ α) :=
  if size = 0 then .ok ([], r)
  else do
    let ⟨r, _⟩ ← ready lib r
    let copySize := min r.bufferRemaining size
    let (values, r') ← gen (r.copy copySize) (size - copySize)
    return (r.rest.take copySize ++ values, r')
termination_by size
decreasing_by omega

/-- What a sequence of calls puts out, call by call. -/
def genAll (r : Random σ α) : List ℕ → Except Stop (List (List α))
  | [] => .ok []
  | size :: sizes => do
    let (values, r) ← gen lib r size
    let outputs ← genAll r sizes
    return values :: outputs

variable {r : Random σ α} {algorithm : RandomAlgoType} {sizes sizes' : List ℕ}

/-- The buffers of an option, each a function of the state of the engine. -/
def source (option : RandomOption α) (algorithm : RandomAlgoType) :
    Source σ α kRandomBufferSize where
  next s := genValues lib option algorithm kRandomBufferSize s
  length_next _ := length_genValues lib

/-- What an object will hand out: the rest of its buffer, then the buffers that it will be refilled with. -/
def future (algorithm : RandomAlgoType) (r : Random σ α) : Stream' α :=
  r.rest ++ₛ (source lib r.randomOption algorithm).stream r.rndEngine

theorem future_of_genBuffer {q : {r : Random σ α // 0 < r.bufferRemaining}}
    (halgo : r.randomOption.algo = some algorithm) (h : genBuffer lib r = .ok q) (hr : r.bufferRemaining = 0) :
    q.val.randomOption = r.randomOption ∧ future lib algorithm q.val = future lib algorithm r := by
  unfold genBuffer at h
  rw [halgo] at h
  cases h
  refine ⟨rfl, ?_⟩
  have hempty : r.rest = [] := List.length_eq_zero_iff.mp (r.length_rest.trans hr)
  have hstream := Source.stream_eq (S := source lib r.randomOption algorithm) (s := r.rndEngine)
  rw [future, future, hempty, Stream'.nil_append_stream, hstream]
  simp [rest, hr, source]

/-- Filling the buffer does not change what the object will hand out. -/
theorem ready_eq (halgo : r.randomOption.algo = some algorithm) : ∃ q, ready lib r = .ok q ∧
    q.val.randomOption = r.randomOption ∧ future lib algorithm q.val = future lib algorithm r := by
  unfold ready
  by_cases hr : r.bufferRemaining = 0
  · rw [dif_pos hr]
    obtain ⟨q, hq⟩ : ∃ q, genBuffer lib r = .ok q := by
      rw [genBuffer, halgo]
      exact ⟨_, rfl⟩
    exact ⟨q, hq, future_of_genBuffer lib halgo hq hr⟩
  · rw [dif_neg hr]
    exact ⟨_, rfl, rfl, rfl⟩

/-- Handing out the first values of the buffer. -/
theorem future_copy (algorithm : RandomAlgoType) {q : Random σ α} {n : ℕ} (h : n ≤ q.bufferRemaining) :
    q.rest.take n = (future lib algorithm q).take n ∧
      future lib algorithm (q.copy n) = (future lib algorithm q).drop n := by
  have hn : n ≤ q.rest.length := q.length_rest.symm ▸ h
  have hrest : (q.copy n).rest = q.rest.drop n := by
    have := q.remaining_le
    have hdrop : kRandomBufferSize - (q.bufferRemaining - n) = kRandomBufferSize - q.bufferRemaining + n := by omega
    rw [rest, rest, List.drop_drop, ← hdrop]
    rfl
  rw [future, future, hrest, Stream'.take_append_of_le_length _ _ _ hn, Stream'.drop_append_of_le_length _ _ _ hn]
  exact ⟨rfl, rfl⟩

/-- A call puts out the next values, and leaves the ones after them. -/
theorem gen_eq (size : ℕ) (halgo : r.randomOption.algo = some algorithm) : ∃ r', gen lib r size =
    .ok ((future lib algorithm r).take size, r') ∧ r'.randomOption = r.randomOption ∧
      future lib algorithm r' = (future lib algorithm r).drop size := by
  induction size using Nat.strongRecOn generalizing r with
  | ind size ih =>
    rw [gen]
    by_cases hsize : size = 0
    · subst hsize
      exact ⟨r, rfl, rfl, rfl⟩
    · obtain ⟨⟨q, hpos⟩, hq, hoption, hfuture⟩ := ready_eq lib halgo
      rw [if_neg hsize, hq, ok_bind]
      dsimp only at hoption hfuture ⊢
      have hmin := min_le_left q.bufferRemaining size
      obtain ⟨hcopied, hleft⟩ := future_copy lib algorithm hmin
      obtain ⟨r', hr', hoption', hfuture'⟩ := ih (size - min q.bufferRemaining size) (by omega)
        (r := q.copy (min q.bufferRemaining size)) (hoption ▸ halgo)
      have hadd : min q.bufferRemaining size + (size - min q.bufferRemaining size) = size := by omega
      refine ⟨r', ?_, hoption'.trans hoption, ?_⟩
      · have htake := Stream'.take_add (min q.bufferRemaining size) (size - min q.bufferRemaining size)
          (future lib algorithm q)
        rw [hadd] at htake
        rw [hr', ok_bind, hcopied, hleft, ← hfuture, htake]
        rfl
      · rw [hfuture', hleft, Stream'.drop_drop, hadd, hfuture]

theorem genAll_eq (sizes : List ℕ) (halgo : r.randomOption.algo = some algorithm) :
    ∃ outputs, genAll lib r sizes = .ok outputs ∧ outputs.flatten = (future lib algorithm r).take sizes.sum := by
  induction sizes generalizing r with
  | nil => exact ⟨[], rfl, rfl⟩
  | cons size sizes ih =>
    obtain ⟨r', hr', hoption, hfuture⟩ := gen_eq lib size halgo
    obtain ⟨outputs, houtputs, hflatten⟩ := ih (r := r') (hoption ▸ halgo)
    refine ⟨(future lib algorithm r).take size :: outputs, ?_, ?_⟩
    · rw [genAll, hr', ok_bind]
      dsimp only
      rw [houtputs]
      rfl
    · rw [List.flatten_cons, hflatten, hfuture, List.sum_cons, Stream'.take_add]

/-- Without an algorithm the first value that is asked for ends the process. -/
theorem genAll_fatal (halgo : r.randomOption.algo = none) (hr : r.bufferRemaining = 0) :
    (genAll lib r sizes).map List.flatten = if sizes.sum = 0 then .ok [] else .error .fatal := by
  induction sizes with
  | nil => rfl
  | cons size sizes ih =>
    rw [genAll, List.sum_cons]
    by_cases hsize : size = 0
    · subst hsize
      have hgen : gen lib r 0 = .ok ([], r) := by rw [gen, if_pos rfl]
      rw [hgen, ok_bind, Nat.zero_add, ← ih]
      dsimp only
      cases genAll lib r sizes <;> rfl
    · have hgen : gen lib r size = .error .fatal := by
        rw [gen, if_neg hsize, ready, dif_pos hr, genBuffer, halgo]
        rfl
      rw [hgen, if_neg (by omega)]
      rfl

/-- What the calls put out depends on the total of their sizes only: it is the beginning of the stream that
the refilled buffers make up. -/
theorem chunking_irrelevant [Zero α] (option : RandomOption α)
    (h : sizes.sum = sizes'.sum) :
    (genAll lib (new lib option) sizes).map List.flatten = (genAll lib (new lib option) sizes').map List.flatten ∧
      ∀ algorithm, option.algo = some algorithm → (genAll lib (new lib option) sizes).map List.flatten =
        .ok (((source lib option algorithm).stream (lib.seed option.seed)).take sizes.sum) := by
  have hstart : ∀ sizes : List ℕ, ∀ algorithm, option.algo = some algorithm →
      (genAll lib (new lib option) sizes).map List.flatten =
        .ok (((source lib option algorithm).stream (lib.seed option.seed)).take sizes.sum) := by
    intro sizes algorithm halgo
    obtain ⟨outputs, houtputs, hflatten⟩ := genAll_eq lib sizes (show (new lib option).randomOption.algo = some algorithm from halgo)
    have hrest : (new lib option).rest = [] := List.length_eq_zero_iff.mp (length_rest _)
    rw [houtputs, Except.map, hflatten, future, hrest, Stream'.nil_append_stream]
    rfl
  refine ⟨?_, hstart sizes⟩
  cases halgo : option.algo with
  | none => rw [genAll_fatal lib halgo rfl, genAll_fatal lib halgo rfl, h]
  | some algorithm => rw [hstart sizes algorithm halgo, hstart sizes' algorithm halgo, h]

/-- An engine that counts, for small tests. -/
def counter : RandomLibrary ℕ Unit ℕ where
  seed n := n.toNat
  uniformReal _ _ := ⟨(), fun _ s => (s, (), s + 1)⟩
  normal _ _ := ⟨(), fun _ s => (s, (), s + 1)⟩

def uniformFromSeven : RandomOption ℕ := ⟨1, 0, 0, 0, 7, 0, 1⟩

/-- Three calls over three buffers, and one call. -/
theorem chunking_irrelevant_counter :
    (genAll counter (new counter uniformFromSeven) [1000, 0, 1100]).map List.flatten =
      (genAll counter (new counter uniformFromSeven) [2100]).map List.flatten ∧
    (genAll counter (new counter uniformFromSeven) [1000, 0, 1100]).map List.flatten =
      .ok (((source counter uniformFromSeven .kUniform).stream 7).take 2100) := by
  obtain ⟨hsame, hstart⟩ := chunking_irrelevant counter uniformFromSeven
    (show [1000, 0, 1100].sum = [2100].sum by decide)
  exact ⟨hsame, hstart .kUniform rfl⟩

end Random
end Hpps

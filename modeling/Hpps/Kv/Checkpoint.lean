import Hpps.Kv.KVStore

/-! `KVStore::Store` and `KVStore::Load`, and when the one undoes the other. -/
namespace Hpps.Kv

open OpenAddressing

/-- A stream as a sequence of the values written to it, each read back with its own size. -/
inductive Cell (Val : Type)
  | size (n : ℕ)
  | node (n : Node)
  | val (v : Val)

namespace Cell

variable {Val β : Type} {get : Cell Val → Option β} {put : β → Cell Val} {rest : List (Cell Val)}

def readSize : List (Cell Val) → Option (ℕ × List (Cell Val))
  | .size n :: cells => some (n, cells)
  | _ => none

def toNode : Cell Val → Option Node
  | .node n => some n
  | _ => none

def toVal : Cell Val → Option Val
  | .val v => some v
  | _ => none

/-- Reads `n` values; `none` if the stream holds something else. -/
def read (get : Cell Val → Option β) : ℕ → List (Cell Val) → Option (List β × List (Cell Val))
  | 0, cells => some ([], cells)
  | _ + 1, [] => none
  | n + 1, c :: cells => do
    let b ← get c
    let (bs, cells) ← read get n cells
    return (b :: bs, cells)

theorem read_map_append (hget : ∀ b, get (put b) = some b) (bs : List β) (rest : List (Cell Val)) :
    read get bs.length (bs.map put ++ rest) = some (bs, rest) := by
  induction bs with
  | nil => rfl
  | cons b bs ih => simp [read, hget, ih]

end Cell

namespace KVStore

variable {Val : Type} {s t u : KVStore Val} {g : Garbage Val} {key i n : ℕ} {r : List Val × Bool}

/-- The nodes written are the first `node_size_` buckets, not all `node_capacity_` of them. -/
def store (s : KVStore Val) : List (Cell Val) :=
  .size s.nodeCapacity :: .size s.nodeSize :: (((List.range s.nodeSize).map s.node).map .node ++
    .size s.dataCapacity :: .size s.dataSize :: ((List.range s.dataSize).map s.data).map .val)

/-- The memory of the nodes and of the values is fresh; every bucket is free until it is read. -/
def load (t : KVStore Val) (g : Garbage Val) (stream : List (Cell Val)) :
    Option (KVStore Val × List (Cell Val)) := do
  let (nodeCapacity, stream) ← Cell.readSize stream
  let (nodeSize, stream) ← Cell.readSize stream
  let (nodes, stream) ← Cell.read Cell.toNode nodeSize stream
  let (dataCapacity, stream) ← Cell.readSize stream
  let (dataSize, stream) ← Cell.readSize stream
  let (data, stream) ← Cell.read Cell.toVal dataSize stream
  return ({
    node := fun i => nodes[i]?.getD ⟨g.key i, -1, false⟩
    nodeSize
    nodeCapacity
    data := fun i => data[i]?.getD (g.val i)
    dataSize
    dataCapacity
    valueLen := t.valueLen }, stream)

/-- What a store of rows of `n` values holds after loading `s.store`. -/
def restored (s : KVStore Val) (n : ℕ) (g : Garbage Val) : KVStore Val :=
  { s with
    node := fun i => if i < s.nodeSize then s.node i else ⟨g.key i, -1, false⟩
    data := fun i => if i < s.dataSize then s.data i else g.val i
    valueLen := n }

theorem load_store : t.load g s.store = some (s.restored t.valueLen g, []) := by
  have hnodes := Cell.read_map_append (fun b : Node => (rfl : Cell.toNode (Cell.node b) = some b))
    ((List.range s.nodeSize).map s.node)
    (.size s.dataCapacity :: .size s.dataSize :: ((List.range s.dataSize).map s.data).map .val)
  have hdata := Cell.read_map_append (fun b : Val => (rfl : Cell.toVal (Cell.val b) = some b))
    ((List.range s.dataSize).map s.data) []
  rw [List.length_map, List.length_range] at hnodes hdata
  rw [List.append_nil] at hdata
  simp only [load, store, Cell.readSize, Option.bind_eq_bind, Option.bind_some, hnodes, hdata,
    Option.pure_def, restored, Option.some.injEq, Prod.mk.injEq, KVStore.mk.injEq, and_true, true_and]
  constructor
  · funext i
    by_cases hi : i < s.nodeSize <;> simp [hi]
  · funext i
    by_cases hi : i < s.dataSize <;> simp [hi]

theorem slot_restored : (s.restored n g).slot i = if i < s.nodeSize then s.slot i else none := by
  by_cases hi : i < s.nodeSize <;> simp [slot, restored, hi]

theorem read_restored {offset : ℕ} (h : offset + s.valueLen ≤ s.dataSize) :
    (s.restored s.valueLen g).read offset = s.read offset := by
  apply List.map_congr_left
  intro j hj
  have := List.mem_range.mp hj
  simp only [restored] at this ⊢
  rw [if_pos (by omega)]

/-- Nothing is lost when every bucket in use is among the first `node_size_`. -/
theorem lookup_restored (h : Sound s)
    (hall : ∀ i < s.nodeCapacity, 0 ≤ (s.node i).offset → i < s.nodeSize) :
    (s.restored s.valueLen g).lookup key = some (some r) ↔ s.lookup key = some (some r) := by
  have hslot : (s.restored s.valueLen g).slot = s.slot := by
    funext i
    rw [slot_restored]
    split
    · rfl
    · rename_i hi
      rw [slot, if_neg]
      rintro ⟨hc, ho⟩
      exact hi (hall i hc ho)
  have hfind : (s.restored s.valueLen g).find key = s.find key := by
    rw [find_eq_probe h.pos, find_eq_probe (s := s.restored s.valueLen g) h.pos, hslot]
    rfl
  rw [lookup_eq_some_iff, lookup_eq_some_iff, hfind]
  refine exists_congr fun i => and_congr_right fun hi => ?_
  have hs := h.find_hit_iff.mp hi
  have hin : i < s.nodeSize := by
    simp only [slot, Option.ite_none_right_eq_some] at hs
    exact hall i hs.1.1 hs.1.2
  have hnode : (s.restored s.valueLen g).node i = s.node i := if_pos hin
  rw [hnode, read_restored (h.inside i key hs)]

/-- A key in a later bucket is gone. -/
theorem lost_restored (h : Sound s) (hi : i < s.nodeCapacity) (hlive : 0 ≤ (s.node i).offset)
    (hlost : s.nodeSize ≤ i) : (∃ r, s.lookup (s.node i).key = some (some r)) ∧
      ∀ r, (s.restored n g).lookup (s.node i).key ≠ some (some r) := by
  have hs : s.slot i = some (s.node i).key := if_pos ⟨hi, hlive⟩
  constructor
  · exact ⟨_, lookup_eq_some_iff.mpr ⟨i, h.find_hit_iff.mpr hs, rfl⟩⟩
  · intro r hr
    obtain ⟨j, hj, -⟩ := lookup_eq_some_iff.mp hr
    rw [find_eq_probe (s := s.restored n g) h.pos] at hj
    refine h.findable.not_hit_of_lost hs (fun j k hk => ?_) ?_ j hj
    · rw [slot_restored] at hk
      split at hk
      · exact hk
      · cases hk
    · rw [slot_restored, if_neg (by omega)]

/-- Loading what was stored gives back the same map exactly when no bucket in use lies past the
first `node_size_`. -/
theorem load_store_iff [Zero Val] (hs : Reachable n s) (ht : t.valueLen = n) :
    (∃ u, t.load g s.store = some (u, []) ∧
      ∀ key r, u.lookup key = some (some r) ↔ s.lookup key = some (some r)) ↔
    ∀ i < s.nodeCapacity, 0 ≤ (s.node i).offset → i < s.nodeSize := by
  obtain ⟨h, hv⟩ := hs.sound
  subst ht
  constructor
  · rintro ⟨u, hu, hall⟩ i hi hlive
    rw [load_store] at hu
    cases hu
    by_contra hlost
    obtain ⟨⟨r, hr⟩, hno⟩ := lost_restored (n := t.valueLen) (g := g) h hi hlive (not_lt.mp hlost)
    exact hno r ((hall _ r).mpr hr)
  · intro hall
    refine ⟨_, load_store, fun key r => ?_⟩
    rw [← hv]
    exact lookup_restored h hall

/-- The memory a small test table starts from. -/
def blank : Garbage ℕ := ⟨fun _ => 0, fun _ => 0⟩

theorem load_store_one_key : ∃ s t : KVStore ℕ, s.lookup 1 = some (some ([7], false)) ∧
    ((∃ u, t.load blank s.store = some (u, []) ∧
      ∀ key r, u.lookup key = some (some r) ↔ s.lookup key = some (some r)) ↔
    ∀ i < s.nodeCapacity, 0 ≤ (s.node i).offset → i < s.nodeSize) := by
  obtain ⟨s₀, h₀⟩ : ∃ s₀, new 4 1 blank = some s₀ := exists_new ..
  have hs : Reachable 1 ((s₀.step (.set 1 [7] false)).getD s₀) :=
    ⟨4, blank, s₀, h₀, [.set 1 [7] false], by cases h₀; rfl⟩
  have ht : s₀.valueLen = 1 := by cases h₀; rfl
  refine ⟨_, s₀, ?_, load_store_iff hs ht⟩
  cases h₀
  decide

/-- A table of four buckets that holds keys 0 and 3 writes buckets 0 and 1 only. -/
theorem store_loses_key : ∃ s t : KVStore ℕ, Reachable 1 s ∧ Reachable 1 t ∧
    ¬ ∃ u, t.load blank s.store = some (u, []) ∧
      ∀ key r, u.lookup key = some (some r) ↔ s.lookup key = some (some r) := by
  obtain ⟨s₀, h₀⟩ : ∃ s₀, new 4 1 blank = some s₀ := exists_new ..
  refine ⟨(s₀.step (.set 3 [7] false)).getD s₀, s₀, ⟨4, blank, s₀, h₀, [.set 3 [7] false], ?_⟩,
    ⟨4, blank, s₀, h₀, .refl⟩, ?_⟩
  · cases h₀
    rfl
  · rintro ⟨u, hu, hall⟩
    rw [load_store] at hu
    cases hu
    have hr := (hall 3 ([7], false)).mpr (by cases h₀; decide)
    cases h₀
    revert hr
    decide

end KVStore
end Hpps.Kv

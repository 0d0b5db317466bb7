import Hpps.Common.Allocator
import Hpps.Lib.Tally

/-! `Blob`: memory that is shared and counted through the allocator. -/
namespace Hpps.Blobs
open Allocator Tally TransitionSystem

/-- `data_` names the block it points to. -/
structure Blob where
  data : Option ℕ
  size : ℕ
  deriving DecidableEq, Repr

/-- Blobs are named in the order of their construction; a destroyed one is `none`. -/
structure State where
  allocator : SmartAllocator
  blobs : List (Option Blob)

def init : State := ⟨Allocator.init, []⟩

inductive Op
  | default
  | sized (size : ℕ)
  | external (size : ℕ)
  | copy (y : ℕ)
  | assign (x y : ℕ)
  | destroy (x : ℕ)
  deriving DecidableEq, Repr

namespace State

def live (s : State) (x : ℕ) : Option Blob := (s.blobs[x]?).join

/-- A block for a new Blob; the contents of external memory are copied into it. -/
def construct (s : State) (size : ℕ) : Option State := do
  let (b, a) ← s.allocator.Alloc size
  pure { allocator := a, blobs := s.blobs ++ [some ⟨some b, size⟩] }

/-- What the copy constructor and `operator=` do to the count of the memory they share. -/
def refer (s : State) (rhs : Blob) : Option SmartAllocator :=
  if rhs.size ≠ 0 then rhs.data.bind s.allocator.Refer else some s.allocator

end State

open State

/-- `none` ends the process: a CHECK, a null pointer, or a Blob that is not there. -/
def step (s : State) : Op → Option State
  | .default => some { s with blobs := s.blobs ++ [some ⟨none, 0⟩] }
  | .sized size => if 0 < size then s.construct size else none
  | .external size => s.construct size
  | .copy y => do
    let rhs ← s.live y
    let a ← s.refer rhs
    pure { allocator := a, blobs := s.blobs ++ [some rhs] }
  | .assign x y => do
    let _ ← s.live x
    let rhs ← s.live y
    let a ← s.refer rhs
    pure { allocator := a, blobs := s.blobs.set x (some rhs) }
  | .destroy x => do
    let lhs ← s.live x
    let a ← lhs.data.elim (some s.allocator) s.allocator.Free
    pure { allocator := a, blobs := s.blobs.set x none }

def pointsTo (b : ℕ) (x : Option Blob) : Bool := x.any fun blob => blob.data == some b

/-- The number of live Blobs whose `data_` points to the block. -/
def liveCount (s : State) (b : ℕ) : ℕ := s.blobs.countP (pointsTo b)

/-- The counts are right, the blocks without a Blob are available, and no Blob points to those. -/
structure Exact (s : State) : Prop where
  counts : ∀ b < s.allocator.blocks.length, s.allocator.refCount b = liveCount s b
  available : ∀ b < s.allocator.blocks.length, (s.allocator.Available b ↔ liveCount s b = 0)
  inUse : ∀ x blob b, s.live x = some blob → blob.data = some b →
    b < s.allocator.blocks.length ∧ ¬ s.allocator.Available b

/-- A Blob that is shared has a size or no memory, and its count has room for one more. -/
def CanShare (s : State) (y : ℕ) : Prop :=
  ∀ rhs ∈ s.live y, (rhs.size = 0 → rhs.data = none) ∧ ∀ b ∈ rhs.data, s.allocator.refCount b < 2 ^ 31 - 1

/-- What is assigned to has no memory yet, or is an empty Blob assigned to itself. -/
def Careful (s : State) : Op → Prop
  | .copy y => CanShare s y
  | .assign x y => CanShare s y ∧ (∀ lhs ∈ s.live x, lhs.data = none) ∨ x = y ∧ ∀ lhs ∈ s.live x, lhs.size = 0
  | _ => True

instance (s : State) (y : ℕ) : Decidable (CanShare s y) :=
  inferInstanceAs (Decidable (∀ rhs ∈ s.live y, _ ∧ ∀ b ∈ rhs.data, _))

instance (s : State) : ∀ op, Decidable (Careful s op)
  | .copy y => inferInstanceAs (Decidable (CanShare s y))
  | .assign x y => inferInstanceAs (Decidable (CanShare s y ∧ (∀ lhs ∈ s.live x, lhs.data = none) ∨
      x = y ∧ ∀ lhs ∈ s.live x, lhs.size = 0))
  | .default | .sized _ | .external _ | .destroy _ => .isTrue trivial

variable {s t : State} {chain : ℕ → List ℕ} {b c x : ℕ} {blob : Blob} {a' : SmartAllocator}

/-- The allocator is sound, and each count is the number of Blobs. -/
structure Counted (s : State) : Prop where
  inv : ∃ chain, Inv s.allocator chain
  counts : ∀ b, s.allocator.refCount b = liveCount s b

theorem counted_init : Counted init where
  inv := ⟨_, inv_init⟩
  counts _ := rfl

theorem refCount_of_eq {a : SmartAllocator} (h : a'.blocks[b]? = a.blocks[b]?) : a'.refCount b = a.refCount b := by
  rw [SmartAllocator.refCount, SmartAllocator.refCount, h]

theorem refCount_of_some {a : SmartAllocator} {block : MemoryBlock} (h : a.blocks[b]? = some block) :
    a.refCount b = block.ref := by
  rw [SmartAllocator.refCount, h]
  rfl

theorem live_eq_some : s.live x = some blob ↔ s.blobs[x]? = some (some blob) := by
  rw [State.live]
  cases s.blobs[x]? with
  | none => simp
  | some o => simp

/-- A Blob that is added counts for the block it points to. -/
theorem countP_append_blob {blobs : List (Option Blob)} : (blobs ++ [some blob]).countP (pointsTo b) =
    blobs.countP (pointsTo b) + if blob.data = some b then 1 else 0 := by
  simp [List.countP_append, List.countP_cons, pointsTo]

/-- A Blob that is replaced no longer counts for the block it pointed to. -/
theorem liveCount_set (a : SmartAllocator) (o : Option Blob) (b : ℕ) (hx : s.live x = some blob) :
    liveCount ⟨a, s.blobs.set x o⟩ b + (if blob.data = some b then 1 else 0) =
      liveCount s b + if pointsTo b o then 1 else 0 := by
  have hset := countP_set (p := pointsTo b) (b := o) (live_eq_some.mp hx)
  simpa only [liveCount, pointsTo, Option.any_some, beq_iff_eq] using hset

theorem liveCount_pos (hx : s.live x = some blob) (hb : blob.data = some b) : 0 < liveCount s b :=
  List.countP_pos_iff.mpr ⟨_, List.mem_of_getElem? (live_eq_some.mp hx), by simp [pointsTo, hb]⟩

theorem Counted.exact (h : Counted s) : Exact s := by
  obtain ⟨chain, hinv⟩ := h.inv
  have havailable : ∀ b < s.allocator.blocks.length, (s.allocator.Available b ↔ liveCount s b = 0) := by
    intro b hb
    rw [hinv.available_iff (List.getElem?_eq_getElem hb), ← refCount_of_some (List.getElem?_eq_getElem hb), h.counts]
    exact Int.natCast_eq_zero
  refine ⟨fun b _ => h.counts b, havailable, fun x blob b hx hb => ?_⟩
  have hpos := liveCount_pos hx hb
  have hlt : b < s.allocator.blocks.length := by
    by_contra hge
    have hzero := h.counts b
    rw [SmartAllocator.refCount, List.getElem?_eq_none (not_lt.mp hge)] at hzero
    simp at hzero
    omega
  exact ⟨hlt, fun hav => hpos.ne' ((havailable b hlt).mp hav)⟩

/-- A new block is counted once, for the Blob that was constructed. -/
theorem Counted.construct (h : Counted s) {size : ℕ} (hs : s.construct size = some t) : Counted t := by
  obtain ⟨chain, hinv⟩ := h.inv
  obtain ⟨b, a', chain', ha', hinv', hall⟩ := hinv.alloc size
  rw [State.construct, ha'] at hs
  cases hs
  refine ⟨⟨chain', hinv'⟩, fun c => ?_⟩
  rw [liveCount, countP_append_blob]
  by_cases hc : c = b
  · subst hc
    obtain ⟨block, hblock, -, href⟩ := hall.used
    have hzero := h.counts c
    rw [hall.unused, liveCount] at hzero
    rw [if_pos rfl, refCount_of_some hblock, href]
    omega
  · rw [if_neg fun heq => hc (Option.some.inj heq).symm, refCount_of_eq (hall.others c hc)]
    exact h.counts c

/-- The count of the shared block goes up by one. -/
theorem Counted.refer (h : Counted s) {y : ℕ} {rhs : Blob} (hy : s.live y = some rhs) (hshare : CanShare s y)
    (hs : s.refer rhs = some a') : (∃ chain, Inv a' chain) ∧
      ∀ c, a'.refCount c = s.allocator.refCount c + if rhs.data = some c then 1 else 0 := by
  obtain ⟨hempty, hroom⟩ := hshare rhs hy
  obtain ⟨chain, hinv⟩ := h.inv
  rw [State.refer] at hs
  split at hs
  · obtain ⟨b, hb, hrefer⟩ := Option.bind_eq_some_iff.mp hs
    have hpos : 0 < s.allocator.refCount b := by
      rw [h.counts b]
      exact_mod_cast liveCount_pos hy hb
    obtain ⟨block, hblock, ha', hinv'⟩ := hinv.refer hpos
    rw [ha'] at hrefer
    cases hrefer
    refine ⟨⟨chain, hinv'⟩, fun c => ?_⟩
    by_cases hc : c = b
    · subst hc
      have hlt := hroom c hb
      rw [refCount_of_some hblock] at hlt hpos
      obtain ⟨hlo, hhi, hmod⟩ := wrap_spec (n := block.ref + 1)
      rw [if_pos hb, refCount_of_some hblock, refCount_of_some (List.getElem?_set_self (lt_of_getElem? hblock))]
      dsimp only
      omega
    · rw [if_neg fun heq => hc (Option.some.inj (heq.symm.trans hb)),
        refCount_of_eq (List.getElem?_set_ne (Ne.symm hc)), add_zero]
  · rename_i hsize
    cases hs
    refine ⟨⟨chain, hinv⟩, fun c => ?_⟩
    rw [hempty (not_not.mp hsize), if_neg (by simp), add_zero]

/-- A count goes down when a Blob that points to the block dies. -/
theorem Counted.free (h : Counted s) (hx : s.live x = some blob)
    (hs : blob.data.elim (some s.allocator) s.allocator.Free = some a') : (∃ chain, Inv a' chain) ∧
      ∀ c, a'.refCount c + (if blob.data = some c then 1 else 0) = s.allocator.refCount c := by
  obtain ⟨chain, hinv⟩ := h.inv
  cases hb : blob.data with
  | none =>
    rw [hb] at hs
    cases hs
    exact ⟨⟨chain, hinv⟩, fun c => by simp⟩
  | some b =>
    rw [hb] at hs
    have hpos : 0 < s.allocator.refCount b := by
      rw [h.counts b]
      exact_mod_cast liveCount_pos hx hb
    obtain ⟨block, a₁, chain', hblock, ha', hinv', ⟨block', hblock', -, href⟩, hothers⟩ := hinv.free hpos
    cases ha'.symm.trans hs
    refine ⟨⟨chain', hinv'⟩, fun c => ?_⟩
    by_cases hc : c = b
    · subst hc
      rw [if_pos rfl, refCount_of_some hblock, refCount_of_some hblock', href]
      omega
    · rw [if_neg fun heq => hc (Option.some.inj heq).symm, refCount_of_eq (hothers c hc), add_zero]

theorem Counted.step {op : Op} (h : Counted s) (hop : Careful s op) (hs : step s op = some t) : Counted t := by
  cases op with
  | default =>
    cases hs
    refine ⟨h.inv, fun c => ?_⟩
    rw [liveCount, countP_append_blob, if_neg (by simp)]
    exact h.counts c
  | sized size =>
    rw [Blobs.step] at hs
    split at hs
    · exact h.construct hs
    · cases hs
  | external size => exact h.construct hs
  | copy y =>
    obtain ⟨rhs, hy, hs⟩ := Option.bind_eq_some_iff.mp hs
    obtain ⟨a, ha, hs⟩ := Option.bind_eq_some_iff.mp hs
    cases hs
    obtain ⟨hinv, hcount⟩ := h.refer hy hop ha
    refine ⟨hinv, fun c => ?_⟩
    rw [hcount c, h.counts c, liveCount, liveCount, countP_append_blob]
    push_cast
    rfl
  | assign x y =>
    obtain ⟨lhs, hx, hs⟩ := Option.bind_eq_some_iff.mp hs
    obtain ⟨rhs, hy, hs⟩ := Option.bind_eq_some_iff.mp hs
    obtain ⟨a, ha, hs⟩ := Option.bind_eq_some_iff.mp hs
    cases hs
    rcases hop with ⟨hshare, hnone⟩ | ⟨rfl, hzero⟩
    · obtain ⟨hinv, hcount⟩ := h.refer hy hshare ha
      refine ⟨hinv, fun c => ?_⟩
      have hset := liveCount_set a (some rhs) c hx
      rw [hnone lhs hx, if_neg (by simp), add_zero] at hset
      rw [hcount c, h.counts c, hset]
      by_cases hc : rhs.data = some c <;> simp [pointsTo, hc]
    · cases hx.symm.trans hy
      rw [State.refer, if_neg (not_not.mpr (hzero lhs hx))] at ha
      cases ha
      refine ⟨h.inv, fun c => ?_⟩
      have hset := liveCount_set s.allocator (some lhs) c hx
      rw [h.counts c]
      by_cases hc : lhs.data = some c <;> simp [pointsTo, hc] at hset ⊢ <;> omega
  | destroy x =>
    obtain ⟨lhs, hx, hs⟩ := Option.bind_eq_some_iff.mp hs
    obtain ⟨a, ha, hs⟩ := Option.bind_eq_some_iff.mp hs
    cases hs
    obtain ⟨hinv, hcount⟩ := h.free hx ha
    refine ⟨hinv, fun c => ?_⟩
    have hset := liveCount_set a none c hx
    have hc := hcount c
    rw [h.counts c] at hc
    by_cases hdata : lhs.data = some c <;> simp [pointsTo, hdata] at hset hc ⊢ <;> omega

/-- As long as Blobs are copied and assigned with care, the counts are right in every state. -/
theorem shared_exactly (h : Reachable (restrict Careful step) init s) : Exact s := by
  have hcounted : Counted s := by
    refine h.invariant counted_init ?_
    intro x op y hx hs
    obtain ⟨hop, hs⟩ := restrict_eq_some.mp hs
    exact hx.step hop hs
  exact hcounted.exact

/-- A Blob is copied, the copy destroyed, an empty Blob assigned from the other one. -/
theorem shared_exactly_copies : ∃ s, exec (restrict Careful step) init
    [.sized 8, .copy 0, .destroy 1, .default, .assign 2 0, .external 0, .assign 3 3, .destroy 0] = some s ∧
    Exact s := by
  have hrun : (exec (restrict Careful step) init
      [.sized 8, .copy 0, .destroy 1, .default, .assign 2 0, .external 0, .assign 3 3, .destroy 0]).isSome := by
    decide
  obtain ⟨s, hs⟩ := Option.isSome_iff_exists.mp hrun
  exact ⟨s, hs, shared_exactly ⟨_, hs⟩⟩

/-- Assigning over a Blob loses its block; a copy of an empty external Blob is left with a block that
is handed out again. -/
theorem not_shared_exactly : (∃ s, Reachable step init s ∧ ¬ Exact s ∧ s.blobs = [none, none] ∧
      s.allocator.refCount 0 = 1) ∧
    ∃ s, Reachable step init s ∧ ¬ Exact s ∧ s.allocator.refCount 0 = 0 ∧ s.live 1 = some ⟨some 0, 0⟩ := by
  constructor
  · have hrun : (exec step init [.sized 8, .default, .assign 0 1, .destroy 0, .destroy 1]).map
        (fun s => (s.blobs, s.allocator.refCount 0, s.allocator.blocks.length)) = some ([none, none], 1, 1) := by
      decide
    obtain ⟨s, hs, heq⟩ := Option.map_eq_some_iff.mp hrun
    obtain ⟨hblobs, href, hlen⟩ : s.blobs = [none, none] ∧ s.allocator.refCount 0 = 1 ∧
        s.allocator.blocks.length = 1 := by simpa using heq
    refine ⟨s, ⟨_, hs⟩, fun hexact => ?_, hblobs, href⟩
    have hcount := hexact.counts 0 (by omega)
    rw [href, liveCount, hblobs] at hcount
    cases hcount
  · have hrun : (exec step init [.external 0, .copy 0, .destroy 0]).map
        (fun s => (s.blobs, s.allocator.refCount 0, s.allocator.blocks.length)) =
          some ([none, some ⟨some 0, 0⟩], 0, 1) := by
      decide
    obtain ⟨s, hs, heq⟩ := Option.map_eq_some_iff.mp hrun
    obtain ⟨hblobs, href, hlen⟩ : s.blobs = [none, some ⟨some 0, 0⟩] ∧ s.allocator.refCount 0 = 0 ∧
        s.allocator.blocks.length = 1 := by simpa using heq
    refine ⟨s, ⟨_, hs⟩, fun hexact => ?_, href, by rw [State.live, hblobs]; rfl⟩
    have hcount := hexact.counts 0 (by omega)
    rw [href, liveCount, hblobs] at hcount
    cases hcount

end Hpps.Blobs

import Hpps.Lib.Bits
import Hpps.Lib.LinkedList
import Hpps.Lib.TransitionSystem

/-! `SmartAllocator`: counted blocks of memory, pooled by their size. -/
namespace Hpps.Allocator
open LinkedList TransitionSystem

/-- The header holds the FreeList, named by its key in `pools_`; `capacity` bytes come after it. -/
structure MemoryBlock where
  list : ℕ
  capacity : ℕ
  next : Option ℕ
  ref : ℤ
  deriving DecidableEq, Repr

structure FreeList where
  free : Option ℕ
  size : ℕ
  deriving DecidableEq, Repr

/-- Blocks are named in the order in which they are made. -/
structure SmartAllocator where
  blocks : List MemoryBlock
  pools : ℕ → Option FreeList

def init : SmartAllocator := ⟨[], fun _ => none⟩

/-- Counting in an `atomic<int>` wraps. -/
def wrap (n : ℤ) : ℤ := Int.bmod n (2 ^ 32)

/-- `size + 1` is computed in 64 bits. -/
def roundUp (size : ℕ) : ℕ :=
  if size ≤ 32 then 32
  else
    let size := size - 1
    let size := size ||| size >>> 32
    let size := size ||| size >>> 16
    let size := size ||| size >>> 8
    let size := size ||| size >>> 4
    let size := size ||| size >>> 2
    let size := size ||| size >>> 1
    (size + 1) % 2 ^ 64

namespace SmartAllocator

/-- `new MemoryBlock`: a malloc that fails ends the process. -/
def newMemoryBlock (a : SmartAllocator) (size list : ℕ) : SmartAllocator :=
  { a with blocks := a.blocks ++ [{ list := list, capacity := size, next := none, ref := 0 }] }

def newFreeList (a : SmartAllocator) (size : ℕ) : SmartAllocator :=
  { newMemoryBlock a size size with
    pools := Function.update a.pools size (some { free := some a.blocks.length, size := size }) }

/-- `none` where a pointer leads to no block. -/
def push (a : SmartAllocator) (key b : ℕ) : Option SmartAllocator := do
  let list ← a.pools key
  let block ← a.blocks[b]?
  pure {
    blocks := a.blocks.set b { block with next := list.free }
    pools := Function.update a.pools key (some { list with free := some b }) }

/-- The `next` of the block that is popped stays as it is. -/
def pop (a : SmartAllocator) (key : ℕ) : Option (ℕ × SmartAllocator) := do
  let list ← a.pools key
  let b := list.free.getD a.blocks.length
  let a := if list.free.isNone then newMemoryBlock a list.size key else a
  let block ← a.blocks[b]?
  pure (b, {
    blocks := a.blocks.set b { block with ref := wrap (block.ref + 1) }
    pools := Function.update a.pools key (some { list with free := block.next }) })

def link (a : SmartAllocator) (b : ℕ) : Option SmartAllocator := do
  let block ← a.blocks[b]?
  pure { a with blocks := a.blocks.set b { block with ref := wrap (block.ref + 1) } }

def unlink (a : SmartAllocator) (b : ℕ) : Option SmartAllocator := do
  let block ← a.blocks[b]?
  let ref := wrap (block.ref - 1)
  let a := { a with blocks := a.blocks.set b { block with ref := ref } }
  if ref = 0 then a.push block.list b else pure a

def Alloc (a : SmartAllocator) (size : ℕ) : Option (ℕ × SmartAllocator) :=
  let size := roundUp size
  let a := if (a.pools size).isNone then a.newFreeList size else a
  a.pop size

def Refer (a : SmartAllocator) (b : ℕ) : Option SmartAllocator := a.link b

def Free (a : SmartAllocator) (b : ℕ) : Option SmartAllocator := a.unlink b

/-- The `next` pointers, and the head of each free list. -/
def next (a : SmartAllocator) (b : ℕ) : Option ℕ := (a.blocks[b]?).bind MemoryBlock.next

def head (a : SmartAllocator) (size : ℕ) : Option ℕ := (a.pools size).bind FreeList.free

/-- The free list of a size consists of the blocks `l`. -/
def FreeBlocks (a : SmartAllocator) (size : ℕ) (l : List ℕ) : Prop := Linked a.next (a.head size) l

/-- A block is available when it is on the free list its header names. -/
def Available (a : SmartAllocator) (b : ℕ) : Prop :=
  ∃ block l, a.blocks[b]? = some block ∧ a.FreeBlocks block.list l ∧ b ∈ l

end SmartAllocator

open SmartAllocator

inductive Call
  | Alloc (size : ℕ)
  | Refer (b : ℕ)
  | Free (b : ℕ)
  deriving DecidableEq, Repr

def step (a : SmartAllocator) : Call → Option SmartAllocator
  | .Alloc size => (a.Alloc size).map Prod.snd
  | .Refer b => a.Refer b
  | .Free b => a.Free b

/-- The count of a block; 0 where there is no block. -/
def SmartAllocator.refCount (a : SmartAllocator) (b : ℕ) : ℤ := (a.blocks[b]?).elim 0 MemoryBlock.ref

/-- Only blocks in use are referred to or freed, and no size is above `2 ^ 63`. -/
def Allowed (a : SmartAllocator) : Call → Prop
  | .Alloc size => size ≤ 2 ^ 63
  | .Refer b | .Free b => 0 < a.refCount b

instance (a : SmartAllocator) : ∀ c, Decidable (Allowed a c)
  | .Alloc size => inferInstanceAs (Decidable (size ≤ 2 ^ 63))
  | .Refer b | .Free b => inferInstanceAs (Decidable (0 < a.refCount b))

/-! ### Rounding -/

variable {size : ℕ}

theorem roundUp_of_le (h : size ≤ 32) : roundUp size = 32 := if_pos h

theorem roundUp_eq (h : 32 < size) (hmax : size ≤ 2 ^ 64) :
    roundUp size = 2 ^ ((size - 1).log2 + 1) % 2 ^ 64 := by
  have hsmear := Bits.smeared_self (m := size - 1) (w := 2 * 32)
  have hfull := hsmear.half |>.half (w := 16) |>.half (w := 8) |>.half (w := 4) |>.half (w := 2) |>.half (w := 1)
  have heq := hfull.eq (by omega) (by omega)
  rw [roundUp, if_neg (by omega)]
  dsimp only
  rw [heq, Nat.sub_add_cancel Nat.one_le_two_pow]

/-- The bit trick finds the least power of two with room for the size and for 32 bytes. -/
theorem isLeast_roundUp (h : size ≤ 2 ^ 63) :
    IsLeast {c | (∃ k, c = 2 ^ k) ∧ max size 32 ≤ c} (roundUp size) := by
  by_cases h32 : size ≤ 32
  · rw [roundUp_of_le h32, max_eq_right h32]
    exact ⟨⟨⟨5, rfl⟩, le_rfl⟩, fun _ hc => hc.2⟩
  · have hleast := Bits.isLeast_two_pow (m := size - 1) (by omega)
    have hle : 2 ^ ((size - 1).log2 + 1) ≤ 2 ^ 63 := hleast.2 ⟨⟨63, rfl⟩, by omega⟩
    rw [roundUp_eq (by omega) (by omega), Nat.mod_eq_of_lt (by omega), max_eq_left (by omega)]
    rwa [show size - 1 + 1 = size by omega] at hleast

/-! ### Free lists -/

variable {a a' : SmartAllocator} {chain : ℕ → List ℕ} {b c key : ℕ} {block : MemoryBlock} {list : FreeList}
  {l : List ℕ} {n r : ℤ}

theorem wrap_spec : -2 ^ 31 ≤ wrap n ∧ wrap n < 2 ^ 31 ∧ (wrap n - n) % 2 ^ 32 = 0 := by
  unfold wrap
  rw [Int.bmod_def]
  split <;> omega

/-- `chain` lists each pool's free blocks; all other blocks have a count other than 0. -/
structure Inv (a : SmartAllocator) (chain : ℕ → List ℕ) : Prop where
  linked : ∀ size, a.FreeBlocks size (chain size)
  own : ∀ size, ∀ b ∈ chain size, ∃ block, a.blocks[b]? = some block ∧ block.list = size ∧ block.ref = 0
  listed : ∀ (b : ℕ) (x : MemoryBlock), a.blocks[b]? = some x → x.ref = 0 → b ∈ chain x.list
  made : ∀ (b : ℕ) (x : MemoryBlock), a.blocks[b]? = some x →
    a.pools x.list ≠ none ∧ x.capacity = x.list ∧ -2 ^ 31 ≤ x.ref ∧ x.ref < 2 ^ 31
  size : ∀ size list, a.pools size = some list → list.size = size

theorem inv_init : Inv init fun _ => [] where
  linked _ := rfl
  own _ _ h := nomatch h
  listed _ _ h := nomatch h
  made _ _ h := nomatch h
  size _ _ h := nomatch h

theorem lt_of_getElem? (h : a.blocks[b]? = some block) : b < a.blocks.length :=
  (List.getElem?_eq_some_iff.mp h).1

/-- A block on no free list is on none of another size. -/
theorem Inv.not_mem (h : Inv a chain) (hb : a.blocks[b]? = some block) (href : block.ref ≠ 0) (size : ℕ) :
    b ∉ chain size := by
  intro hmem
  obtain ⟨block', hb', -, href'⟩ := h.own size b hmem
  rw [hb] at hb'
  cases hb'
  exact href href'

theorem Inv.eq_of_mem (h : Inv a chain) (hb : a.blocks[b]? = some block) (hmem : b ∈ chain key) :
    block.list = key ∧ block.ref = 0 := by
  obtain ⟨block', hb', hkey, href⟩ := h.own key b hmem
  rw [hb] at hb'
  cases hb'
  exact ⟨hkey, href⟩

/-- The blocks after one of them was replaced. -/
theorem getElem?_set_cases {block' x : MemoryBlock} (h : (a.blocks.set b block')[c]? = some x) :
    c = b ∧ x = block' ∨ c ≠ b ∧ a.blocks[c]? = some x := by
  by_cases hc : b = c
  · subst hc
    rw [List.getElem?_set_self (by simpa using lt_of_getElem? (a := { a with blocks := a.blocks.set b block' }) h)] at h
    exact .inl ⟨rfl, (Option.some.inj h).symm⟩
  · rw [List.getElem?_set_ne hc] at h
    exact .inr ⟨Ne.symm hc, h⟩

/-- A chain without the block that is replaced. -/
theorem linked_set {head : Option ℕ} {x : MemoryBlock} (h : Linked a.next head l) (hno : b ∉ l) :
    Linked ({ a with blocks := a.blocks.set b x } : SmartAllocator).next head l := by
  refine h.congr fun c hc => ?_
  have hne : b ≠ c := by
    rintro rfl
    exact hno hc
  rw [next, List.getElem?_set_ne hne]
  rfl

theorem update_ne_none {pools : ℕ → Option FreeList} {size : ℕ} (h : pools size ≠ none) :
    Function.update pools key (some list) size ≠ none := by
  rw [Function.update_apply]
  split
  · simp
  · exact h

/-- The chains when one block and the pool it is named in are replaced. -/
theorem Inv.replace {d : MemoryBlock} {f : FreeList} (h : Inv a chain) (hb : a.blocks[b]? = some block)
    (hlist : a.pools block.list = some list) (hkey : d.list = block.list)
    (hcap : d.capacity = block.capacity) (hr : -2 ^ 31 ≤ d.ref ∧ d.ref < 2 ^ 31)
    (hsize : f.size = list.size) (hothers : ∀ c, c ≠ b → (c ∈ l ↔ c ∈ chain block.list))
    (hmem : b ∈ l ↔ d.ref = 0)
    (hl : Linked ({ a with blocks := a.blocks.set b d } : SmartAllocator).next f.free l) :
    Inv ⟨a.blocks.set b d, Function.update a.pools block.list (some f)⟩
      (Function.update chain block.list l) := by
  have hlt : b < a.blocks.length := lt_of_getElem? hb
  refine ⟨fun size => ?_, fun size c hc => ?_, fun c x hc hx => ?_, fun c x hc => ?_, fun size x hx => ?_⟩
  · by_cases hs : size = block.list
    · subst hs
      simp only [FreeBlocks, head, Function.update_self]
      exact hl
    · simp only [FreeBlocks, head, Function.update_of_ne hs]
      exact linked_set (h.linked size) fun hc => hs (h.eq_of_mem hb hc).1.symm
  · by_cases hcb : c = b
    · subst hcb
      have hs : size = block.list := by
        by_contra hs
        rw [Function.update_of_ne hs] at hc
        exact hs (h.eq_of_mem hb hc).1.symm
      subst hs
      rw [Function.update_self] at hc
      exact ⟨d, List.getElem?_set_self hlt, hkey, hmem.mp hc⟩
    · rw [List.getElem?_set_ne (Ne.symm hcb)]
      by_cases hs : size = block.list
      · subst hs
        rw [Function.update_self, hothers c hcb] at hc
        exact h.own _ c hc
      · rw [Function.update_of_ne hs] at hc
        exact h.own size c hc
  · rcases getElem?_set_cases hc with ⟨rfl, rfl⟩ | ⟨hcb, hc⟩
    · rw [hkey, Function.update_self]
      exact hmem.mpr hx
    · by_cases hs : x.list = block.list
      · rw [hs, Function.update_self, hothers c hcb, ← hs]
        exact h.listed c x hc hx
      · rw [Function.update_of_ne hs]
        exact h.listed c x hc hx
  · rcases getElem?_set_cases hc with ⟨-, rfl⟩ | ⟨-, hc⟩
    · rw [hkey, hcap]
      exact ⟨update_ne_none (h.made b block hb).1, (h.made b block hb).2.1, hr⟩
    · exact ⟨update_ne_none (h.made c x hc).1, (h.made c x hc).2⟩
  · dsimp only at hx
    rw [Function.update_apply] at hx
    split at hx
    · rename_i hs
      cases hx
      rw [hsize, h.size _ _ hlist, hs]
    · exact h.size size x hx

/-- The count of a block in use changes, and it stays in use. -/
theorem Inv.count (h : Inv a chain) (hb : a.blocks[b]? = some block) (href : block.ref ≠ 0) (hr : r ≠ 0)
    (hrange : -2 ^ 31 ≤ r ∧ r < 2 ^ 31) : Inv { a with blocks := a.blocks.set b { block with ref := r } } chain := by
  obtain ⟨list, hlist⟩ := Option.ne_none_iff_exists'.mp (h.made b block hb).1
  have hno : b ∉ chain block.list := h.not_mem hb href _
  have hhead : a.head block.list = list.free := by rw [head, hlist]; rfl
  have hnew := h.replace (d := { block with ref := r }) (f := list) hb hlist rfl rfl hrange rfl
    (fun c _ => Iff.rfl) (iff_of_false hno hr) ?_
  · rwa [← hlist, Function.update_eq_self, Function.update_eq_self] at hnew
  · rw [← hhead]
    exact linked_set (h.linked block.list) hno

/-- The last reference to a block goes, and the block goes back to its free list. -/
theorem Inv.release (h : Inv a chain) (hb : a.blocks[b]? = some block) (href : block.ref ≠ 0)
    (hlist : a.pools block.list = some list) :
    Inv ⟨a.blocks.set b { block with ref := 0, next := list.free },
      Function.update a.pools block.list (some { list with free := some b })⟩
      (Function.update chain block.list (b :: chain block.list)) := by
  have hno : b ∉ chain block.list := h.not_mem hb href _
  have hhead : a.head block.list = list.free := by rw [head, hlist]; rfl
  refine h.replace hb hlist rfl rfl ⟨by norm_num, by norm_num⟩ rfl (fun c hc => by simp [hc]) (by simp) ⟨rfl, ?_⟩
  have hnext : ({ a with blocks := a.blocks.set b { block with ref := 0, next := list.free } } :
      SmartAllocator).next b = list.free := by
    rw [next, List.getElem?_set_self (lt_of_getElem? hb)]
    rfl
  rw [hnext, ← hhead]
  exact linked_set (h.linked block.list) hno

/-- The first free block of a pool is taken into use. -/
theorem Inv.take (h : Inv a chain) (hlist : a.pools key = some list) (hfree : list.free = some b) :
    ∃ block, a.blocks[b]? = some block ∧ block.list = key ∧ block.ref = 0 ∧
      ∃ chain', Inv ⟨a.blocks.set b { block with ref := 1 },
        Function.update a.pools key (some { list with free := block.next })⟩ chain' := by
  have hlinked := h.linked key
  have hhead : a.head key = some b := by
    rw [head, hlist]
    exact hfree
  rw [FreeBlocks, hhead] at hlinked
  cases hc : chain key with
  | nil =>
    rw [hc] at hlinked
    cases hlinked
  | cons b' l =>
    rw [hc] at hlinked
    cases hlinked.1
    obtain ⟨block, hb, rfl, href⟩ := h.own key b (by simp [hc])
    have hnodup : b ∉ l := (List.nodup_cons.mp hlinked.nodup).1
    have hnext : a.next b = block.next := by rw [next, hb]; rfl
    refine ⟨block, hb, rfl, href, _, h.replace (l := l) hb hlist rfl rfl ⟨by norm_num, by norm_num⟩ rfl
      (fun c hne => by simp [hc, hne]) (iff_of_false hnodup one_ne_zero) ?_⟩
    rw [← hnext]
    exact linked_set hlinked.2 hnodup

/-- A pool without free blocks gets a new one. -/
theorem Inv.grow (h : Inv a chain) (hfree : a.head key = none) :
    ∃ chain', Inv (a.newFreeList key) chain' := by
  unfold newFreeList
  have hempty : chain key = [] := by
    have hlinked := h.linked key
    rw [FreeBlocks, hfree] at hlinked
    exact hlinked.unique (show Linked a.next none [] from rfl)
  have hnew : ∀ c (x : MemoryBlock), (newMemoryBlock a key key).blocks[c]? = some x →
      c < a.blocks.length ∧ a.blocks[c]? = some x ∨ c = a.blocks.length ∧ x = ⟨key, key, none, 0⟩ := by
    intro c x hx
    rcases lt_trichotomy c a.blocks.length with hlt | rfl | hlt
    · rw [newMemoryBlock, List.getElem?_append_left hlt] at hx
      exact .inl ⟨hlt, hx⟩
    · simp [newMemoryBlock] at hx
      exact .inr ⟨rfl, hx.symm⟩
    · have hc := lt_of_getElem? hx
      simp [newMemoryBlock] at hc
      omega
  have hold : ∀ c, c < a.blocks.length → (newMemoryBlock a key key).blocks[c]? = a.blocks[c]? :=
    fun c hc => List.getElem?_append_left hc
  refine ⟨Function.update chain key [a.blocks.length], fun size => ?_, fun size c hc => ?_, fun c x hx href => ?_,
    fun c x hx => ?_, fun size list hl => ?_⟩
  · by_cases hs : size = key
    · subst hs
      simp only [FreeBlocks, head, Function.update_self]
      exact .single (by simp [next, newMemoryBlock])
    · simp only [FreeBlocks, head, Function.update_of_ne hs]
      refine (h.linked size).congr fun c hc => ?_
      obtain ⟨x, hx, -⟩ := h.own size c hc
      rw [next, next, hold c (lt_of_getElem? hx)]
  · by_cases hs : size = key
    · subst hs
      rw [Function.update_self, List.mem_singleton] at hc
      subst hc
      exact ⟨⟨size, size, none, 0⟩, by simp [newMemoryBlock], rfl, rfl⟩
    · rw [Function.update_of_ne hs] at hc
      obtain ⟨x, hx, hrest⟩ := h.own size c hc
      exact ⟨x, (hold c (lt_of_getElem? hx)).trans hx, hrest⟩
  · rcases hnew c x hx with ⟨-, hx⟩ | ⟨rfl, rfl⟩
    · have hmem := h.listed c x hx href
      have hs : x.list ≠ key := by
        intro hs
        rw [hs, hempty] at hmem
        cases hmem
      rwa [Function.update_of_ne hs]
    · rw [Function.update_self]
      exact List.mem_singleton_self _
  · rcases hnew c x hx with ⟨-, hx⟩ | ⟨rfl, rfl⟩
    · exact ⟨update_ne_none (h.made c x hx).1, (h.made c x hx).2⟩
    · simp
  · dsimp only at hl
    rw [Function.update_apply] at hl
    split at hl
    · rename_i hs
      cases hl
      exact hs.symm
    · exact h.size size list hl

/-! ### The calls -/

/-- The block that was handed out, and what else changed. -/
structure Allocated (a : SmartAllocator) (size b : ℕ) (a' : SmartAllocator) : Prop where
  unused : a.refCount b = 0
  used : ∃ block, a'.blocks[b]? = some block ∧ block.list = roundUp size ∧ block.ref = 1
  others : ∀ c, c ≠ b → a'.blocks[c]? = a.blocks[c]?

theorem pop_of_free (hlist : a.pools key = some list) (hfree : list.free = some b) (hb : a.blocks[b]? = some block)
    (href : block.ref = 0) :
    a.pop key = some (b, ⟨a.blocks.set b { block with ref := 1 },
      Function.update a.pools key (some { list with free := block.next })⟩) := by
  have hwrap : wrap (block.ref + 1) = 1 := by
    rw [href]
    rfl
  simp [SmartAllocator.pop, hlist, hfree, hb, hwrap]

/-- Popping from an empty list is as popping from a new one. -/
theorem pop_of_empty (hlist : a.pools key = some list) (hfree : list.free = none) (hsize : list.size = key) :
    a.pop key = (a.newFreeList key).pop key := by
  obtain ⟨free, size⟩ := list
  cases hfree
  cases hsize
  simp [SmartAllocator.pop, hlist, newFreeList, newMemoryBlock]

theorem Inv.alloc_of_head (h : Inv a chain) {size : ℕ} (hhead : a.head (roundUp size) = some b) :
    ∃ a' chain', a.pop (roundUp size) = some (b, a') ∧ Inv a' chain' ∧ Allocated a size b a' := by
  obtain ⟨list, hlist, hfree⟩ := Option.bind_eq_some_iff.mp hhead
  obtain ⟨block, hb, hkey, href, chain', hchain⟩ := h.take hlist hfree
  refine ⟨_, chain', pop_of_free hlist hfree hb href, hchain, ?_, ?_, ?_⟩
  · rw [refCount, hb]
    exact href
  · exact ⟨_, List.getElem?_set_self (lt_of_getElem? hb), hkey, rfl⟩
  · intro c hc
    exact List.getElem?_set_ne (Ne.symm hc)

/-- `Alloc` hands out a block that was not in use. -/
theorem Inv.alloc (h : Inv a chain) (size : ℕ) :
    ∃ b a' chain', a.Alloc size = some (b, a') ∧ Inv a' chain' ∧ Allocated a size b a' := by
  cases hhead : a.head (roundUp size) with
  | some b =>
    obtain ⟨a', chain', ha', hrest⟩ := h.alloc_of_head hhead
    obtain ⟨list, hlist, -⟩ := Option.bind_eq_some_iff.mp hhead
    refine ⟨b, a', chain', ?_, hrest⟩
    rw [Alloc]
    simpa [hlist] using ha'
  | none =>
    obtain ⟨chain₁, h₁⟩ := h.grow hhead
    have hpop : a.Alloc size = (a.newFreeList (roundUp size)).pop (roundUp size) := by
      rw [Alloc]
      cases hlist : a.pools (roundUp size) with
      | none => simp
      | some list =>
        have hfree : list.free = none := by simpa [head, hlist] using hhead
        simpa [hlist] using pop_of_empty hlist hfree (h.size _ list hlist)
    have hhead₁ : (a.newFreeList (roundUp size)).head (roundUp size) = some a.blocks.length := by
      simp [newFreeList, head]
    obtain ⟨a', chain', ha', hchain', hall⟩ := h₁.alloc_of_head hhead₁
    refine ⟨_, a', chain', hpop.trans ha', hchain', ?_, hall.used, fun c hc => ?_⟩
    · simp [refCount]
    · rw [hall.others c hc]
      simp only [newFreeList, newMemoryBlock]
      rcases lt_or_gt_of_ne hc with hlt | hlt
      · exact List.getElem?_append_left hlt
      · rw [List.getElem?_eq_none (by simpa using hlt), List.getElem?_eq_none hlt.le]

/-- Counting up keeps a block in use. -/
theorem Inv.refer (h : Inv a chain) (hpos : 0 < a.refCount b) : ∃ block, a.blocks[b]? = some block ∧
    a.Refer b = some { a with blocks := a.blocks.set b { block with ref := wrap (block.ref + 1) } } ∧
    Inv { a with blocks := a.blocks.set b { block with ref := wrap (block.ref + 1) } } chain := by
  cases hb : a.blocks[b]? with
  | none => simp [refCount, hb] at hpos
  | some block =>
    have hpos : 0 < block.ref := by simpa [refCount, hb] using hpos
    obtain ⟨-, -, -, hlt⟩ := h.made b block hb
    obtain ⟨hlo, hhi, hmod⟩ := wrap_spec (n := block.ref + 1)
    refine ⟨block, rfl, by simp [Refer, link, hb], h.count hb (by omega) (by omega) ⟨hlo, hhi⟩⟩

/-- Counting down to 0 makes a block available. -/
theorem Inv.free (h : Inv a chain) (hpos : 0 < a.refCount b) : ∃ block a' chain', a.blocks[b]? = some block ∧
    a.Free b = some a' ∧ Inv a' chain' ∧
    (∃ block', a'.blocks[b]? = some block' ∧ block'.list = block.list ∧ block'.ref = block.ref - 1) ∧
    ∀ c, c ≠ b → a'.blocks[c]? = a.blocks[c]? := by
  cases hb : a.blocks[b]? with
  | none => simp [refCount, hb] at hpos
  | some block =>
    have hpos : 0 < block.ref := by simpa [refCount, hb] using hpos
    obtain ⟨hpool, -, -, hlt⟩ := h.made b block hb
    obtain ⟨list, hlist⟩ := Option.ne_none_iff_exists'.mp hpool
    have hwrap : wrap (block.ref - 1) = block.ref - 1 := by
      obtain ⟨hlo, hhi, hmod⟩ := wrap_spec (n := block.ref - 1)
      omega
    have hself : ∀ x : MemoryBlock, (a.blocks.set b x)[b]? = some x := fun x =>
      List.getElem?_set_self (lt_of_getElem? hb)
    have hothers : ∀ (x : MemoryBlock) c, c ≠ b → (a.blocks.set b x)[c]? = a.blocks[c]? := fun x c hc =>
      List.getElem?_set_ne (Ne.symm hc)
    have heq : a.Free b = if wrap (block.ref - 1) = 0 then
          ({ a with blocks := a.blocks.set b { block with ref := wrap (block.ref - 1) } } : SmartAllocator).push block.list b
        else some { a with blocks := a.blocks.set b { block with ref := wrap (block.ref - 1) } } := by
      rw [Free, unlink, hb]
      rfl
    rw [hwrap] at heq
    by_cases h1 : block.ref = 1
    · refine ⟨block, _, _, rfl, ?_, h.release hb (by omega) hlist, ⟨_, hself _, rfl, by simp [h1]⟩, hothers _⟩
      rw [heq, h1, if_pos (by rfl), push]
      simp only [hlist, hself, Option.pure_def, Option.bind_eq_bind, Option.bind_some, List.set_set]
      rfl
    · refine ⟨block, _, _, rfl, ?_, h.count hb (by omega) (r := block.ref - 1) (by omega) (by omega),
        ⟨_, hself _, rfl, rfl⟩, hothers _⟩
      exact heq.trans (if_neg (by omega))

theorem Inv.available_iff (h : Inv a chain) (hb : a.blocks[b]? = some block) : a.Available b ↔ block.ref = 0 := by
  constructor
  · rintro ⟨block', l, hb', hl, hmem⟩
    rw [hb] at hb'
    cases hb'
    rw [hl.unique (h.linked block.list)] at hmem
    exact (h.eq_of_mem hb hmem).2
  · intro href
    exact ⟨block, _, hb, h.linked block.list, h.listed b block hb href⟩

/-- No block is lost. -/
theorem Inv.step {call : Call} (h : Inv a chain) (hc : Allowed a call) (hs : step a call = some a') :
    (∃ chain', Inv a' chain') ∧ ∀ c : ℕ, a.blocks[c]? ≠ none → a'.blocks[c]? ≠ none := by
  cases call with
  | Alloc size =>
    obtain ⟨b, a₁, chain', ha₁, hchain', hall⟩ := h.alloc size
    rw [Allocator.step, ha₁] at hs
    cases hs
    refine ⟨⟨chain', hchain'⟩, fun c hne => ?_⟩
    by_cases hcb : c = b
    · obtain ⟨block, hblock, -⟩ := hall.used
      rw [hcb, hblock]
      simp
    · rwa [hall.others c hcb]
  | Refer b =>
    obtain ⟨block, hb, ha₁, hinv⟩ := h.refer hc
    rw [Allocator.step, ha₁] at hs
    cases hs
    exact ⟨⟨chain, hinv⟩, fun c hne => by simpa using hne⟩
  | Free b =>
    obtain ⟨block, a₁, chain', hb, ha₁, hinv, ⟨block', hb', -⟩, hothers⟩ := h.free hc
    rw [Allocator.step, ha₁] at hs
    cases hs
    refine ⟨⟨chain', hinv⟩, fun c hne => ?_⟩
    by_cases hcb : c = b
    · rw [hcb, hb']
      simp
    · rwa [hothers c hcb]

theorem reachable_inv (h : Reachable (restrict Allowed step) init a) : ∃ chain, Inv a chain := by
  refine h.invariant (P := fun a => ∃ chain, Inv a chain) ⟨_, inv_init⟩ ?_
  rintro x call y ⟨chain, hx⟩ hs
  obtain ⟨hc, hs⟩ := restrict_eq_some.mp hs
  exact (hx.step hc hs).1

/-- What the next call finds, whichever it is. -/
structure Sound (a : SmartAllocator) : Prop where
  fresh : ∀ size, size ≤ 2 ^ 63 → ∃ b a' block, a.Alloc size = some (b, a') ∧ a'.blocks[b]? = some block ∧
    size ≤ block.capacity ∧ IsLeast {c | (∃ k, c = 2 ^ k) ∧ max size 32 ≤ c} block.capacity ∧
    ∀ c, 0 < a.refCount c → b ≠ c
  pools : ∀ size list, a.pools size = some list → ∃ l, a.FreeBlocks size l ∧ l.Nodup ∧
    ∀ b ∈ l, ∃ block, a.blocks[b]? = some block ∧ block.capacity = size ∧ block.ref = 0
  available : ∀ (b : ℕ) (block : MemoryBlock), a.blocks[b]? = some block → (a.Available b ↔ block.ref = 0)
  drops : ∀ call a', Allowed a call → step a call = some a' → ∀ b, a.refCount b ≠ 0 →
    (a'.Available b ↔ a'.refCount b = 0)

/-- In every run that uses only blocks in use, no block in use is handed out. -/
theorem alloc_not_in_use (h : Reachable (restrict Allowed step) init a) : Sound a := by
  obtain ⟨chain, hinv⟩ := reachable_inv h
  refine ⟨fun size hsize => ?_, fun size list hlist => ?_, fun b block hb => hinv.available_iff hb,
    fun call a' hc hs b href => ?_⟩
  · obtain ⟨b, a', chain', ha', hinv', hall⟩ := hinv.alloc size
    obtain ⟨block, hblock, hkey, -⟩ := hall.used
    have hleast := isLeast_roundUp hsize
    rw [← hkey, ← (hinv'.made b block hblock).2.1] at hleast
    refine ⟨b, a', block, ha', hblock, (le_max_left _ _).trans hleast.1.2, hleast, ?_⟩
    rintro c hc rfl
    rw [hall.unused] at hc
    exact hc.false
  · refine ⟨chain size, hinv.linked size, (hinv.linked size).nodup, fun b hb => ?_⟩
    obtain ⟨block, hblock, hkey, href⟩ := hinv.own size b hb
    exact ⟨block, hblock, (hinv.made b block hblock).2.1.trans hkey, href⟩
  · obtain ⟨⟨chain', hinv'⟩, hkeep⟩ := hinv.step hc hs
    have hne : a.blocks[b]? ≠ none := fun hnone => href (by rw [refCount, hnone]; rfl)
    obtain ⟨block, hblock⟩ := Option.ne_none_iff_exists'.mp (hkeep b hne)
    rw [hinv'.available_iff hblock, refCount, hblock]
    rfl

/-- A block that was shared is handed out again after both its users freed it. -/
theorem alloc_not_in_use_reuse : ∃ a, exec (restrict Allowed step) init
    [.Alloc 10, .Refer 0, .Free 0, .Alloc 33, .Free 0, .Alloc 10] = some a ∧ Sound a := by
  have hrun : (exec (restrict Allowed step) init
    [.Alloc 10, .Refer 0, .Free 0, .Alloc 33, .Free 0, .Alloc 10]).isSome := by decide
  obtain ⟨a, ha⟩ := Option.isSome_iff_exists.mp hrun
  exact ⟨a, ha, alloc_not_in_use ⟨_, ha⟩⟩

end Hpps.Allocator

import Hpps.Lib.OpenAddressing
import Hpps.Lib.TransitionSystem

/-! `KVStore`: an open-addressing hash table whose buckets point at rows of one value array. -/
namespace Hpps.Kv

open OpenAddressing

/-- A bucket. `immutable` is bit 62 of the source's offset word; offsets stay below it, since
`data_` cannot hold `2 ^ 62` values. A negative offset marks a free bucket. -/
structure Node where
  key : ℕ
  offset : ℤ
  immutable : Bool
  deriving DecidableEq, Repr

/-- What `AlignMalloc` returns is not cleared. -/
structure Garbage (Val : Type) where
  key : ℕ → ℕ
  val : ℕ → Val

structure KVStore (Val : Type) where
  node : ℕ → Node
  nodeSize : ℕ
  nodeCapacity : ℕ
  data : ℕ → Val
  dataSize : ℕ
  dataCapacity : ℕ
  valueLen : ℕ

/-- The outputs of `Get`: the bucket, the row's offset and the two flags. -/
structure Entry where
  index : ℕ
  offset : ℕ
  immutable : Bool
  newData : Bool
  deriving DecidableEq, Repr

def kMaxProbeNum : ℕ := 32

namespace KVStore

variable {Val : Type} {s t : KVStore Val} {g : Garbage Val} {key k i j n : ℕ} {row : List Val}
  {immutable : Bool} {e : Entry} {r : Option Entry}

/-- The loop that doubles `node_capacity_`; `n` rounds are enough to reach `n`. -/
def grow (initCapacity : ℕ) : ℕ → ℕ → ℕ
  | 0, cap => cap
  | n + 1, cap => if cap < initCapacity then grow initCapacity n (cap * 2) else cap

/-- `index & (node_capacity_ - 1)`. -/
def mask (cap index : ℕ) : ℕ := index &&& (cap - 1)

/-- The loop of `Get`, with `probe_num` rounds left. -/
def probeFrom (s : KVStore Val) (key : ℕ) : ℕ → ℕ → Probe ℕ
  | 0, _ => .exhausted
  | n + 1, index =>
    if index < s.nodeCapacity then
      if (s.node index).offset < 0 then .free index
      else if (s.node index).key = key then .hit index
      else probeFrom s key n (mask s.nodeCapacity (index + 1))
    else .exhausted

def find (s : KVStore Val) (key : ℕ) : Probe ℕ :=
  s.probeFrom key kMaxProbeNum (mask s.nodeCapacity key)

/-- Add one new entry. -/
def insert (s : KVStore Val) (key index : ℕ) : KVStore Val :=
  { s with
    node := Function.update s.node index ⟨key, s.dataSize, false⟩
    dataSize := s.dataSize + s.valueLen
    nodeSize := s.nodeSize + 1 }

/-- `none` is the LOG_FATAL of a table that is too small, which ends the process. -/
def get (s : KVStore Val) (key : ℕ) (immutable : Bool) : Option (KVStore Val × Option Entry) :=
  match s.find key with
  | .free index =>
    if immutable then some (s, none) else some (s.insert key index, some ⟨index, s.dataSize, false, true⟩)
  | .hit index =>
    some (s, some ⟨index, (s.node index).offset.toNat, immutable || (s.node index).immutable, false⟩)
  | .exhausted => none

/-- The values at `offset`, as many as a row has. -/
def read (s : KVStore Val) (offset : ℕ) : List Val :=
  (List.range s.valueLen).map fun j => s.data (offset + j)

/-- `memcpy` of a row to `offset`. -/
def write (s : KVStore Val) (offset : ℕ) (row : List Val) : KVStore Val :=
  { s with data := fun i => (if offset ≤ i then row[i - offset]? else none).getD (s.data i) }

def setFlag (s : KVStore Val) (index : ℕ) (immutable : Bool) : KVStore Val :=
  { s with node := Function.update s.node index { s.node index with immutable := immutable } }

def set (s : KVStore Val) (key : ℕ) (val : List Val) (immutable : Bool) : Option (KVStore Val) := do
  let (s, e) ← s.get key false
  let e ← e
  return (s.write e.offset val).setFlag e.index immutable

def addBlackList [Zero Val] (s : KVStore Val) : Option (KVStore Val) :=
  s.set 0 (List.replicate s.valueLen 0) true

/-- The table before key 0 is black-listed. -/
def alloc (initCapacity valueLen : ℕ) (g : Garbage Val) : KVStore Val where
  node i := ⟨g.key i, -1, false⟩
  nodeSize := 0
  nodeCapacity := grow initCapacity initCapacity 1
  data := g.val
  dataSize := 0
  dataCapacity := grow initCapacity initCapacity 1 * valueLen
  valueLen := valueLen

def new [Zero Val] (initCapacity valueLen : ℕ) (g : Garbage Val) : Option (KVStore Val) :=
  (alloc initCapacity valueLen g).addBlackList

/-- `Get(key)`: an immutable lookup, with the row it points at and the flag of its bucket. -/
def lookup (s : KVStore Val) (key : ℕ) : Option (Option (List Val × Bool)) :=
  (s.get key true).map fun (s, e) => e.map fun e => (s.read e.offset, (s.node e.index).immutable)

/-- The calls a user of a store makes. `update` writes a row through the pointer `Get` returned. -/
inductive Call (Val : Type)
  | get (key : ℕ) (immutable : Bool)
  | set (key : ℕ) (val : List Val) (immutable : Bool)
  | update (key : ℕ) (row : List Val)

/-- A row passed in or written holds `value_len_` values. -/
def Call.fits (n : ℕ) : Call Val → Bool
  | .get _ _ => true
  | .set _ val _ => val.length = n
  | .update _ row => row.length = n

def call (s : KVStore Val) : Call Val → Option (KVStore Val)
  | .get key immutable => (s.get key immutable).map Prod.fst
  | .set key val immutable => s.set key val immutable
  | .update key row => (s.get key true).map fun (s, e) =>
    match e with
    | none => s
    | some e => s.write e.offset row

/-- `none` when the call does not fit or is fatal. -/
def step (s : KVStore Val) (c : Call Val) : Option (KVStore Val) :=
  if c.fits s.valueLen then s.call c else none

/-- The key in a bucket. -/
def slot (s : KVStore Val) (i : ℕ) : Option ℕ :=
  if i < s.nodeCapacity ∧ 0 ≤ (s.node i).offset then some (s.node i).key else none

/-- The buckets a probe visits in a table of `cap` buckets. -/
def walk (cap : ℕ) : ℕ → ℕ → List ℕ
  | 0, _ => []
  | n + 1, index => index :: walk cap n (mask cap (index + 1))

def path (cap key : ℕ) : List ℕ := walk cap kMaxProbeNum (mask cap key)

theorem mask_lt {cap : ℕ} (h : 0 < cap) : mask cap i < cap := by
  have : mask cap i ≤ cap - 1 := Nat.and_le_right
  omega

theorem probeFrom_eq_probe (hc : 0 < s.nodeCapacity) (hi : i < s.nodeCapacity) :
    s.probeFrom key n i = probe s.slot key (walk s.nodeCapacity n i) := by
  induction n generalizing i with
  | zero => rfl
  | succ n ih =>
    simp only [probeFrom, walk, probe, slot, hi, if_true, true_and]
    by_cases ho : (s.node i).offset < 0
    · simp [ho, not_le.mpr ho]
    · rw [if_neg ho, if_pos (not_lt.mp ho)]
      simp only [ih (mask_lt hc)]

theorem find_eq_probe (hc : 0 < s.nodeCapacity) :
    s.find key = probe s.slot key (path s.nodeCapacity key) :=
  probeFrom_eq_probe hc (mask_lt hc)

/-- Keys sit where a probe finds them, and their rows lie side by side in `data_`. -/
structure Sound (s : KVStore Val) : Prop where
  pow : ∃ m, s.nodeCapacity = 2 ^ m
  findable : Findable s.slot (path s.nodeCapacity)
  nodeSize : s.nodeSize = {i ∈ Finset.range s.nodeCapacity | 0 ≤ (s.node i).offset}.card
  dataSize : s.dataSize = s.nodeSize * s.valueLen
  dataCapacity : s.dataCapacity = s.nodeCapacity * s.valueLen
  inside : ∀ i k, s.slot i = some k → (s.node i).offset.toNat + s.valueLen ≤ s.dataSize
  disjoint : ∀ i j k k', s.slot i = some k → s.slot j = some k' → i ≠ j →
    (s.node i).offset.toNat + s.valueLen ≤ (s.node j).offset.toNat ∨
      (s.node j).offset.toNat + s.valueLen ≤ (s.node i).offset.toNat

theorem exists_grow_eq (initCapacity : ℕ) : ∀ n cap, (∃ m, cap = 2 ^ m) →
    ∃ m, grow initCapacity n cap = 2 ^ m := by
  intro n
  induction n with
  | zero => exact fun _ h => h
  | succ n ih =>
    rintro cap ⟨m, rfl⟩
    rw [grow]
    split
    · exact ih _ ⟨m + 1, (pow_succ ..).symm⟩
    · exact ⟨m, rfl⟩

theorem slot_alloc : (alloc n j g).slot i = none := by simp [slot, alloc]

theorem sound_alloc : Sound (alloc n j g) where
  pow := exists_grow_eq n n 1 ⟨0, rfl⟩
  findable i k h := by simp [slot_alloc] at h
  nodeSize := by simp [alloc]
  dataSize := by simp [alloc]
  dataCapacity := rfl
  inside i k h := by simp [slot_alloc] at h
  disjoint i j k k' h := by simp [slot_alloc] at h

/-- `Get` finds the key, or a free bucket for it. -/
theorem get_cases (h : s.get key immutable = some (t, r)) :
    (∃ i, s.find key = .hit i ∧ t = s ∧
      r = some ⟨i, (s.node i).offset.toNat, immutable || (s.node i).immutable, false⟩) ∨
    (∃ i, s.find key = .free i ∧ immutable = true ∧ t = s ∧ r = none) ∨
    (∃ i, s.find key = .free i ∧ immutable = false ∧ t = s.insert key i ∧
      r = some ⟨i, s.dataSize, false, true⟩) := by
  unfold get at h
  split at h
  · rename_i i hf
    split at h
    · rename_i hi
      cases h
      exact .inr (.inl ⟨i, hf, hi, rfl, rfl⟩)
    · rename_i hi
      cases h
      exact .inr (.inr ⟨i, hf, by simpa using hi, rfl, rfl⟩)
  · rename_i i hf
    cases h
    exact .inl ⟨i, hf, rfl, rfl⟩
  · cases h

/-- The row and the flag a key is mapped to. -/
def view (s : KVStore Val) (key : ℕ) : Option (List Val × Bool) :=
  match s.find key with
  | .hit i => some (s.read (s.node i).offset.toNat, (s.node i).immutable)
  | _ => none

theorem lookup_eq_some_iff {r : List Val × Bool} : s.lookup key = some (some r) ↔
    ∃ i, s.find key = .hit i ∧ r = (s.read (s.node i).offset.toNat, (s.node i).immutable) := by
  unfold lookup get
  cases s.find key <;> simp [eq_comm]

theorem view_eq_some_iff_lookup {r : List Val × Bool} :
    s.view key = some r ↔ s.lookup key = some (some r) := by
  rw [lookup_eq_some_iff, view]
  cases s.find key <;> simp [eq_comm]

theorem length_read : (s.read n).length = s.valueLen := by simp [read]

theorem read_write_self (h : row.length = s.valueLen) : (s.write n row).read n = row := by
  apply List.ext_getElem (by simp [read, write, h])
  intro j hj hj'
  simp [read, write, hj']

theorem read_write_of_disjoint (hr : row.length = s.valueLen)
    (h : n + s.valueLen ≤ i ∨ i + s.valueLen ≤ n) : (s.write n row).read i = s.read i := by
  apply List.ext_getElem (by simp [read, write])
  intro j hj hj'
  simp only [read, List.length_map, List.length_range] at hj'
  simp only [read, List.getElem_map, List.getElem_range, write]
  split
  · rw [List.getElem?_eq_none (by omega), Option.getD_none]
  · rfl

namespace Sound

theorem pos (h : Sound s) : 0 < s.nodeCapacity := by
  obtain ⟨m, hm⟩ := h.pow
  rw [hm]
  exact Nat.two_pow_pos m

theorem find_hit_iff (h : Sound s) : s.find key = .hit i ↔ s.slot i = some key := by
  rw [find_eq_probe h.pos]
  exact h.findable.hit_iff

theorem view_eq_some_iff (h : Sound s) {r : List Val × Bool} :
    s.view key = some r ↔
      ∃ i, s.slot i = some key ∧ r = (s.read (s.node i).offset.toNat, (s.node i).immutable) := by
  unfold view
  constructor
  · intro hv
    split at hv
    · rename_i i hi
      cases hv
      exact ⟨i, h.find_hit_iff.mp hi, rfl⟩
    · cases hv
  · rintro ⟨i, hi, rfl⟩
    rw [h.find_hit_iff.mpr hi]

theorem view_of_slot (h : Sound s) (hi : s.slot i = some key) :
    s.view key = some (s.read (s.node i).offset.toNat, (s.node i).immutable) :=
  h.view_eq_some_iff.mpr ⟨i, hi, rfl⟩

theorem view_eq_none_iff (h : Sound s) : s.view key = none ↔ ∀ i, s.slot i ≠ some key := by
  rw [Option.eq_none_iff_forall_ne_some]
  constructor
  · intro hv i hi
    exact hv _ (h.view_of_slot hi)
  · intro hs r hr
    obtain ⟨i, hi, -⟩ := h.view_eq_some_iff.mp hr
    exact hs i hi

/-- Stores that agree on a key's bucket and row agree on the key. -/
theorem view_congr (h : Sound s) (ht : Sound t) (hslot : ∀ i, t.slot i = some key ↔ s.slot i = some key)
    (hrow : ∀ i, s.slot i = some key → t.read (t.node i).offset.toNat = s.read (s.node i).offset.toNat ∧
      (t.node i).immutable = (s.node i).immutable) : t.view key = s.view key := by
  cases hv : s.view key with
  | none =>
    rw [ht.view_eq_none_iff]
    intro i hi
    exact h.view_eq_none_iff.mp hv i ((hslot i).mp hi)
  | some r =>
    obtain ⟨i, hi, rfl⟩ := h.view_eq_some_iff.mp hv
    obtain ⟨hr, hf⟩ := hrow i hi
    rw [ht.view_of_slot ((hslot i).mpr hi), hr, hf]

/-! ### A new entry -/

theorem lt_of_mem_walk {cap : ℕ} (hc : 0 < cap) (hi : i < cap) (hj : j ∈ walk cap n i) : j < cap := by
  induction n generalizing i with
  | zero => simp [walk] at hj
  | succ n ih =>
    rcases List.mem_cons.mp hj with rfl | hj
    · exact hi
    · exact ih (mask_lt hc) hj

theorem free_bucket (h : Sound s) (hf : s.find key = .free i) :
    i < s.nodeCapacity ∧ (s.node i).offset < 0 ∧
      probe s.slot key (path s.nodeCapacity key) = .free i := by
  rw [find_eq_probe h.pos] at hf
  obtain ⟨hs, hm⟩ := slot_of_free hf
  have hi := lt_of_mem_walk h.pos (mask_lt h.pos) hm
  refine ⟨hi, ?_, hf⟩
  simpa [slot, hi] using hs

theorem slot_insert (hi : i < s.nodeCapacity) :
    (s.insert key i).slot = Function.update s.slot i (some key) := by
  funext j
  by_cases hj : j = i
  · subst hj; simp [slot, insert, hi]
  · simp [slot, insert, hj]

theorem insert (h : Sound s) (hf : s.find key = .free i) : Sound (s.insert key i) := by
  obtain ⟨hi, hneg, hp⟩ := h.free_bucket hf
  have hslot : (s.insert key i).slot = _ := slot_insert hi
  have hold : ∀ j k, j ≠ i → (s.insert key i).slot j = some k →
      s.slot j = some k ∧ ((s.insert key i).node j) = s.node j := by
    intro j k hj hk
    rw [hslot, Function.update_of_ne hj] at hk
    exact ⟨hk, Function.update_of_ne hj ..⟩
  have hnew : ((s.insert key i).node i).offset.toNat = s.dataSize := by simp [KVStore.insert]
  have hsize : (s.insert key i).dataSize = s.dataSize + s.valueLen := rfl
  refine ⟨h.pow, ?_, ?_, ?_, h.dataCapacity, fun j k hk => ?_, fun j j' k k' hk hk' hne => ?_⟩
  · rw [hslot]
    exact h.findable.fill hp
  · have hset : (Finset.range s.nodeCapacity).filter (fun j => 0 ≤ ((s.insert key i).node j).offset) =
        Insert.insert i ((Finset.range s.nodeCapacity).filter fun j => 0 ≤ (s.node j).offset) := by
      ext j
      simp only [Finset.mem_filter, Finset.mem_insert, Finset.mem_range]
      by_cases hj : j = i
      · subst hj; simp [KVStore.insert, hi]
      · simp [KVStore.insert, hj]
    change s.nodeSize + 1 = ((Finset.range s.nodeCapacity).filter _).card
    rw [hset, Finset.card_insert_of_notMem (by simp [hneg]), h.nodeSize]
  · rw [hsize, h.dataSize]
    change _ = (s.nodeSize + 1) * s.valueLen
    rw [Nat.succ_mul]
  · change _ + s.valueLen ≤ _
    rw [hsize]
    by_cases hj : j = i
    · rw [hj, hnew]
    · obtain ⟨hs, hn⟩ := hold j k hj hk
      have := h.inside j k hs
      rw [hn]
      omega
  · change _ + s.valueLen ≤ _ ∨ _ + s.valueLen ≤ _
    by_cases hj : j = i
    · obtain ⟨hs, hn⟩ := hold j' k' (by omega) hk'
      rw [hj, hnew, hn]
      exact .inr (h.inside j' k' hs)
    · obtain ⟨hs, hn⟩ := hold j k hj hk
      by_cases hj' : j' = i
      · rw [hj', hnew, hn]
        exact .inl (h.inside j k hs)
      · obtain ⟨hs', hn'⟩ := hold j' k' hj' hk'
        rw [hn, hn']
        exact h.disjoint j j' k k' hs hs' hne

theorem view_insert (h : Sound s) (hf : s.find key = .free i) :
    (s.insert key i).view = Function.update s.view key (some (s.read s.dataSize, false)) := by
  obtain ⟨hi, hneg, -⟩ := h.free_bucket hf
  have hslot : (s.insert key i).slot = _ := slot_insert hi
  have ht := h.insert hf
  funext k
  by_cases hk : k = key
  · subst hk
    have hki : (s.insert k i).slot i = some k := by rw [hslot, Function.update_self]
    rw [Function.update_self, ht.view_of_slot hki]
    simp [KVStore.insert, read]
  · have hfree : s.slot i = none := by simp [slot, not_le.mpr hneg]
    have hne : ∀ j, s.slot j = some k → j ≠ i := by
      rintro j hj rfl
      rw [hfree] at hj
      cases hj
    rw [Function.update_of_ne hk]
    refine h.view_congr ht (fun j => ?_) fun j hj => ?_
    · rw [hslot]
      by_cases hj : j = i
      · subst hj; simp [hfree, Ne.symm hk]
      · rw [Function.update_of_ne hj]
    · simp [KVStore.insert, hne j hj, read]

/-! ### Writing a row -/

theorem write (h : Sound s) : Sound (s.write n row) :=
  ⟨h.pow, h.findable, h.nodeSize, h.dataSize, h.dataCapacity, h.inside, h.disjoint⟩

theorem view_write (h : Sound s) (hi : s.slot i = some key) (hr : row.length = s.valueLen) :
    (s.write (s.node i).offset.toNat row).view =
      Function.update s.view key (some (row, (s.node i).immutable)) := by
  have ht : Sound (s.write (s.node i).offset.toNat row) := h.write
  funext k
  by_cases hk : k = key
  · subst hk
    rw [Function.update_self, ht.view_of_slot hi]
    exact congrArg some (Prod.ext (read_write_self hr) rfl)
  · rw [Function.update_of_ne hk]
    refine h.view_congr ht (fun _ => Iff.rfl) fun j hj => ⟨?_, rfl⟩
    have hij : i ≠ j := by
      rintro rfl
      rw [hi] at hj
      cases hj
      exact hk rfl
    exact read_write_of_disjoint hr (h.disjoint i j key k hi hj hij)

/-! ### Setting the flag -/

theorem slot_setFlag : (s.setFlag i immutable).slot = s.slot := by
  funext j
  by_cases hj : j = i
  · subst hj; simp [slot, setFlag]
  · simp [slot, setFlag, hj]

theorem offset_setFlag : ((s.setFlag i immutable).node j).offset = (s.node j).offset := by
  by_cases hj : j = i
  · subst hj; simp [setFlag]
  · simp [setFlag, hj]

theorem setFlag (h : Sound s) : Sound (s.setFlag i immutable) where
  pow := h.pow
  findable := by rw [slot_setFlag]; exact h.findable
  nodeSize := by simp only [offset_setFlag]; exact h.nodeSize
  dataSize := h.dataSize
  dataCapacity := h.dataCapacity
  inside j k := by rw [slot_setFlag, offset_setFlag]; exact h.inside j k
  disjoint j j' k k' := by
    rw [slot_setFlag, offset_setFlag, offset_setFlag]
    exact h.disjoint j j' k k'

theorem view_setFlag (h : Sound s) (hi : s.slot i = some key) :
    (s.setFlag i immutable).view =
      Function.update s.view key (some (s.read (s.node i).offset.toNat, immutable)) := by
  have ht : Sound (s.setFlag i immutable) := h.setFlag
  funext k
  by_cases hk : k = key
  · subst hk
    rw [Function.update_self, ht.view_of_slot (by rw [slot_setFlag]; exact hi), offset_setFlag]
    simp [KVStore.setFlag, read]
  · rw [Function.update_of_ne hk]
    refine h.view_congr ht (fun j => by rw [slot_setFlag]) fun j hj => ?_
    have hji : j ≠ i := by
      rintro rfl
      rw [hi] at hj
      cases hj
      exact hk rfl
    simp [KVStore.setFlag, hji, read]

/-! ### The calls -/

theorem view_of_free (hf : s.find key = .free i) : s.view key = none := by
  rw [view, hf]

/-- What a mutable `Get` leads to: the key has a bucket, and at most that key is new. -/
structure Found (s : KVStore Val) (key : ℕ) (t : KVStore Val) (e : Entry) : Prop where
  sound : Sound t
  valueLen : t.valueLen = s.valueLen
  capacity : t.nodeCapacity = s.nodeCapacity
  slot : t.slot e.index = some key
  offset : e.offset = (t.node e.index).offset.toNat
  immutable : e.immutable = (t.node e.index).immutable
  old : e.newData = false → t = s
  new : e.newData = true → s.view key = none ∧ e.immutable = false ∧
    t.view = Function.update s.view key (some (t.read e.offset, false))

theorem get_mutable (h : Sound s) (hg : s.get key false = some (t, r)) :
    ∃ e, r = some e ∧ Found s key t e := by
  rcases get_cases hg with ⟨i, hf, rfl, rfl⟩ | ⟨i, hf, hi, -, -⟩ | ⟨i, hf, -, rfl, rfl⟩
  · exact ⟨_, rfl, h, rfl, rfl, h.find_hit_iff.mp hf, rfl, by simp, fun _ => rfl, by simp⟩
  · cases hi
  · obtain ⟨hi, -, -⟩ := h.free_bucket hf
    have hslot : (s.insert key i).slot i = some key := by
      rw [slot_insert hi, Function.update_self]
    refine ⟨_, rfl, h.insert hf, rfl, rfl, hslot, by simp [KVStore.insert], by simp [KVStore.insert],
      by simp, fun _ => ⟨view_of_free hf, rfl, ?_⟩⟩
    exact h.view_insert hf

theorem Found.view_other (hf : Found s key t e) {k : ℕ} (hk : k ≠ key) : t.view k = s.view k := by
  cases hn : e.newData with
  | false => rw [hf.old hn]
  | true => rw [(hf.new hn).2.2, Function.update_of_ne hk]

theorem Found.update_view (hf : Found s key t e) (r : Option (List Val × Bool)) :
    Function.update t.view key r = Function.update s.view key r := by
  funext k
  by_cases hk : k = key
  · subst hk; simp
  · simp [hk, hf.view_other hk]

/-- Writing through the pointer that `Get` returned. -/
theorem Found.view_write (hf : Found s key t e) (hr : row.length = s.valueLen) :
    (t.write e.offset row).view = Function.update s.view key (some (row, e.immutable)) := by
  rw [hf.offset, hf.sound.view_write hf.slot (hr.trans hf.valueLen.symm), hf.update_view, hf.immutable]

theorem set (h : Sound s) (hr : row.length = s.valueLen) (hs : s.set key row immutable = some t) :
    Sound t ∧ t.valueLen = s.valueLen ∧ t.nodeCapacity = s.nodeCapacity ∧
      t.view = Function.update s.view key (some (row, immutable)) := by
  obtain ⟨⟨u, r⟩, hg, hs⟩ := Option.bind_eq_some_iff.mp hs
  obtain ⟨e, rfl, hf⟩ := h.get_mutable hg
  cases hs
  have hslot : (u.write e.offset row).slot e.index = some key := hf.slot
  refine ⟨hf.sound.write.setFlag, hf.valueLen, hf.capacity, ?_⟩
  rw [hf.sound.write.view_setFlag hslot, hf.view_write hr, Function.update_idem]
  congr 3
  rw [hf.offset]
  exact read_write_self (hr.trans hf.valueLen.symm)

theorem get_immutable (hg : s.get key true = some (t, r)) : t = s := by
  rcases get_cases hg with ⟨i, -, rfl, -⟩ | ⟨i, -, -, rfl, -⟩ | ⟨i, -, hi, -, -⟩
  · rfl
  · rfl
  · cases hi

theorem get (h : Sound s) (hg : s.get key immutable = some (t, r)) :
    Sound t ∧ t.valueLen = s.valueLen := by
  cases immutable with
  | true =>
    rw [get_immutable hg]
    exact ⟨h, rfl⟩
  | false =>
    obtain ⟨e, -, hf⟩ := h.get_mutable hg
    exact ⟨hf.sound, hf.valueLen⟩

theorem step {c : Call Val} (h : Sound s) (hs : s.step c = some t) :
    Sound t ∧ t.valueLen = s.valueLen := by
  unfold KVStore.step at hs
  split at hs
  · rename_i hfit
    cases c with
    | get key immutable =>
      obtain ⟨⟨u, r⟩, hg, rfl⟩ := Option.map_eq_some_iff.mp hs
      exact h.get hg
    | set key row immutable =>
      obtain ⟨ht, hv, -, -⟩ := h.set (by simpa [Call.fits] using hfit) hs
      exact ⟨ht, hv⟩
    | update key row =>
      obtain ⟨⟨u, r⟩, hg, rfl⟩ := Option.map_eq_some_iff.mp hs
      have hu := h.get hg
      cases r with
      | none => exact hu
      | some e => exact ⟨hu.1.write, hu.2⟩
  · cases hs

theorem new [Zero Val] (hs : KVStore.new i n g = some s) : Sound s ∧ s.valueLen = n := by
  obtain ⟨ht, hv, -, -⟩ := sound_alloc.set (List.length_replicate ..) hs
  exact ⟨ht, hv⟩

end Sound

/-- The constructor always returns: key 0 finds an empty table. -/
theorem exists_new [Zero Val] (initCapacity valueLen : ℕ) (g : Garbage Val) :
    ∃ s, new initCapacity valueLen g = some s := by
  have hc := (sound_alloc (n := initCapacity) (j := valueLen) (g := g)).pos
  have hf : (alloc initCapacity valueLen g).find 0 = .free 0 := by
    rw [find, kMaxProbeNum, probeFrom]
    have hc' : 0 < grow initCapacity initCapacity 1 := hc
    simp [mask, alloc, hc']
  simp [new, addBlackList, set, get, hf]

/-- A store some sequence of calls leads to. -/
def Reachable [Zero Val] (valueLen : ℕ) (s : KVStore Val) : Prop :=
  ∃ initCapacity g s₀, new initCapacity valueLen g = some s₀ ∧
    TransitionSystem.Reachable step s₀ s

theorem Reachable.sound [Zero Val] (h : Reachable n s) : Sound s ∧ s.valueLen = n := by
  obtain ⟨initCapacity, g, s₀, h₀, hr⟩ := h
  refine hr.invariant (P := fun s => Sound s ∧ s.valueLen = n) (Sound.new h₀) ?_
  rintro x c y ⟨hx, hv⟩ hs
  obtain ⟨hy, hvy⟩ := hx.step hs
  exact ⟨hy, hvy.trans hv⟩

end KVStore
end Hpps.Kv

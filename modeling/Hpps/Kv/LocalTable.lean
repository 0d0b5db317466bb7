import Hpps.Common.Tensor
import Hpps.Kv.Capacity
import Hpps.Kv.Partition

/-! The local store of a worker: both threads of the worker actor write rows of replies to it, and clients read
them, without a lock. -/
namespace Hpps.Kv

open OpenAddressing

inductive Thread
  | first
  | second
  | client (c : ℕ)
  deriving DecidableEq, Repr

/-- The other thread of the worker actor. -/
def Thread.other : Thread → Thread
  | .first => .second
  | .second => .first
  | .client c => .client c

def Thread.isWorker : Thread → Bool
  | .client _ => false
  | _ => true

/-- Where a thread stands in its call of `Get`, and then of `Set`: each access to what is shared is one step. -/
inductive Pc
  | next
  | look (index left : ℕ)
  | compare (index left : ℕ)
  | putKey (index : ℕ)
  | readSize (index : ℕ)
  | putOffset (index size : ℕ)
  | readOffset (index : ℕ)
  | grow (index offset : ℕ)
  | growTo (index offset size : ℕ)
  | count (index offset : ℕ)
  | countTo (index offset size : ℕ)
  | found (index : ℕ)
  | copy (index offset : ℕ)
  | clear (index : ℕ)
  | clearTo (index : ℕ) (offset : ℤ)
  deriving DecidableEq, Repr

/-- `ProcessReplyGet` sets rows, `GetFromLocal` gets them into a tensor. -/
inductive Job (Val : Type)
  | set (vals : List Val)
  | get (val : Tensor Val)

/-- A loop over keys, and the key that it is at. -/
structure Handling (Val : Type) where
  keys : List ℕ
  job : Job Val
  i : ℕ
  key : ℕ
  pc : Pc

namespace Handling

variable {Val : Type} (s : KVStore Val) (h : Handling Val)

def start (keys : List ℕ) (job : Job Val) : Handling Val := ⟨keys, job, 0, 0, .next⟩

/-- The next access of the thread, and where it stands then unless the loop has ended. A key that is missing
would be read from a null pointer. -/
def advance : Except Stop (KVStore Val × Option (Handling Val)) :=
  match h.pc with
  | .next => .ok (s, (h.keys[h.i]?).map fun key =>
      { h with
        key := key
        pc := .look (KVStore.mask s.nodeCapacity key) kMaxProbeNum })
  | .look _ 0 => .error .fatal
  | .look index (left + 1) =>
    if index < s.nodeCapacity then
      if (s.node index).offset < 0 then
        match h.job with
        | .set _ => .ok (s, some { h with pc := .putKey index })
        | .get _ => .error .memory
      else .ok (s, some { h with pc := .compare index left })
    else .error .fatal
  | .compare index left =>
    if (s.node index).key = h.key then .ok (s, some { h with pc := .found index })
    else .ok (s, some { h with pc := .look (KVStore.mask s.nodeCapacity (index + 1)) left })
  | .putKey index =>
    .ok ({ s with node := Function.update s.node index { s.node index with key := h.key } },
      some { h with pc := .readSize index })
  | .readSize index => .ok (s, some { h with pc := .putOffset index s.dataSize })
  | .putOffset index size =>
    .ok ({ s with node := Function.update s.node index ⟨(s.node index).key, size, false⟩ },
      some { h with pc := .readOffset index })
  | .readOffset index => .ok (s, some { h with pc := .grow index s.dataSize })
  | .grow index offset => .ok (s, some { h with pc := .growTo index offset s.dataSize })
  | .growTo index offset size =>
    .ok ({ s with dataSize := size + s.valueLen }, some { h with pc := .count index offset })
  | .count index offset => .ok (s, some { h with pc := .countTo index offset s.nodeSize })
  | .countTo index offset size => .ok ({ s with nodeSize := size + 1 }, some { h with pc := .copy index offset })
  | .found index => .ok (s, some { h with pc := .copy index (s.node index).offset.toNat })
  | .copy index offset =>
    match h.job with
    | .set vals => .ok (s.write offset (rowAt s.valueLen vals h.i), some { h with pc := .clear index })
    | .get val => do
      let val ← val.write (h.i * s.valueLen) (s.read offset)
      let i ← incr h.i
      return (s, some { h with job := .get val, i := i, pc := .next })
  | .clear index => .ok (s, some { h with pc := .clearTo index (s.node index).offset })
  | .clearTo index offset => do
    let i ← incr h.i
    return ({ s with node := Function.update s.node index ⟨(s.node index).key, offset, false⟩ },
      some { h with i := i, pc := .next })

/-- The thread has found a free bucket and has not accounted for it yet. -/
def inserting : Bool :=
  match h.pc with
  | .putKey _ | .readSize _ | .putOffset .. | .readOffset _ | .grow .. | .growTo .. | .count .. | .countTo .. => true
  | _ => false

/-- The next access finds a free bucket for a row. -/
def findsFree : Bool :=
  match h.job, h.pc with
  | .set _, .look index (_ + 1) => index < s.nodeCapacity ∧ (s.node index).offset < 0
  | _, _ => false

/-- The store when the thread has made the new entry that it is at. -/
def finish : KVStore Val :=
  match h.pc with
  | .putKey index | .readSize index | .putOffset index _ => s.insert h.key index
  | .readOffset _ | .grow .. | .growTo .. => { s with dataSize := s.dataSize + s.valueLen, nodeSize := s.nodeSize + 1 }
  | .count .. | .countTo .. => { s with nodeSize := s.nodeSize + 1 }
  | _ => s

/-- What the next access does to the store, if it is not one for a new entry. -/
def touch : KVStore Val :=
  match h.pc, h.job with
  | .copy _ offset, .set vals => s.write offset (rowAt s.valueLen vals h.i)
  | .clearTo index offset, _ => { s with node := Function.update s.node index ⟨(s.node index).key, offset, false⟩ }
  | _, _ => s

end Handling

structure LocalTable (Val : Type) where
  store : KVStore Val
  threads : Thread → Option (Handling Val)

namespace LocalTable

variable {Val : Type} (t : LocalTable Val)

def new (store : KVStore Val) : LocalTable Val := ⟨store, fun _ => none⟩

/-- A thread enters `ProcessReplyGet`. -/
def processReplyGet (thread : Thread) (keys : List ℕ) (vals : List Val) : Except Stop (LocalTable Val) :=
  if keys.length * t.store.valueLen = vals.length then
    .ok { t with threads := Function.update t.threads thread (some (.start keys (.set vals))) }
  else .error .check

/-- A client enters `GetFromLocal`. -/
def getFromLocal (c : ℕ) (g : Garbage Val) (keys : List ℕ) (val : Tensor Val) : Except Stop (LocalTable Val) := do
  let val ← val.reshape g.val [keys.length % 2 ^ 32, t.store.valueLen]
  return { t with threads := Function.update t.threads (.client c) (some (.start keys (.get val))) }

/-- A thread makes its next access. -/
def advance (thread : Thread) : Option (Except Stop (LocalTable Val)) :=
  (t.threads thread).map fun h => do
    let (store, h) ← h.advance t.store
    return ⟨store, Function.update t.threads thread h⟩

/-- A thread finds a free bucket while the other one is making a new entry. -/
def Races (thread : Thread) : Prop :=
  (t.threads thread).any (·.findsFree t.store) = true ∧ (t.threads thread.other).any (·.inserting) = true

instance {thread : Thread} : Decidable (t.Races thread) :=
  inferInstanceAs (Decidable ((t.threads thread).any (·.findsFree t.store) = true ∧
    (t.threads thread.other).any (·.inserting) = true))

end LocalTable

/-! ### What a thread knows of the store -/

namespace KVStore

variable {Val : Type} {s t u : KVStore Val} {key b i left : ℕ}

/-- What is in a bucket stays there, with its row. -/
def Extends (s t : KVStore Val) : Prop :=
  t.nodeCapacity = s.nodeCapacity ∧ t.valueLen = s.valueLen ∧ KVStore.Keeps s t

theorem Extends.refl : Extends s s := ⟨rfl, rfl, .refl⟩

theorem Extends.trans (h : Extends s t) (h' : Extends t u) : Extends s u :=
  ⟨h'.1.trans h.1, h'.2.1.trans h.2.1, h.2.2.trans h'.2.2⟩

theorem slot_eq_some : s.slot b = some key ↔
    b < s.nodeCapacity ∧ 0 ≤ (s.node b).offset ∧ (s.node b).key = key := by
  simp [slot, and_assoc]

theorem extends_insert (hfree : (s.node b).offset < 0) : Extends s (s.insert key b) := by
  refine ⟨rfl, rfl, fun j k hj => ?_⟩
  have hjb : j ≠ b := by
    rintro rfl
    have := (slot_eq_some.mp hj).2.1
    omega
  have hnode : (s.insert key b).node j = s.node j := Function.update_of_ne hjb ..
  rw [slot_eq_some, hnode]
  exact ⟨slot_eq_some.mp hj, rfl⟩

theorem extends_setFlag {immutable : Bool} : Extends s (s.setFlag b immutable) := ⟨rfl, rfl, keeps_setFlag⟩

/-- All buckets before `i` on the path of the key hold other keys, in this store and in each that it becomes. -/
def Reached (s : KVStore Val) (key i left : ℕ) : Prop := ∀ t, Extends s t → t.find key = t.probeFrom key left i

theorem reached_start : Reached s key (mask s.nodeCapacity key) kMaxProbeNum := by
  intro t ht
  rw [find, ht.1]

theorem Reached.mono (h : Reached s key i left) (hst : Extends s t) : Reached t key i left :=
  fun u hu => h u (hst.trans hu)

theorem Reached.next {k : ℕ} (h : Reached s key i (left + 1)) (hi : s.slot i = some k) (hk : k ≠ key) :
    Reached s key (mask s.nodeCapacity (i + 1)) left := by
  intro t ht
  obtain ⟨hlt, hpos, rfl⟩ := slot_eq_some.mp (ht.2.2 i k hi).1
  rw [h t ht, probeFrom, if_pos hlt, if_neg (not_lt.mpr hpos), if_neg hk, ht.1]

/-- What a step that makes no new entry does to the store. -/
inductive Touches (s : KVStore Val) (key : ℕ) : KVStore Val → Prop
  | read : Touches s key s
  | row {i : ℕ} {vals : List Val} (hi : s.slot i = some key) : Touches s key (s.write (s.node i).offset.toNat vals)
  | flag {i : ℕ} (hi : s.slot i = some key) : Touches s key (s.setFlag i false)

theorem Touches.extends (h : Touches s key t) : Extends s t := by
  cases h with
  | read => exact .refl
  | row hb => exact ⟨rfl, rfl, keeps_write⟩
  | flag hb => exact extends_setFlag

end KVStore

namespace Handling

open KVStore

variable {Val : Type} {s s' S : KVStore Val} {h h' : Handling Val} {o : Option (Handling Val)} {key : ℕ}

/-- What holds of the store where the thread stands. -/
def Placed (s : KVStore Val) (h : Handling Val) : Prop :=
  match h.pc with
  | .next => True
  | .look index left => Reached s h.key index left
  | .compare index left => Reached s h.key index (left + 1) ∧ ∃ k, s.slot index = some k
  | .putKey b => b < s.nodeCapacity ∧ (s.node b).offset < 0
  | .readSize b => b < s.nodeCapacity ∧ (s.node b).offset < 0 ∧ (s.node b).key = h.key
  | .putOffset b size => b < s.nodeCapacity ∧ (s.node b).offset < 0 ∧ (s.node b).key = h.key ∧ size = s.dataSize
  | .readOffset b => b < s.nodeCapacity ∧ s.node b = ⟨h.key, s.dataSize, false⟩
  | .grow b offset | .count b offset | .copy b offset => s.slot b = some h.key ∧ (s.node b).offset = offset
  | .growTo b offset size => s.slot b = some h.key ∧ (s.node b).offset = offset ∧ size = s.dataSize
  | .countTo b offset size => s.slot b = some h.key ∧ (s.node b).offset = offset ∧ size = s.nodeSize
  | .found b | .clear b => s.slot b = some h.key
  | .clearTo b offset => s.slot b = some h.key ∧ (s.node b).offset = offset

/-- Other threads do not disturb a thread that makes no new entry. -/
theorem Placed.mono (hp : Placed s h) (hn : h.inserting = false) (hext : Extends s s') : Placed s' h := by
  have hslot : ∀ b, s.slot b = some h.key → s'.slot b = some h.key := fun b hb => (hext.2.2 b _ hb).1
  have hoffset : ∀ b, s.slot b = some h.key → (s'.node b).offset = (s.node b).offset := fun b hb => (hext.2.2 b _ hb).2
  unfold Placed at hp ⊢
  unfold inserting at hn
  cases hpc : h.pc with
  | next => trivial
  | look index left =>
    rw [hpc] at hp
    exact hp.mono hext
  | compare index left =>
    rw [hpc] at hp
    obtain ⟨hr, k, hk⟩ := hp
    exact ⟨hr.mono hext, k, (hext.2.2 index k hk).1⟩
  | found b | clear b =>
    rw [hpc] at hp
    exact hslot b hp
  | copy b offset | clearTo b offset =>
    rw [hpc] at hp
    exact ⟨hslot b hp.1, (hoffset b hp.1).trans hp.2⟩
  | _ =>
    rw [hpc] at hn
    cases hn

/-- What a thread works on stays, but for the tensor that it fills. -/
theorem advance_keeps (hok : h.advance s = .ok (s', some h')) : h'.keys = h.keys ∧
    (h'.key = h.key ∨ h'.key ∈ h.keys) ∧ ∀ vals, h'.job = .set vals ↔ h.job = .set vals := by
  unfold advance at hok
  cases hpc : h.pc with
  | next =>
    rw [hpc] at hok
    obtain ⟨key, hkey, rfl⟩ := Option.map_eq_some_iff.mp (Prod.mk.inj (Except.ok.inj hok)).2
    exact ⟨rfl, .inr (List.mem_of_getElem? hkey), fun _ => Iff.rfl⟩
  | copy index offset =>
    simp only [hpc] at hok
    split at hok
    · cases hok
      exact ⟨rfl, .inl rfl, fun _ => Iff.rfl⟩
    · rename_i val hjob
      obtain ⟨val', -, hok⟩ := bind_eq_ok.mp hok
      obtain ⟨i, -, hok⟩ := bind_eq_ok.mp hok
      cases hok
      exact ⟨rfl, .inl rfl, by simp [hjob]⟩
  | clearTo index offset =>
    simp only [hpc] at hok
    obtain ⟨i, -, hok⟩ := bind_eq_ok.mp hok
    cases hok
    exact ⟨rfl, .inl rfl, fun _ => Iff.rfl⟩
  | look index left =>
    cases left <;> simp only [hpc] at hok
    · cases hok
    repeat' split at hok
    all_goals
      cases hok
      try exact ⟨rfl, .inl rfl, fun _ => Iff.rfl⟩
  | compare index left =>
    simp only [hpc] at hok
    split at hok <;> (cases hok; exact ⟨rfl, .inl rfl, fun _ => Iff.rfl⟩)
  | _ =>
    simp only [hpc] at hok
    cases hok
    exact ⟨rfl, .inl rfl, fun _ => Iff.rfl⟩

/-- No access changes the length of a row. -/
theorem valueLen_advance (hok : h.advance s = .ok (s', o)) : s'.valueLen = s.valueLen := by
  unfold advance at hok
  cases hpc : h.pc with
  | copy index offset =>
    simp only [hpc] at hok
    split at hok
    · cases hok
      rfl
    · obtain ⟨val', -, hok⟩ := bind_eq_ok.mp hok
      obtain ⟨i, -, hok⟩ := bind_eq_ok.mp hok
      cases hok
      rfl
  | clearTo index offset =>
    simp only [hpc] at hok
    obtain ⟨i, -, hok⟩ := bind_eq_ok.mp hok
    cases hok
    rfl
  | look index left =>
    cases left <;> simp only [hpc] at hok
    · cases hok
    repeat' split at hok
    all_goals
      cases hok
      try rfl
  | compare index left =>
    simp only [hpc] at hok
    split at hok <;> (cases hok; rfl)
  | _ =>
    simp only [hpc] at hok
    cases hok
    rfl

theorem finish_of_not_inserting (hn : h.inserting = false) : h.finish s = s := by
  unfold inserting at hn
  unfold finish
  split <;> simp_all

theorem extends_finish (hp : Placed s h) : Extends s (h.finish s) := by
  have hsame : ∀ size count, Extends s { s with dataSize := size, nodeSize := count } :=
    fun _ _ => ⟨rfl, rfl, fun _ _ hj => ⟨hj, rfl⟩⟩
  unfold Placed at hp
  unfold finish
  cases hpc : h.pc with
  | putKey b =>
    rw [hpc] at hp
    exact extends_insert hp.2
  | readSize b | putOffset b size =>
    rw [hpc] at hp
    exact extends_insert hp.2.1
  | readOffset | grow | growTo | count | countTo => exact hsame ..
  | _ => exact .refl

/-- A thread goes on with its new entry. -/
theorem advance_inserting (hi : h.inserting = true) (hp : Placed s h) : ∃ s' pc,
    h.advance s = .ok (s', some { h with pc := pc }) ∧ finish s' { h with pc := pc } = h.finish s ∧
      Placed s' { h with pc := pc } ∧ Extends s s' := by
  have hsame : ∀ size count, Extends s { s with dataSize := size, nodeSize := count } :=
    fun _ _ => ⟨rfl, rfl, fun _ _ hj => ⟨hj, rfl⟩⟩
  have hfree : ∀ b node, (s.node b).offset < 0 → Extends s { s with node := Function.update s.node b node } := by
    intro b node hb
    refine ⟨rfl, rfl, fun j k hj => ?_⟩
    have hjb : j ≠ b := by
      rintro rfl
      have := (slot_eq_some.mp hj).2.1
      omega
    have hnode : Function.update s.node b node j = s.node j := Function.update_of_ne hjb ..
    rw [slot_eq_some]
    dsimp only
    rw [hnode]
    exact ⟨slot_eq_some.mp hj, rfl⟩
  unfold Placed at hp
  unfold advance
  cases hpc : h.pc with
  | putKey b =>
    rw [hpc] at hp
    refine ⟨_, .readSize b, rfl, ?_, ?_, hfree b _ hp.2⟩
    · simp [finish, hpc, KVStore.insert]
    · exact ⟨hp.1, by simpa using hp.2, by simp⟩
  | readSize b =>
    rw [hpc] at hp
    exact ⟨_, .putOffset b s.dataSize, rfl, by simp [finish, hpc], ⟨hp.1, hp.2.1, hp.2.2, rfl⟩, .refl⟩
  | putOffset b size =>
    rw [hpc] at hp
    obtain ⟨hb, hneg, hkey, rfl⟩ := hp
    refine ⟨_, .readOffset b, rfl, ?_, ⟨hb, by simp [hkey]⟩, hfree b _ hneg⟩
    simp [finish, hpc, KVStore.insert, hkey]
  | readOffset b =>
    rw [hpc] at hp
    refine ⟨_, .grow b s.dataSize, rfl, by simp [finish, hpc], ⟨?_, by simp [hp.2]⟩, .refl⟩
    rw [slot_eq_some, hp.2]
    exact ⟨hp.1, by simp, rfl⟩
  | grow b offset =>
    rw [hpc] at hp
    exact ⟨_, .growTo b offset s.dataSize, rfl, by simp [finish, hpc], ⟨hp.1, hp.2, rfl⟩, .refl⟩
  | growTo b offset size =>
    rw [hpc] at hp
    obtain ⟨hb, ho, rfl⟩ := hp
    exact ⟨_, .count b offset, rfl, by simp [finish, hpc], ⟨hb, ho⟩, hsame ..⟩
  | count b offset =>
    rw [hpc] at hp
    exact ⟨_, .countTo b offset s.nodeSize, rfl, by simp [finish, hpc], ⟨hp.1, hp.2, rfl⟩, .refl⟩
  | countTo b offset size =>
    rw [hpc] at hp
    obtain ⟨hb, ho, rfl⟩ := hp
    exact ⟨_, .copy b offset, rfl, by simp [finish, hpc], ⟨hb, ho⟩, hsame ..⟩
  | _ => simp [inserting, hpc] at hi

/-- A thread finds the bucket for its new entry. -/
theorem advance_findsFree (hf : h.findsFree s = true) (hp : Placed s h) : ∃ b,
    h.advance s = .ok (s, some { h with pc := .putKey b }) ∧ s.find h.key = .free b ∧
      Placed s { h with pc := .putKey b } := by
  unfold findsFree at hf
  split at hf
  · rename_i vals b left hjob hpc
    simp only [Bool.decide_and, Bool.and_eq_true, decide_eq_true_eq] at hf
    unfold Placed at hp
    rw [hpc] at hp
    refine ⟨b, ?_, ?_, hf⟩
    · simp [advance, hpc, hjob, hf]
    · rw [hp s .refl, probeFrom, if_pos hf.1, if_pos hf.2]
  · cases hf

/-- Any other step of a thread. -/
theorem advance_touch (hi : h.inserting = false) (hf : h.findsFree s = false) (hp : Placed s h)
    (hok : h.advance s = .ok (s', o)) : s' = h.touch s ∧
      ∀ h', o = some h' → h'.inserting = false ∧ Placed s' h' := by
  unfold Placed at hp
  unfold advance at hok
  cases hpc : h.pc with
  | next =>
    rw [hpc] at hok
    cases hok
    refine ⟨by simp [touch, hpc], fun h' ho => ?_⟩
    obtain ⟨key, -, rfl⟩ := Option.map_eq_some_iff.mp ho
    exact ⟨rfl, reached_start⟩
  | look index left =>
    rw [hpc] at hok hp
    cases left with
    | zero => cases hok
    | succ left =>
      dsimp only at hok
      split at hok
      · rename_i hlt
        split at hok
        · rename_i hneg
          split at hok
          · rename_i vals hjob
            simp [findsFree, hjob, hpc, hlt, hneg] at hf
          · cases hok
        · rename_i hpos
          cases hok
          refine ⟨by simp [touch, hpc], fun h' ho => ?_⟩
          cases ho
          exact ⟨rfl, hp, _, slot_eq_some.mpr ⟨hlt, not_lt.mp hpos, rfl⟩⟩
      · cases hok
  | compare index left =>
    rw [hpc] at hok hp
    obtain ⟨hr, k, hk⟩ := hp
    obtain ⟨hlt, hpos, rfl⟩ := slot_eq_some.mp hk
    dsimp only at hok
    split at hok
    · rename_i hkey
      cases hok
      refine ⟨by simp [touch, hpc], fun h' ho => ?_⟩
      cases ho
      exact ⟨rfl, hkey ▸ hk⟩
    · rename_i hkey
      cases hok
      refine ⟨by simp [touch, hpc], fun h' ho => ?_⟩
      cases ho
      exact ⟨rfl, hr.next hk hkey⟩
  | found b =>
    rw [hpc] at hok hp
    cases hok
    refine ⟨by simp [touch, hpc], fun h' ho => ?_⟩
    cases ho
    have hpos := (slot_eq_some.mp hp).2.1
    exact ⟨rfl, hp, (Int.toNat_of_nonneg hpos).symm⟩
  | copy b offset =>
    rw [hpc] at hok hp
    obtain ⟨hb, ho⟩ := hp
    cases hjob : h.job with
    | set vals =>
      rw [hjob] at hok
      cases hok
      refine ⟨by simp [touch, hpc, hjob], fun h' ho => ?_⟩
      cases ho
      exact ⟨rfl, hb⟩
    | get val =>
      rw [hjob] at hok
      obtain ⟨val', -, hok⟩ := bind_eq_ok.mp hok
      obtain ⟨i, -, hok⟩ := bind_eq_ok.mp hok
      cases hok
      refine ⟨by simp [touch, hpc, hjob], fun h' ho => ?_⟩
      cases ho
      exact ⟨rfl, trivial⟩
  | clear b =>
    rw [hpc] at hok hp
    cases hok
    refine ⟨by simp [touch, hpc], fun h' ho => ?_⟩
    cases ho
    exact ⟨rfl, hp, rfl⟩
  | clearTo b offset =>
    rw [hpc] at hok hp
    obtain ⟨i, -, hok⟩ := bind_eq_ok.mp hok
    cases hok
    refine ⟨by simp [touch, hpc], fun h' ho => ?_⟩
    cases ho
    exact ⟨rfl, trivial⟩
  | _ => simp [inserting, hpc] at hi

/-- LOG_FATAL is reached only by a thread whose whole path holds other keys. -/
theorem advance_fatal (hp : Placed s h) (hfatal : h.advance s = .error .fatal) (hS : Extends s S) :
    S.find h.key = .exhausted := by
  unfold Placed at hp
  unfold advance at hfatal
  cases hpc : h.pc with
  | look index left =>
    rw [hpc] at hfatal hp
    rw [hp S hS]
    cases left with
    | zero => rfl
    | succ left =>
      dsimp only at hfatal
      split at hfatal
      · split at hfatal
        · split at hfatal <;> cases hfatal
        · cases hfatal
      · rename_i hlt
        rw [probeFrom, hS.1, if_neg hlt]
  | copy b offset =>
    rw [hpc] at hfatal
    dsimp only at hfatal
    split at hfatal
    · cases hfatal
    · rename_i val hjob
      have hsafe : Survives (do
          let val ← val.write (h.i * s.valueLen) (s.read offset)
          let i ← incr h.i
          return (s, some { h with job := .get val, i := i, pc := .next })) fun _ => True :=
        Tensor.survives_write.bind fun _ _ => Survives.incr.bind fun _ _ => .ok trivial
      exact absurd hfatal hsafe.1
  | clearTo b offset =>
    rw [hpc] at hfatal
    have hsafe : Survives (do
        let i ← incr h.i
        return ({ s with node := Function.update s.node b ⟨(s.node b).key, offset, false⟩ },
          some { h with i := i, pc := .next })) fun _ => True := Survives.incr.bind fun _ _ => .ok trivial
    exact absurd hfatal hsafe.1
  | compare index left =>
    rw [hpc] at hfatal
    dsimp only at hfatal
    split at hfatal <;> cases hfatal
  | _ =>
    rw [hpc] at hfatal
    cases hfatal

theorem touches_touch (hp : Placed s h) : Touches s h.key (h.touch s) := by
  unfold Placed at hp
  unfold touch
  split
  · rename_i b offset vals hpc hjob
    rw [hpc] at hp
    obtain ⟨hb, ho⟩ := hp
    have hoffset : (s.node b).offset.toNat = offset := by rw [ho, Int.toNat_natCast]
    rw [← hoffset]
    exact .row hb
  · rename_i b offset hpc
    rw [hpc] at hp
    obtain ⟨hb, rfl⟩ := hp
    exact .flag hb
  · exact .read

theorem finish_write {n : ℕ} {row : List Val} : h.finish (s.write n row) = (h.finish s).write n row := by
  unfold finish
  cases h.pc <;> rfl

theorem finish_setFlag (hp : Placed s h) (hi : h.inserting = true) {i : ℕ} (hpos : 0 ≤ (s.node i).offset) :
    Placed (s.setFlag i false) h ∧ h.finish (s.setFlag i false) = (h.finish s).setFlag i false := by
  have hne : ∀ b, (s.node b).offset < 0 → b ≠ i := by
    rintro b hb rfl
    omega
  have hkeep : ∀ b, s.slot b = some h.key →
      (s.setFlag i false).slot b = some h.key ∧ ((s.setFlag i false).node b).offset = (s.node b).offset :=
    fun b hb => (extends_setFlag (s := s)).2.2 b _ hb
  have hnode : ∀ b, b ≠ i → (s.setFlag i false).node b = s.node b := fun b hb => Function.update_of_ne hb ..
  have hinsert : ∀ b, b ≠ i → (s.setFlag i false).insert h.key b = (s.insert h.key b).setFlag i false := by
    intro b hb
    simp only [KVStore.insert, setFlag, KVStore.mk.injEq, and_true, Function.update_of_ne (Ne.symm hb)]
    exact (Function.update_comm hb ..).symm
  unfold Placed at hp ⊢
  unfold finish
  cases hpc : h.pc with
  | putKey b =>
    rw [hpc] at hp
    have hb := hne b hp.2
    refine ⟨?_, hinsert b hb⟩
    dsimp only
    rw [hnode b hb]
    exact hp
  | readSize b | putOffset b size =>
    rw [hpc] at hp
    have hb := hne b hp.2.1
    refine ⟨?_, hinsert b hb⟩
    dsimp only
    rw [hnode b hb]
    exact hp
  | readOffset b =>
    rw [hpc] at hp
    refine ⟨⟨hp.1, ?_⟩, rfl⟩
    by_cases hb : b = i
    · subst hb
      simp [setFlag, hp.2]
    · rw [hnode b hb]
      exact hp.2
  | grow b offset | count b offset =>
    rw [hpc] at hp
    exact ⟨⟨(hkeep b hp.1).1, (hkeep b hp.1).2.trans hp.2⟩, rfl⟩
  | growTo b offset size | countTo b offset size =>
    rw [hpc] at hp
    exact ⟨⟨(hkeep b hp.1).1, (hkeep b hp.1).2.trans hp.2.1, hp.2.2⟩, rfl⟩
  | _ => simp [inserting, hpc] at hi

/-- What another thread does to the store while this one makes a new entry, it does to the store with that entry. -/
theorem finish_touch {h₂ : Handling Val} (hp : Placed s h) (hi : h.inserting = true) (hp₂ : Placed s h₂) :
    Placed (h₂.touch s) h ∧ h.finish (h₂.touch s) = h₂.touch (h.finish s) := by
  have hext := extends_finish hp
  unfold touch
  split
  · rename_i b offset vals hpc hjob
    rw [hext.2.1]
    exact ⟨hp, finish_write⟩
  · rename_i b offset hpc
    unfold Placed at hp₂
    rw [hpc] at hp₂
    obtain ⟨hb, rfl⟩ := hp₂
    obtain ⟨hslot, hoffset⟩ := hext.2.2 b _ hb
    have hflag : ∀ u : KVStore Val, (u.node b).offset = (s.node b).offset →
        ({ u with node := Function.update u.node b ⟨(u.node b).key, (s.node b).offset, false⟩ } : KVStore Val) =
          u.setFlag b false := fun u hu => by rw [← hu]; rfl
    rw [hflag s rfl, hflag _ hoffset]
    exact finish_setFlag hp hi (slot_eq_some.mp hb).2.1
  · exact ⟨hp, rfl⟩

end Handling

/-! ### All threads -/

namespace LocalTable

open KVStore

variable {Val : Type} {t t' : LocalTable Val} {s' S : KVStore Val} {a : Thread} {h : Handling Val}
  {o : Option (Handling Val)}

/-- At most one thread is making a new entry, `S` is the store with that entry, and clients only read. -/
structure Consistent (t : LocalTable Val) (S : KVStore Val) : Prop where
  complete : (S = t.store ∧ ∀ b h, t.threads b = some h → h.inserting = false) ∨
    ∃ b h, t.threads b = some h ∧ h.inserting = true ∧ S = h.finish t.store ∧
      ∀ b' h', b' ≠ b → t.threads b' = some h' → h'.inserting = false
  placed : ∀ b h, t.threads b = some h → h.Placed t.store
  client : ∀ c h, t.threads (.client c) = some h → h.inserting = false ∧ ∃ val, h.job = .get val

theorem Consistent.extends (hc : t.Consistent S) : Extends t.store S := by
  rcases hc.complete with ⟨rfl, -⟩ | ⟨b, h, hb, -, rfl, -⟩
  · exact .refl
  · exact Handling.extends_finish (hc.placed b h hb)

/-- A thread that finds a free bucket without a race is the only one that makes a new entry. -/
theorem Consistent.alone (hc : t.Consistent S) (ha : t.threads a = some h) (hf : h.findsFree t.store = true)
    (hr : ¬ t.Races a) : S = t.store ∧ ∀ b h, t.threads b = some h → h.inserting = false := by
  refine hc.complete.resolve_right ?_
  rintro ⟨b, hb, hthread, hi, -, -⟩
  have hset : ∃ vals, h.job = .set vals := by
    unfold Handling.findsFree at hf
    split at hf
    · exact ⟨_, by assumption⟩
    · cases hf
  have hnot : h.inserting = false := by
    unfold Handling.findsFree at hf
    unfold Handling.inserting
    split at hf
    · rename_i hpc
      rw [hpc]
    · cases hf
  have hother : b = a.other := by
    have hne : b ≠ a := by
      rintro rfl
      obtain rfl := Option.some.inj (ha.symm.trans hthread)
      rw [hi] at hnot
      cases hnot
    cases a with
    | client c =>
      obtain ⟨-, val, hval⟩ := hc.client c h ha
      obtain ⟨vals, hvals⟩ := hset
      rw [hval] at hvals
      cases hvals
    | first | second =>
      cases b with
      | client c =>
        rw [(hc.client c hb hthread).1] at hi
        cases hi
      | first | second =>
        first
        | rfl
        | exact absurd rfl hne
  subst hother
  exact hr ⟨by rw [ha]; exact hf, by rw [hthread]; exact hi⟩

/-- What the step of a thread with `h` makes of the store with the new entry. -/
def Becomes (S : KVStore Val) (h : Handling Val) (S' : KVStore Val) : Prop :=
  (h.inserting = true ∧ S' = S) ∨
  (h.findsFree S = true ∧ ∃ b, S.find h.key = .free b ∧ S' = S.insert h.key b) ∨
  (h.inserting = false ∧ h.Placed S ∧ S' = h.touch S)

theorem forall_update {Q : Thread → Handling Val → Prop} (hmine : ∀ g, o = some g → Q a g)
    (hothers : ∀ b g, b ≠ a → t.threads b = some g → Q b g) :
    ∀ b g, Function.update t.threads a o b = some g → Q b g := by
  intro b g hg
  by_cases hb : b = a
  · subst hb
    rw [Function.update_self] at hg
    exact hmine g hg
  · rw [Function.update_of_ne hb] at hg
    exact hothers b g hb hg

theorem Consistent.client_update (hc : t.Consistent S)
    (hmine : ∀ c g, a = .client c → o = some g → g.inserting = false ∧ ∃ val, g.job = .get val) :
    ∀ c g, Function.update t.threads a o (.client c) = some g → g.inserting = false ∧ ∃ val, g.job = .get val := by
  have hall := forall_update (t := t) (a := a) (o := o)
    (Q := fun b g => ∀ c, b = .client c → g.inserting = false ∧ ∃ val, g.job = .get val)
    (fun g hg c hac => hmine c g hac hg) (fun b g _ hg c hbc => hc.client c g (hbc ▸ hg))
  exact fun c g hg => hall (.client c) g hg c rfl

/-- A step of the thread that is making a new entry. -/
theorem Consistent.advance_inserting (hc : t.Consistent S) (ha : t.threads a = some h) (hi : h.inserting = true)
    (hok : h.advance t.store = .ok (s', o)) :
    ∃ S', Consistent ⟨s', Function.update t.threads a o⟩ S' ∧ Becomes S h S' := by
  obtain ⟨u, pc, hok', hfinish, hplaced, hext⟩ := Handling.advance_inserting hi (hc.placed a h ha)
  rw [hok, Except.ok.injEq, Prod.mk.injEq] at hok'
  obtain ⟨rfl, rfl⟩ := hok'
  obtain ⟨hS, honly⟩ : S = h.finish t.store ∧ ∀ b g, b ≠ a → t.threads b = some g → g.inserting = false := by
    rcases hc.complete with ⟨-, hnone⟩ | ⟨b, g, hb, hg, hS, hrest⟩
    · rw [hnone a h ha] at hi
      cases hi
    · have hba : b = a := by
        by_contra hne
        rw [hrest a h (Ne.symm hne) ha] at hi
        cases hi
      subst hba
      obtain rfl := Option.some.inj (hb.symm.trans ha)
      exact ⟨hS, hrest⟩
  refine ⟨S, ⟨?_, forall_update (fun g hg => ?_) fun b g hb hg => ?_, hc.client_update fun c g hac _ => ?_⟩,
    .inl ⟨hi, rfl⟩⟩
  · cases hnew : (Handling.inserting { h with pc := pc }) with
    | true =>
      refine .inr ⟨a, _, Function.update_self .., hnew, hS.trans hfinish.symm, fun b g hb hg => ?_⟩
      dsimp only at hg
      rw [Function.update_of_ne hb] at hg
      exact honly b g hb hg
    | false =>
      refine .inl ⟨?_, forall_update (fun g hg => ?_) honly⟩
      · rw [hS, ← hfinish, Handling.finish_of_not_inserting hnew]
      · cases hg
        exact hnew
  · cases hg
    exact hplaced
  · exact (hc.placed b g hg).mono (honly b g hb hg) hext
  · subst hac
    rw [(hc.client c h ha).1] at hi
    cases hi

/-- A step in which a thread finds the bucket for a new entry. -/
theorem Consistent.advance_findsFree (hc : t.Consistent S) (ha : t.threads a = some h)
    (hf : h.findsFree t.store = true) (hr : ¬ t.Races a) (hok : h.advance t.store = .ok (s', o)) :
    ∃ S', Consistent ⟨s', Function.update t.threads a o⟩ S' ∧ Becomes S h S' := by
  obtain ⟨rfl, hnone⟩ := hc.alone ha hf hr
  obtain ⟨b, hok', hfind, hplaced⟩ := Handling.advance_findsFree hf (hc.placed a h ha)
  rw [hok, Except.ok.injEq, Prod.mk.injEq] at hok'
  obtain ⟨rfl, rfl⟩ := hok'
  refine ⟨t.store.insert h.key b, ⟨.inr ⟨a, _, Function.update_self .., rfl, rfl, fun b' g hb hg => ?_⟩,
    forall_update (fun g hg => ?_) fun b' g hb hg => hc.placed b' g hg, hc.client_update fun c g hac _ => ?_⟩,
    .inr (.inl ⟨hf, b, hfind, rfl⟩)⟩
  · dsimp only at hg
    rw [Function.update_of_ne hb] at hg
    exact hnone b' g hg
  · cases hg
    exact hplaced
  · subst hac
    obtain ⟨-, val, hval⟩ := hc.client c h ha
    simp [Handling.findsFree, hval] at hf

/-- Any other step. -/
theorem Consistent.advance_touch (hc : t.Consistent S) (ha : t.threads a = some h) (hi : h.inserting = false)
    (hf : h.findsFree t.store = false) (hok : h.advance t.store = .ok (s', o)) :
    ∃ S', Consistent ⟨s', Function.update t.threads a o⟩ S' ∧ Becomes S h S' := by
  have hp := hc.placed a h ha
  obtain ⟨rfl, hnew⟩ := Handling.advance_touch hi hf hp hok
  have hext := (Handling.touches_touch hp).extends
  have hbecomes : Becomes S h (h.touch S) := .inr (.inr ⟨hi, hp.mono hi hc.extends, rfl⟩)
  have hclient : ∀ c g, Function.update t.threads a o (.client c) = some g →
      g.inserting = false ∧ ∃ val, g.job = .get val := by
    refine hc.client_update fun c g hac hg => ⟨(hnew g hg).1, ?_⟩
    subst hac hg
    obtain ⟨-, val, hval⟩ := hc.client c h ha
    have hjob := (Handling.advance_keeps hok).2.2
    cases hg : g.job with
    | set vals => exact absurd ((hjob vals).mp hg) (by simp [hval])
    | get val => exact ⟨val, rfl⟩
  rcases hc.complete with ⟨rfl, hnone⟩ | ⟨b, g, hb, hg, rfl, hrest⟩
  · refine ⟨_, ⟨.inl ⟨rfl, forall_update (fun g hg => (hnew g hg).1) fun b g _ hg => hnone b g hg⟩,
      forall_update (fun g hg => (hnew g hg).2) fun b g _ hg => ?_, hclient⟩, hbecomes⟩
    exact (hc.placed b g hg).mono (hnone b g hg) hext
  · have hba : b ≠ a := by
      rintro rfl
      obtain rfl := Option.some.inj (hb.symm.trans ha)
      rw [hi] at hg
      cases hg
    obtain ⟨hplaced, hfinish⟩ := Handling.finish_touch (hc.placed b g hb) hg hp
    refine ⟨_, ⟨.inr ⟨b, g, ?_, hg, hfinish.symm, ?_⟩, forall_update (fun g hg => (hnew g hg).2) ?_, hclient⟩,
      hbecomes⟩
    · dsimp only
      rwa [Function.update_of_ne hba]
    · intro b' g' hb' hg'
      dsimp only at hg'
      by_cases hba' : b' = a
      · subst hba'
        rw [Function.update_self] at hg'
        exact (hnew g' hg').1
      · rw [Function.update_of_ne hba'] at hg'
        exact hrest b' g' hb' hg'
    · intro b' g' hba' hg'
      by_cases hb' : b' = b
      · subst hb'
        obtain rfl := Option.some.inj (hb.symm.trans hg')
        exact hplaced
      · exact (hc.placed b' g' hg').mono (hrest b' g' hb' hg') hext

/-- Each step without a race keeps the threads out of each other's way. -/
theorem Consistent.advance (hc : t.Consistent S) (ha : t.threads a = some h) (hr : ¬ t.Races a)
    (hok : h.advance t.store = .ok (s', o)) :
    ∃ S', Consistent ⟨s', Function.update t.threads a o⟩ S' ∧ Becomes S h S' := by
  cases hi : h.inserting with
  | true => exact hc.advance_inserting ha hi hok
  | false =>
    cases hf : h.findsFree t.store with
    | true => exact hc.advance_findsFree ha hf hr hok
    | false => exact hc.advance_touch ha hi hf hok

/-! ### Keys that fit -/

variable {cap c : ℕ} {T : Finset ℕ} {keys : List ℕ} {vals : List Val} {store : KVStore Val} {g : Garbage Val}
  {val : Tensor Val}

/-- The threads keep out of each other's way, and the store gets keys of `T` only. -/
structure Fitting (cap : ℕ) (T : Finset ℕ) (t : LocalTable Val) : Prop where
  within : ∃ S, t.Consistent S ∧ Within cap T S
  keys : ∀ a h, t.threads a = some h → h.key ∈ T ∧ ∀ k ∈ h.keys, k ∈ T

theorem consistent_new (store : KVStore Val) : (LocalTable.new store).Consistent store where
  complete := .inl ⟨rfl, fun b h hb => by cases hb⟩
  placed b h hb := by cases hb
  client c h hc := by cases hc

theorem fitting_new (h : Within cap T store) : Fitting cap T (LocalTable.new store) :=
  ⟨⟨store, consistent_new store, h⟩, fun a h ha => by cases ha⟩

/-- A thread that enters a loop. -/
theorem Consistent.start {job : Job Val} (hc : t.Consistent S) (ha : t.threads a = none)
    (hjob : ∀ c, a = .client c → ∃ val, job = .get val) :
    Consistent { t with threads := Function.update t.threads a (some (.start keys job)) } S where
  complete := by
    have hnew : ∀ g, some (Handling.start keys job) = some g → g.inserting = false := by
      rintro g ⟨⟩
      rfl
    refine hc.complete.imp (fun h => ⟨h.1, forall_update hnew fun b g _ hg => h.2 b g hg⟩) ?_
    rintro ⟨b, h, hb, hi, hS, hrest⟩
    have hba : b ≠ a := by
      rintro rfl
      rw [ha] at hb
      cases hb
    refine ⟨b, h, (Function.update_of_ne hba ..).trans hb, hi, hS, fun b' g hb' hg => ?_⟩
    exact forall_update (Q := fun b' g => b' ≠ b → g.inserting = false) (fun g hg _ => hnew g hg)
      (fun b' g _ hg hb' => hrest b' g hb' hg) b' g hg hb'
  placed := forall_update (fun g hg => by cases hg; trivial) fun b g _ hg => hc.placed b g hg
  client := hc.client_update fun c g hac hg => by
    cases hg
    exact ⟨rfl, hjob c hac⟩

theorem Fitting.start {job : Job Val} (h : Fitting cap T t) (ha : t.threads a = none)
    (hjob : ∀ c, a = .client c → ∃ val, job = .get val) (hk : ∀ k ∈ keys, k ∈ T) :
    Fitting cap T { t with threads := Function.update t.threads a (some (.start keys job)) } := by
  obtain ⟨S, hc, hS⟩ := h.within
  obtain ⟨i, hi⟩ := hS.zero
  refine ⟨⟨S, hc.start ha hjob, hS⟩, forall_update (fun g hg => ?_) fun b g _ hg => h.keys b g hg⟩
  cases hg
  exact ⟨hS.mem i 0 hi, hk⟩

theorem Fitting.advance (h : Fitting cap T t) (hr : ¬ t.Races a) {x : Except Stop (LocalTable Val)}
    (hx : t.advance a = some x) (hok : x = .ok t') : Fitting cap T t' := by
  obtain ⟨S, hc, hS⟩ := h.within
  obtain ⟨g, hg, rfl⟩ := Option.map_eq_some_iff.mp hx
  obtain ⟨⟨store, o⟩, hstep, hok⟩ := bind_eq_ok.mp hok
  cases hok
  obtain ⟨hkey, hkeys⟩ := h.keys a g hg
  obtain ⟨S', hc', hbecomes⟩ := hc.advance hg hr hstep
  refine ⟨⟨S', hc', ?_⟩, forall_update (fun g' hg' => ?_) fun b g' _ hg' => h.keys b g' hg'⟩
  · rcases hbecomes with ⟨-, rfl⟩ | ⟨-, b, hfind, rfl⟩ | ⟨-, hp, rfl⟩
    · exact hS
    · exact hS.insert hkey hfind
    · have htouch := Handling.touches_touch hp
      generalize Handling.touch S g = u at htouch
      cases htouch with
      | read => exact hS
      | row => exact hS.write
      | flag => exact hS.setFlag
  · subst hg'
    obtain ⟨hsame, hnext, -⟩ := Handling.advance_keeps hstep
    rw [hsame]
    refine ⟨?_, hkeys⟩
    rcases hnext with heq | hmem
    · rwa [heq]
    · exact hkeys _ hmem

/-- No lookup ends at a full table. -/
theorem Fitting.advance_ne_fatal (h : Fitting cap T t) (hfit : Fits cap T) : t.advance a ≠ some (.error .fatal) := by
  intro hx
  obtain ⟨S, hc, hS⟩ := h.within
  obtain ⟨g, hg, hx⟩ := Option.map_eq_some_iff.mp hx
  rcases bind_eq_error.mp hx with hfatal | ⟨r, -, hr⟩
  · exact hS.find_ne_exhausted hfit (h.keys a g hg).1 (Handling.advance_fatal (hc.placed a g hg) hfatal hc.extends)
  · cases hr

end LocalTable
end Hpps.Kv

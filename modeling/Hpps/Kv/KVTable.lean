import Hpps.Common.Tensor
import Hpps.Kv.Checkpoint
import Hpps.Kv.Partition

/-! The parts of a KV table at its servers and workers, as a `Get` uses them. -/
namespace Hpps.Kv

open Rows KVStore

variable {ρ Val : Type}

/-- The parameter initializer of a server: `gen` draws as many values as it is asked for. -/
structure Random (ρ Val : Type) where
  gen : ρ → ℕ → List Val × ρ
  length_gen : ∀ r n, (gen r n).1.length = n

/-- A server's part of the table, as `ProcessGet` uses it. -/
structure ServerTable (ρ Val : Type) where
  random : ρ
  store : KVStore Val

namespace ServerTable

/-- One round of the loop of `ProcessGet`. A key that is new gets a random row first. -/
def getOne [Zero Val] (R : Random ρ Val) (st : ServerTable ρ Val) (vals : List Val) (i key : ℕ) :
    Except Stop (ServerTable ρ Val × List Val) := do
  let n := st.store.valueLen
  let (store, e) ← orFatal (st.store.get key false)
  match e with
  | some e =>
    let (row, random) := R.gen st.random n
    let st := if e.newData then ⟨random, store.write e.offset row⟩ else { st with store }
    let vals ← memcpy vals (i * n % 2 ^ 32) (st.store.read e.offset)
    return (st, vals)
  | none =>
    let vals ← memcpy vals (i * n % 2 ^ 32) (List.replicate n 0)
    return ({ st with store }, vals)

def getLoop [Zero Val] (R : Random ρ Val) :
    ℕ → List ℕ → ServerTable ρ Val → List Val → Except Stop (ServerTable ρ Val × List Val)
  | _, [], st, vals => .ok (st, vals)
  | i, key :: keys, st, vals => do
    let (st, vals) ← getOne R st vals i key
    let i ← incr i
    getLoop R i keys st vals

/-- `ProcessGet`: the reply holds the keys and a blob of as many rows, which must not be empty. -/
def processGet [Zero Val] (R : Random ρ Val) (g : Garbage Val) (st : ServerTable ρ Val)
    (keys : List ℕ) : Except Stop (ServerTable ρ Val × List ℕ × List Val) :=
  let size := keys.length * st.store.valueLen
  if size = 0 then .error .check
  else do
    let (st, vals) ← getLoop R 0 keys st ((List.range size).map g.val)
    return (st, keys, vals)

end ServerTable

namespace WorkerTable

/-- `ProcessReplyGet`: the rows of a reply go to the local store. -/
def processReplyGet (store : KVStore Val) (keys : List ℕ) (vals : List Val) :
    Except Stop (KVStore Val) :=
  let n := store.valueLen
  if keys.length * n = vals.length then
    forInt (fun store i key => orFatal (store.set key (rowAt n vals i) false)) 0 store keys
  else .error .check

/-- The loop of `GetFromLocal`; a key that is missing would be read from a null pointer. -/
def gather (store : KVStore Val) : ℕ → List ℕ → Tensor Val → Except Stop (Tensor Val)
  | _, [], val => .ok val
  | i, key :: keys, val => do
    let (_, e) ← orFatal (store.get key true)
    match e with
    | some e =>
      let val ← val.write (i * store.valueLen) (store.read e.offset)
      let i ← incr i
      gather store i keys val
    | none => throw .memory

def getFromLocal (store : KVStore Val) (g : Garbage Val) (keys : List ℕ) (val : Tensor Val) :
    Except Stop (Tensor Val) := do
  let val ← val.reshape g.val [keys.length % 2 ^ 32, store.valueLen]
  gather store 0 keys val

end WorkerTable

/-- Rows that were there are there still. -/
def Keeps (s t : KVStore Val) : Prop := ∀ key r, s.view key = some r → t.view key = some r

theorem Keeps.refl {s : KVStore Val} : Keeps s s := fun _ _ h => h

theorem Keeps.trans {s t u : KVStore Val} (h : Keeps s t) (h' : Keeps t u) : Keeps s u :=
  fun key r hr => h' key r (h key r hr)

theorem keeps_update {s t : KVStore Val} {key : ℕ} {r : Option (List Val × Bool)}
    (hnew : s.view key = none) (h : t.view = Function.update s.view key r) : Keeps s t := by
  intro k r' hr
  have hk : k ≠ key := by
    rintro rfl
    rw [hnew] at hr
    cases hr
  rw [h, Function.update_of_ne hk]
  exact hr

namespace ServerTable

variable [Zero Val] {R : Random ρ Val} {g : Garbage Val} {st st' : ServerTable ρ Val}
  {vals vals' : List Val} {keys : List ℕ} {i key : ℕ}

/-- The key has a row afterwards, and that row is what is copied to the reply. -/
theorem getOne_spec (h : Sound st.store) {done rest : List Val}
    (hi : done.length = i * st.store.valueLen) (hrest : st.store.valueLen ≤ rest.length)
    (hwrap : i * st.store.valueLen < 2 ^ 32) :
    Yields (getOne R st (done ++ rest) i key) fun r => ∃ row flag, Sound r.1.store ∧
      r.1.store.valueLen = st.store.valueLen ∧ row.length = st.store.valueLen ∧
      r.1.store.view key = some (row, flag) ∧ Keeps st.store r.1.store ∧
      r.2 = done ++ row ++ rest.drop st.store.valueLen := by
  have hcopy : ∀ row : List Val, row.length = st.store.valueLen →
      memcpy (done ++ rest) (i * st.store.valueLen % 2 ^ 32) row =
        .ok (done ++ row ++ rest.drop st.store.valueLen) := by
    intro row hrow
    rw [Nat.mod_eq_of_lt hwrap, memcpy_append hi (by omega), hrow]
  refine (Yields.orFatal _).bind fun r hget => ?_
  obtain ⟨store, e⟩ := r
  obtain ⟨e, rfl, hf⟩ := h.get_mutable hget
  dsimp only
  cases hn : e.newData with
  | false =>
    obtain rfl := hf.old hn
    simp only [Bool.false_eq_true, if_false, hcopy _ length_read]
    refine .ok ⟨_, e.immutable, hf.sound, rfl, length_read, ?_, .refl, rfl⟩
    rw [hf.sound.view_of_slot hf.slot, hf.offset, hf.immutable]
  | true =>
    have hlen := R.length_gen st.random st.store.valueLen
    have hview := hf.view_write hlen
    simp only [if_true, read_write_self (hlen.trans hf.valueLen.symm), hcopy _ hlen]
    refine .ok ⟨_, e.immutable, hf.sound.write, hf.valueLen, hlen, ?_,
      keeps_update (hf.new hn).1 hview, rfl⟩
    rw [hview, Function.update_self]

/-- The row a key is mapped to. -/
def rowOf (s : KVStore Val) (key : ℕ) : List Val := ((s.view key).map Prod.fst).getD []

/-- After the loop each key has a row, and its row stands in the reply at its position. -/
theorem getLoop_spec (h : Sound st.store) (done : List Val) {rest : List Val}
    (hi : done.length = i * st.store.valueLen)
    (hrest : rest.length = keys.length * st.store.valueLen)
    (hwrap : ∀ j < i + keys.length, j * st.store.valueLen < 2 ^ 32) (hint : i + keys.length < 2 ^ 31) :
    Yields (getLoop R i keys st (done ++ rest)) fun r => Sound r.1.store ∧
      r.1.store.valueLen = st.store.valueLen ∧ Keeps st.store r.1.store ∧
      (∀ k ∈ keys, ∃ row flag, r.1.store.view k = some (row, flag) ∧
        row.length = st.store.valueLen) ∧
      r.2 = done ++ keys.flatMap (rowOf r.1.store) := by
  induction keys generalizing i st done rest with
  | nil =>
    have : rest = [] := List.eq_nil_of_length_eq_zero (by simpa using hrest)
    exact .ok ⟨h, rfl, .refl, by simp, by simp [this]⟩
  | cons key keys ih =>
    rw [List.length_cons, Nat.succ_mul] at hrest
    refine (getOne_spec h hi (by omega) (hwrap i (by simp))).bind ?_
    rintro ⟨st₁, vals₁⟩ ⟨row, flag, hs₁, hv₁, hlen, hview, hkeep, rfl⟩
    rw [List.length_cons] at hint
    dsimp only at hs₁ hv₁ hview hkeep ⊢
    rw [incr_eq (by omega), ok_bind]
    refine (ih hs₁ _ (by rw [List.length_append, hi, hlen, hv₁, Nat.succ_mul])
      (by rw [List.length_drop, hv₁]; omega)
      (by rw [hv₁]; intro j hj; exact hwrap j (by rw [List.length_cons]; omega)) (by omega)).mono ?_
    rintro ⟨st', vals'⟩ ⟨hs', hv', hkeep', hall, hvals⟩
    dsimp only at hs' hv' hkeep' hall hvals ⊢
    subst hvals
    have hrow := hkeep' key _ hview
    refine ⟨hs', hv'.trans hv₁, hkeep.trans hkeep', ?_, ?_⟩
    · rw [List.forall_mem_cons]
      exact ⟨⟨row, flag, hrow, hlen⟩, hv₁ ▸ hall⟩
    · rw [List.flatMap_cons, rowOf, hrow, List.append_assoc]
      rfl

theorem processGet_spec (h : Sound st.store) (hpos : 0 < keys.length * st.store.valueLen)
    (hwrap : ∀ j < keys.length, j * st.store.valueLen < 2 ^ 32) (hint : keys.length < 2 ^ 31) :
    Yields (processGet R g st keys) fun r => r.2.1 = keys ∧ Sound r.1.store ∧
      (∀ k ∈ keys, ∃ row flag, r.1.store.view k = some (row, flag) ∧
        row.length = st.store.valueLen) ∧
      r.2.2 = keys.flatMap (rowOf r.1.store) := by
  unfold processGet
  rw [if_neg (by omega)]
  refine (getLoop_spec h [] (by simp) (by simp) (by simpa using hwrap) (by simpa using hint)).bind ?_
  rintro ⟨st', vals'⟩ ⟨hs', -, -, hall, hvals⟩
  exact .ok ⟨rfl, hs', hall, by simpa using hvals⟩

end ServerTable

namespace WorkerTable

variable {store : KVStore Val} {g : Garbage Val} {keys : List ℕ} {row' : ℕ → List Val} {i : ℕ}
  {val : Tensor Val}

/-- Rows that are all in the local store are copied out in the order of the keys. -/
theorem gather_spec (h : Sound store) (done : List Val) {rest : List Val}
    (hall : ∀ k ∈ keys, store.view k = some (row' k, false)) (hi : done.length = i * store.valueLen)
    (hblob : val.blob = done ++ rest) (hrest : keys.length * store.valueLen ≤ rest.length)
    (hint : i + keys.length < 2 ^ 31) :
    ∃ val', gather store i keys val = .ok val' ∧ val'.shape = val.shape ∧ val'.size = val.size ∧
      val'.blob = done ++ keys.flatMap row' ++ rest.drop (keys.length * store.valueLen) := by
  induction keys generalizing i val done rest with
  | nil => exact ⟨val, rfl, rfl, rfl, by simp [hblob]⟩
  | cons key keys ih =>
    rw [List.forall_mem_cons] at hall
    rw [List.length_cons, Nat.succ_mul] at hrest
    rw [List.length_cons] at hint
    obtain ⟨b, hslot, hrow⟩ := h.view_eq_some_iff.mp hall.1
    have hread : store.read (store.node b).offset.toNat = row' key := (Prod.mk.inj hrow).1.symm
    have hlen : (row' key).length = store.valueLen := hread ▸ length_read
    have hget : store.get key true = some (store, some ⟨b, (store.node b).offset.toNat, true, false⟩) := by
      rw [KVStore.get, h.find_hit_iff.mpr hslot]
      rfl
    have hfits : (row' key).length ≤ rest.length := by omega
    obtain ⟨u, hw, hshape, hsize, hu⟩ := Tensor.write_append hblob hi hfits
    obtain ⟨val', hgo, hshape', hsize', hblob'⟩ := ih _ hall.2
      (by rw [List.length_append, hi, hlen, Nat.succ_mul]) (hlen ▸ hu)
      (by rw [List.length_drop]; omega) (by omega)
    refine ⟨val', ?_, hshape'.trans hshape, hsize'.trans hsize, ?_⟩
    · simp only [gather, hget, orFatal, Option.elim_some, ok_bind, hread, hw, incr_eq (show i + 1 < 2 ^ 31 by omega), hgo]
    · rw [hblob', List.drop_drop, List.flatMap_cons, List.length_cons, Nat.succ_mul, Nat.add_comm]
      simp only [List.append_assoc]

/-- The tensor holds the rows of the keys, if a tensor can hold that many values. -/
theorem getFromLocal_spec (g : Garbage Val) (val : Tensor Val) (h : Sound store) (hne : keys ≠ []) (hpos : 0 < store.valueLen)
    (hsize : keys.length * store.valueLen < 2 ^ 31)
    (hall : ∀ k ∈ keys, store.view k = some (row' k, false)) :
    ∃ val', getFromLocal store g keys val = .ok val' ∧
      val'.shape = [keys.length, store.valueLen] ∧ ∃ rest, val'.blob = keys.flatMap row' ++ rest := by
  have hl := List.length_pos_of_ne_nil hne
  have hint : keys.length < 2 ^ 31 := (Nat.le_mul_of_pos_right keys.length hpos).trans_lt hsize
  have hprod : [keys.length, store.valueLen].prod < 2 ^ 31 := by simpa using hsize
  obtain ⟨u, hu, hshape, husize, hroom, -⟩ := val.reshape_spec g.val hprod (by simp [hl, hpos])
  obtain ⟨val', hgo, hshape', -, hblob⟩ := gather_spec (i := 0) h [] hall (by simp)
    (List.nil_append u.blob).symm (by rw [husize] at hroom; simpa using hroom) (by simpa using hint)
  refine ⟨val', ?_, hshape'.trans hshape, _, by rw [hblob, List.nil_append]⟩
  rw [getFromLocal, Nat.mod_eq_of_lt (by omega), hu, ok_bind, hgo]

end WorkerTable

end Hpps.Kv

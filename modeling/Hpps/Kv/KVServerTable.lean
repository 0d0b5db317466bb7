import Hpps.Kv.KVTable
import Hpps.Updater.Updater

/-! `KVServerTable`: the requests that a server handles, one after the other. -/
namespace Hpps.Kv

open Rows KVStore

/-- The row of a key is filled by the initializer or with zeros, copied into a reply, or passed to the
updater. -/
inductive RowEvent
  | fill (key : ℕ)
  | reply (key : ℕ)
  | update (key : ℕ)
  deriving DecidableEq, Repr

/-- The logs `log` and `replies` are not read. -/
structure KVServerTable (ρ Val : Type) extends ServerTable ρ Val where
  updater : Updater Val
  log : List RowEvent
  replies : List (List ℕ × List Val)

/-- The blobs of an Add, which may carry an option. -/
structure KVAdd (Val : Type) where
  keys : List ℕ
  vals : List Val
  option : Option (AddOption Val)

inductive KVRequest (Val : Type)
  | get (keys : List ℕ)
  | add (a : KVAdd Val)

/-- The process that the table lives in. -/
structure KVProcess (ρ Val : Type) where
  random : Random ρ Val
  garbage : Garbage Val
  numWorkers : ℕ
  workerRank : ℤ
  updaterType : String
  sqrt : Val → Val

namespace KVServerTable

variable {ρ Val : Type} [Field Val] (P : KVProcess ρ Val) (st : KVServerTable ρ Val)

/-- The constructor, with the seed of the initializer. -/
def new (initCapacity valueLen : ℕ) (solver : String) (seed : ρ) : Option (KVServerTable ρ Val) :=
  (KVStore.new initCapacity valueLen P.garbage).map fun store =>
    { random := seed
      store := store
      updater := .getUpdater P.numWorkers P.updaterType initCapacity solver
      log := [.fill 0]
      replies := [] }

/-- Whether `Get` makes a new row for the key. -/
def isNew (key : ℕ) : Bool :=
  match st.store.get key false with
  | some (_, some e) => e.newData
  | _ => false

/-- One round of the loop of `ProcessGet`. -/
def getOne (vals : List Val) (i key : ℕ) : Except Stop (KVServerTable ρ Val × List Val) := do
  let (t, vals) ← ServerTable.getOne P.random st.toServerTable vals i key
  return ({ st with
    toServerTable := t
    log := st.log ++ (if st.isNew key then [.fill key, .reply key] else [.reply key]) }, vals)

def getLoop : ℕ → List ℕ → KVServerTable ρ Val → List Val → Except Stop (KVServerTable ρ Val × List Val)
  | _, [], st, vals => .ok (st, vals)
  | i, key :: keys, st, vals => do
    let (st, vals) ← getOne P st vals i key
    let i ← incr i
    getLoop i keys st vals

def processGet (keys : List ℕ) : Except Stop (KVServerTable ρ Val) :=
  let size := keys.length * st.store.valueLen
  if size = 0 then .error .check
  else do
    let (t, vals) ← getLoop P 0 keys st ((List.range size).map P.garbage.val)
    return { t with replies := t.replies ++ [(keys, vals)] }

/-- One round of the loop of `ProcessAdd`. What the lookup says of new data is not read, and the offset
that the updater is passed is zero. -/
def addOne (option : AddOption Val) (key : ℕ) (delta : List Val) : Except Stop (KVServerTable ρ Val) := do
  let (store, e) ← orFatal (st.store.get key false)
  match e with
  | some e =>
    if e.immutable then return { st with store }
    else
      let (updater, row) ← st.updater.update P.numWorkers P.sqrt store.valueLen (store.read e.offset) delta option 0
      return { st with
        store := store.write e.offset row
        updater := updater
        log := st.log ++ [.update key] }
  | none => throw .memory

def processAdd (a : KVAdd Val) : Except Stop (KVServerTable ρ Val) :=
  let n := st.store.valueLen
  let option := a.option.getD (.new P.workerRank)
  if a.keys.length * n = a.vals.length then
    forInt (fun st i key => addOne P st option key (rowAt n a.vals i)) 0 st a.keys
  else .error .check

/-- A request that ends the process leads nowhere. -/
def step : KVRequest Val → Option (KVServerTable ρ Val)
  | .get keys => (processGet P st keys).toOption
  | .add a => (processAdd P st a).toOption

/-! ### One round -/

variable {P st} {t : KVServerTable ρ Val} {s : KVStore Val} {e : Entry} {key k i n : ℕ}
  {keys : List ℕ} {vals vals' delta : List Val} {option : AddOption Val} {a : KVAdd Val}

omit [Field Val] in
theorem isNew_eq (h : st.store.get key false = some (s, some e)) : st.isNew key = e.newData := by
  simp [isNew, h]

/-- A round of a Get: a key that is new gets a row of random values, and nothing else changes. -/
theorem getOne_cases (h : Sound st.store) (hok : getOne P st vals i key = .ok (t, vals')) :
    Sound t.store ∧ t.store.valueLen = st.store.valueLen ∧ t.updater = st.updater ∧ t.replies = st.replies ∧
      ((∃ r, st.store.view key = some r ∧ t.store.view = st.store.view ∧ t.log = st.log ++ [.reply key]) ∨
        ∃ row, row.length = st.store.valueLen ∧ st.store.view key = none ∧
          t.store.view = Function.update st.store.view key (some (row, false)) ∧
          t.log = st.log ++ [.fill key, .reply key]) := by
  obtain ⟨⟨u, vals₁⟩, hone, hok⟩ := bind_eq_ok.mp hok
  cases hok
  obtain ⟨⟨store, r⟩, hget, hone⟩ := bind_eq_ok.mp hone
  rw [orFatal_eq_ok_iff] at hget
  obtain ⟨e, rfl, hf⟩ := h.get_mutable hget
  obtain ⟨vals₂, -, hone⟩ := bind_eq_ok.mp hone
  cases hone
  rw [isNew_eq hget]
  cases hn : e.newData with
  | false =>
    obtain rfl := hf.old hn
    exact ⟨hf.sound, rfl, rfl, rfl, .inl ⟨_, hf.sound.view_of_slot hf.slot, rfl, rfl⟩⟩
  | true =>
    have hlen := P.random.length_gen st.random st.store.valueLen
    have hview := hf.view_write hlen
    rw [(hf.new hn).2.1] at hview
    exact ⟨hf.sound.write, hf.valueLen, rfl, rfl, .inr ⟨_, hlen, (hf.new hn).1, hview, rfl⟩⟩

/-- A round of an Add: an immutable row stays as it is, another one becomes what the updater makes of it. -/
theorem addOne_cases (h : Sound st.store) (hok : addOne P st option key delta = .ok t) :
    Sound t.store ∧ t.store.valueLen = st.store.valueLen ∧ t.replies = st.replies ∧
      ((∃ row, st.store.view key = some (row, true) ∧ t.store.view = st.store.view ∧
          t.updater = st.updater ∧ t.log = st.log) ∨
        ∃ row row', (st.store.view key = some (row, false) ∨ st.store.view key = none) ∧
          st.updater.update P.numWorkers P.sqrt st.store.valueLen row delta option 0 = .ok (t.updater, row') ∧
          t.store.view = Function.update st.store.view key (some (row', false)) ∧
          t.log = st.log ++ [.update key]) := by
  obtain ⟨⟨store, r⟩, hget, hok⟩ := bind_eq_ok.mp hok
  rw [orFatal_eq_ok_iff] at hget
  obtain ⟨e, rfl, hf⟩ := h.get_mutable hget
  dsimp only at hok
  have hold : e.newData = false → st.store.view key = some (st.store.read e.offset, e.immutable) := by
    intro hn
    obtain rfl := hf.old hn
    rw [hf.sound.view_of_slot hf.slot, hf.offset, hf.immutable]
  cases himm : e.immutable with
  | true =>
    rw [himm, if_pos rfl] at hok
    cases hok
    cases hn : e.newData with
    | false =>
      obtain rfl := hf.old hn
      exact ⟨hf.sound, rfl, rfl, .inl ⟨_, himm ▸ hold hn, rfl, rfl, rfl⟩⟩
    | true =>
      have := (hf.new hn).2.1
      rw [himm] at this
      cases this
  | false =>
    rw [himm, if_neg Bool.false_ne_true] at hok
    obtain ⟨⟨updater, row'⟩, hu, hok⟩ := bind_eq_ok.mp hok
    cases hok
    have hlen : row'.length = st.store.valueLen :=
      (Updater.length_update hu).trans (length_read.trans hf.valueLen)
    have hview := hf.view_write hlen
    rw [himm] at hview
    rw [hf.valueLen] at hu
    refine ⟨hf.sound.write, hf.valueLen, rfl, .inr ⟨store.read e.offset, row', ?_, hu, hview, rfl⟩⟩
    cases hn : e.newData with
    | false =>
      obtain rfl := hf.old hn
      exact .inl (himm ▸ hold hn)
    | true => exact .inr (hf.new hn).1

/-! ### A request -/

/-- What each round keeps, a Get keeps, up to the log of replies. -/
theorem getLoop_induct {Q : KVServerTable ρ Val → Prop}
    (hround : ∀ st vals i key t vals', Q st → getOne P st vals i key = .ok (t, vals') → Q t)
    (h : Q st) (hok : getLoop P i keys st vals = .ok (t, vals')) : Q t := by
  induction keys generalizing st vals i with
  | nil =>
    cases hok
    exact h
  | cons key keys ih =>
    obtain ⟨⟨u, vals₁⟩, hone, hok⟩ := bind_eq_ok.mp hok
    obtain ⟨j, -, hok⟩ := bind_eq_ok.mp hok
    exact ih (hround st vals i key u vals₁ h hone) hok

theorem lt_of_getLoop (hok : getLoop P i keys st vals = .ok (t, vals')) (hi : i < 2 ^ 31) :
    i + keys.length < 2 ^ 31 := by
  induction keys generalizing st vals i with
  | nil => simpa using hi
  | cons key keys ih =>
    obtain ⟨⟨u, vals₁⟩, -, hok⟩ := bind_eq_ok.mp hok
    obtain ⟨j, hj, hok⟩ := bind_eq_ok.mp hok
    obtain ⟨hlt, rfl⟩ := incr_eq_ok_iff.mp hj
    have := ih hok hlt
    rw [List.length_cons]
    omega

/-- What each round for a key of the request keeps, an Add keeps. -/
theorem processAdd_induct {Q : KVServerTable ρ Val → Prop}
    (hround : ∀ st option key delta t, key ∈ a.keys → Q st → addOne P st option key delta = .ok t → Q t)
    (h : Q st) (hok : processAdd P st a = .ok t) : Q t := by
  unfold processAdd at hok
  dsimp only at hok
  split at hok
  · exact forInt_induct (fun u i key hkey v hu hv => hround u _ key _ v hkey hu hv) h hok
  · cases hok

theorem processGet_cases (hok : processGet P st keys = .ok t) : ∃ u vals,
    getLoop P 0 keys st ((List.range (keys.length * st.store.valueLen)).map P.garbage.val) = .ok (u, vals) ∧
      0 < keys.length * st.store.valueLen ∧ t = { u with replies := u.replies ++ [(keys, vals)] } := by
  unfold processGet at hok
  dsimp only at hok
  split at hok
  · cases hok
  · rename_i hsize
    obtain ⟨⟨u, vals⟩, hloop, hok⟩ := bind_eq_ok.mp hok
    cases hok
    exact ⟨u, vals, hloop, Nat.pos_of_ne_zero hsize, rfl⟩

/-- Without the logs it is the loop of `ServerTable`. -/
theorem getLoop_toServerTable (hok : getLoop P i keys st vals = .ok (t, vals')) :
    ServerTable.getLoop P.random i keys st.toServerTable vals = .ok (t.toServerTable, vals') := by
  induction keys generalizing st vals i with
  | nil =>
    cases hok
    rfl
  | cons key keys ih =>
    obtain ⟨⟨u, vals₁⟩, hone, hok⟩ := bind_eq_ok.mp hok
    obtain ⟨⟨v, vals₂⟩, hv, hone⟩ := bind_eq_ok.mp hone
    cases hone
    obtain ⟨j, hj, hok⟩ := bind_eq_ok.mp hok
    rw [ServerTable.getLoop, hv, ok_bind]
    dsimp only
    rw [hj, ok_bind]
    exact ih hok

theorem step_eq_some {m : KVRequest Val} (h : step P st m = some t) :
    (∃ keys, m = .get keys ∧ processGet P st keys = .ok t) ∨ ∃ a, m = .add a ∧ processAdd P st a = .ok t := by
  cases m with
  | get keys => exact .inl ⟨keys, rfl, toOption_eq_some.mp h⟩
  | add a => exact .inr ⟨a, rfl, toOption_eq_some.mp h⟩

theorem getOne_replies (hok : getOne P st vals i key = .ok (t, vals')) : t.replies = st.replies := by
  obtain ⟨⟨u, vals₁⟩, -, hok⟩ := bind_eq_ok.mp hok
  cases hok
  rfl

theorem processAdd_replies (h : Sound st.store) (hok : KVServerTable.processAdd P st a = .ok t) :
    t.replies = st.replies :=
  (processAdd_induct (Q := fun u => Sound u.store ∧ u.replies = st.replies)
    (fun _ _ _ _ _ _ hu hone => ⟨(addOne_cases hu.1 hone).1, (addOne_cases hu.1 hone).2.2.1.trans hu.2⟩)
    ⟨h, rfl⟩ hok).2

end KVServerTable

/-- A process for small tests. -/
def testProcess : KVProcess Unit ℚ where
  random := ⟨fun _ n => (List.replicate n 5, ()), by simp⟩
  garbage := ⟨fun _ => 0, fun _ => 1⟩
  numWorkers := 2
  workerRank := 0
  updaterType := "adam"
  sqrt := id

end Hpps.Kv

import Hpps.Kv.KVStore
import Hpps.Common.Stop

/-! `KVWorkerTable::Partition`: a request's keys and rows spread over the servers, and what a
server does with its share of an Add. -/
namespace Hpps.Kv

open Rows

/-- The blobs of one message: the keys and, in an Add, their rows. -/
structure Blobs (Val : Type) where
  keys : List ℕ
  vals : Option (List Val)

/-- `data + i * value_len`: the product of two 32-bit numbers wraps. -/
def rowAt {Val : Type} (valueLen : ℕ) (vals : List Val) (i : ℕ) : List Val :=
  (vals.drop (i * valueLen % 2 ^ 32)).take valueLen

namespace Partition

variable {Val : Type} {numServers valueLen : ℕ} {keys : List ℕ} {vals : Option (List Val)}
  {g : Garbage Val}

/-- The messages by destination, and how many keys of each are filled in. -/
structure State (Val : Type) where
  out : ℕ → Option (Blobs Val)
  counts : ℕ → ℕ

/-- The first loop counts the keys of each destination. Its index and the counts are of type `int`. -/
def countKeys (numServers : ℕ) (keys : List ℕ) : Except Stop (ℕ → ℕ) :=
  forInt (fun counts _ key => do
    let count ← incr (counts (key % numServers))
    return Function.update counts (key % numServers) count) 0 (fun _ => 0) keys

/-- Blobs of exact size, not cleared. -/
def alloc (valueLen : ℕ) (twoBlobs : Bool) (g : Garbage Val) (count : ℕ) : Blobs Val where
  keys := (List.range count).map g.key
  vals := if twoBlobs then some ((List.range (count * valueLen)).map g.val) else none

/-- Key `p.1` of position `p.2` and its row go to their message. -/
def put (numServers valueLen : ℕ) (vals : Option (List Val)) (st : State Val) (p : ℕ × ℕ) : State Val :=
  let dst := p.1 % numServers
  let count := st.counts dst
  { out := Function.update st.out dst ((st.out dst).map fun b =>
      { keys := b.keys.set count p.1
        vals := match vals with
          | none => b.vals
          | some vals => b.vals.map fun out =>
            overwrite out (count * valueLen % 2 ^ 32) (rowAt valueLen vals p.2) })
    counts := Function.update st.counts dst (count + 1) }

/-- One round of the last loop, as long as the count is an `int`. -/
def place (numServers valueLen : ℕ) (vals : Option (List Val)) (st : State Val) (i key : ℕ) :
    Except Stop (State Val) := do
  let _ ← incr (st.counts (key % numServers))
  return put numServers valueLen vals st (key, i)

/-- A blob without bytes fails a CHECK. -/
def partition (numServers valueLen : ℕ) (g : Garbage Val) (keys : List ℕ)
    (vals : Option (List Val)) : Except Stop (ℕ × (ℕ → Option (Blobs Val))) := do
  let counts ← countKeys numServers keys
  if vals.isSome ∧ valueLen = 0 ∧ keys ≠ [] then throw .check
  else
    let out := fun dst => if counts dst = 0 then none else some (alloc valueLen vals.isSome g (counts dst))
    let st ← forInt (place numServers valueLen vals) 0 ⟨out, fun _ => 0⟩ keys
    return ((List.range numServers).countP fun dst => (st.out dst).isSome, st.out)

/-- The keys a server owns, each with its position in the request. -/
def owned (numServers : ℕ) (keys : List ℕ) (dst : ℕ) : List (ℕ × ℕ) :=
  keys.zipIdx.filter fun p => p.1 % numServers = dst

/-- How many of the keys belong to each server. -/
def counted (numServers : ℕ) (keys : List ℕ) (dst : ℕ) : ℕ := keys.countP fun key => key % numServers = dst

theorem counted_le (dst : ℕ) : counted numServers keys dst ≤ keys.length := List.countP_le_length

/-- As long as the index is an `int`, so are the counts. -/
theorem countKeys_eq (h : keys.length < 2 ^ 31) : countKeys numServers keys = .ok (counted numServers keys) := by
  have hgo := forInt_pure (i := 0) (a := fun _ => 0) (l := keys)
    (f := fun (counts : ℕ → ℕ) _ key => do
      let count ← incr (counts (key % numServers))
      return Function.update counts (key % numServers) count)
    (h := fun counts _ key => Function.update counts (key % numServers) (counts (key % numServers) + 1))
    (Q := fun i counts => ∀ dst, counts dst ≤ i) (fun i counts key hcounts hi => ?_) (fun _ => le_rfl)
    (by simpa using h)
  · have hfold : ∀ (l : List ℕ) (i : ℕ) (counts : ℕ → ℕ), (l.zipIdx i).foldl (fun counts p =>
        Function.update counts (p.1 % numServers) (counts (p.1 % numServers) + 1)) counts =
          fun dst => counts dst + counted numServers l dst := by
      intro l
      induction l with
      | nil => exact fun _ _ => rfl
      | cons key l ih =>
        intro i counts
        rw [List.zipIdx_cons, List.foldl_cons, ih]
        funext dst
        by_cases hd : key % numServers = dst
        · subst hd
          simp only [counted, Function.update_self, List.countP_cons, decide_true, if_true]
          omega
        · simp [counted, hd, Ne.symm hd]
    rw [hfold] at hgo
    refine hgo.trans ?_
    simp
  · have hle := hcounts (key % numServers)
    refine ⟨by rw [incr_eq (by omega)]; rfl, fun dst => ?_⟩
    by_cases hd : dst = key % numServers
    · subst hd
      rw [Function.update_self]
      omega
    · rw [Function.update_of_ne hd]
      exact (hcounts dst).trans (Nat.le_succ i)

theorem lt_of_countKeys {counts : ℕ → ℕ} (h : countKeys numServers keys = .ok counts) : keys.length < 2 ^ 31 := by
  simpa using lt_of_forInt h (by norm_num)

/-- The last loop, as long as its index is an `int`. -/
theorem forInt_place {start : ℕ → Option (Blobs Val)} (h : keys.length < 2 ^ 31) :
    forInt (place numServers valueLen vals) 0 ⟨start, fun _ => 0⟩ keys =
      .ok (keys.zipIdx.foldl (put numServers valueLen vals) ⟨start, fun _ => 0⟩) := by
  apply forInt_pure (h := fun st i key => put numServers valueLen vals st (key, i))
    (Q := fun i st => ∀ dst, st.counts dst ≤ i) (fun i st key hcounts hi => ?_) (fun _ => le_rfl) (by simpa using h)
  have hle := hcounts (key % numServers)
  refine ⟨by rw [place, incr_eq (by omega)]; rfl, fun dst => ?_⟩
  by_cases hd : dst = key % numServers
  · subst hd
    simp only [put, Function.update_self]
    omega
  · simp only [put, Function.update_of_ne hd]
    exact (hcounts dst).trans (Nat.le_succ i)

/-- What is filled in after the pairs `ps`. -/
def Filled (numServers valueLen : ℕ) (vals : Option (List Val)) (start : ℕ → Option (Blobs Val))
    (ps : List (ℕ × ℕ)) (st : State Val) : Prop :=
  ∀ dst, let mine := ps.filter fun p => p.1 % numServers = dst
    st.counts dst = mine.length ∧
      st.out dst = (start dst).map fun b =>
        { keys := mine.map Prod.fst ++ b.keys.drop mine.length
          vals := match vals with
            | none => b.vals
            | some vals => b.vals.map fun out =>
              mine.flatMap (fun p => row valueLen vals p.2) ++ out.drop (mine.length * valueLen) }

/-- The rows of the given positions lie in the array, and no 32-bit product wraps. -/
def InRange (valueLen : ℕ) (vals : List Val) (ps : List (ℕ × ℕ)) : Prop :=
  (∀ p ∈ ps, (p.2 + 1) * valueLen ≤ vals.length ∧ p.2 * valueLen < 2 ^ 32) ∧
    ∀ i < ps.length, i * valueLen < 2 ^ 32

theorem InRange.init {vals : List Val} {ps : List (ℕ × ℕ)} {p : ℕ × ℕ}
    (h : InRange valueLen vals (ps ++ [p])) : InRange valueLen vals ps :=
  ⟨fun q hq => h.1 q (by simp [hq]), fun i hi => h.2 i (by simp; omega)⟩

theorem rowAt_eq {vals : List Val} {i : ℕ} (h : i * valueLen < 2 ^ 32) :
    rowAt valueLen vals i = row valueLen vals i := by
  rw [rowAt, row, Nat.mod_eq_of_lt h]

theorem set_append_drop {l r : List ℕ} {n x : ℕ} (hl : l.length = n) (h : n < r.length) :
    (l ++ r.drop n).set n x = l ++ [x] ++ r.drop (n + 1) := by
  subst hl
  rw [List.set_append_right _ _ le_rfl, Nat.sub_self, List.drop_eq_getElem_cons h,
    List.set_cons_zero, List.append_assoc, List.singleton_append]

/-- Each round appends its key and its row to the message of their destination. -/
theorem filled_foldl {start : ℕ → Option (Blobs Val)} (ps : List (ℕ × ℕ))
    (hkeys : ∀ dst b, start dst = some b →
      (ps.filter fun p => p.1 % numServers = dst).length ≤ b.keys.length)
    (hvals : ∀ v, vals = some v → InRange valueLen v ps) :
    Filled numServers valueLen vals start ps
      (ps.foldl (put numServers valueLen vals) ⟨start, fun _ => 0⟩) := by
  induction ps using List.reverseRecOn with
  | nil =>
    intro dst
    refine ⟨rfl, ?_⟩
    cases vals <;> simp [Option.map_id_fun']
  | append_singleton ps p ih =>
    have hlen : ∀ dst b, start dst = some b →
        (ps.filter fun p => p.1 % numServers = dst).length ≤ b.keys.length := by
      intro dst b hb
      have := hkeys dst b hb
      rw [List.filter_append, List.length_append] at this
      omega
    have ih := ih hlen fun v hv => (hvals v hv).init
    rw [List.foldl_append, List.foldl_cons, List.foldl_nil]
    generalize ps.foldl (put numServers valueLen vals) ⟨start, fun _ => 0⟩ = st at ih
    intro dst
    obtain ⟨hc, ho⟩ := ih dst
    by_cases hd : p.1 % numServers = dst
    · have hmine : (ps ++ [p]).filter (fun p => p.1 % numServers = dst) =
          (ps.filter fun p => p.1 % numServers = dst) ++ [p] := by simp [hd]
      have hroom := hkeys dst
      have hle : (ps.filter fun p => p.1 % numServers = dst).length ≤ ps.length :=
        List.length_filter_le ..
      have hsub : ∀ q ∈ ps.filter (fun p => p.1 % numServers = dst), q ∈ ps ++ [p] := by
        intro q hq
        exact List.mem_append_left _ (List.mem_of_mem_filter hq)
      simp only [hmine, put, hd, Function.update_self, List.length_append, List.length_singleton,
        ho, hc] at hroom ⊢
      generalize ps.filter (fun p => p.1 % numServers = dst) = mine at *
      refine ⟨trivial, ?_⟩
      rw [Option.map_map]
      cases hb : start dst with
      | none => rfl
      | some b =>
        have hroom := hroom b hb
        simp only [Option.map_some, Function.comp_apply, Option.some.injEq, Blobs.mk.injEq]
        constructor
        · rw [set_append_drop (List.length_map ..) (by omega), List.map_append]
          rfl
        · cases vals with
          | none => rfl
          | some v =>
            obtain ⟨hrows, hwrap⟩ := hvals v rfl
            have hp := hrows p (by simp)
            have hrow := length_row hp.1
            have hfl : (mine.flatMap fun p => row valueLen v p.2).length = mine.length * valueLen :=
              length_flatMap fun q hq => length_row (hrows q (hsub q hq)).1
            cases b.vals with
            | none => rfl
            | some out =>
              simp only [Option.map_some, Option.some.injEq]
              rw [rowAt_eq hp.2, Nat.mod_eq_of_lt (hwrap _ (by simp; omega)), overwrite_append hfl,
                List.drop_drop, hrow, List.flatMap_append, Nat.succ_mul]
              simp
    · have hmine : (ps ++ [p]).filter (fun p => p.1 % numServers = dst) =
          ps.filter fun p => p.1 % numServers = dst := by simp [hd]
      simp only [hmine, put, Function.update_of_ne (Ne.symm hd)]
      exact ⟨hc, ho⟩

/-- The messages without their rows. -/
def State.keysOnly (st : State Val) : State Val :=
  { st with out := fun dst => (st.out dst).map fun b => { b with vals := none } }

theorem keysOnly_foldl {st : State Val} (ps : List (ℕ × ℕ)) :
    (ps.foldl (put numServers valueLen vals) st).keysOnly =
      ps.foldl (put numServers valueLen none) st.keysOnly := by
  induction ps generalizing st with
  | nil => rfl
  | cons p ps ih =>
    rw [List.foldl_cons, List.foldl_cons, ih]
    congr 1
    simp only [put, State.keysOnly, State.mk.injEq, and_true]
    funext dst
    by_cases hd : dst = p.1 % numServers
    · subst hd
      cases vals <;> cases st.out (p.1 % numServers) <;> simp
    · simp [hd]

/-- The message a server is owed: its keys in the order of the request, each with its own row. -/
def share (numServers valueLen : ℕ) (keys : List ℕ) (vals : Option (List Val)) (dst : ℕ) :
    Option (Blobs Val) :=
  if owned numServers keys dst = [] then none
  else some {
    keys := (owned numServers keys dst).map Prod.fst
    vals := vals.map fun vals => (owned numServers keys dst).flatMap fun p => row valueLen vals p.2 }

/-- An `int` counts the keys, and the request's rows can be addressed: there are none, or their 32-bit
offsets do not wrap. -/
def Addressable (valueLen : ℕ) (keys : List ℕ) (twoBlobs : Bool) : Prop :=
  keys.length < 2 ^ 31 ∧
    (twoBlobs = true → keys ≠ [] → 0 < valueLen ∧ (keys.length - 1) * valueLen < 2 ^ 32)

theorem length_owned (dst : ℕ) : (owned numServers keys dst).length = counted numServers keys dst := by
  rw [counted, owned, ← List.countP_eq_length_filter]
  conv_rhs => rw [← List.zipIdx_map_fst 0 keys, List.countP_map]
  rfl

theorem inRange_zipIdx {v : List Val} (hv : v.length = keys.length * valueLen)
    (h : (keys.length - 1) * valueLen < 2 ^ 32) : InRange valueLen v keys.zipIdx := by
  have hlt : ∀ i < keys.length, i * valueLen < 2 ^ 32 := fun i hi =>
    (Nat.mul_le_mul_right valueLen (by omega)).trans_lt h
  constructor
  · intro p hp
    have hi := List.snd_lt_of_mem_zipIdx hp
    rw [hv]
    exact ⟨Nat.mul_le_mul_right valueLen (by omega), hlt _ (by omega)⟩
  · simpa using hlt

theorem share_isSome (dst : ℕ) :
    (share numServers valueLen keys vals dst).isSome = decide (owned numServers keys dst ≠ []) := by
  unfold share
  split <;> simp [*]

/-- The messages before any key is filled in. -/
def started (numServers valueLen : ℕ) (twoBlobs : Bool) (g : Garbage Val) (keys : List ℕ) : State Val where
  out dst := if counted numServers keys dst = 0 then none
    else some (alloc valueLen twoBlobs g (counted numServers keys dst))
  counts _ := 0

/-- The messages with all keys filled in. -/
def filled (numServers valueLen : ℕ) (g : Garbage Val) (keys : List ℕ) (vals : Option (List Val)) :
    ℕ → Option (Blobs Val) :=
  (keys.zipIdx.foldl (put numServers valueLen vals) (started numServers valueLen vals.isSome g keys)).out

theorem partition_eq (h : keys.length < 2 ^ 31) : partition numServers valueLen g keys vals =
    if vals.isSome ∧ valueLen = 0 ∧ keys ≠ [] then .error .check
    else .ok ((List.range numServers).countP fun dst => (filled numServers valueLen g keys vals dst).isSome,
      filled numServers valueLen g keys vals) := by
  rw [partition, countKeys_eq h, ok_bind]
  split
  · rfl
  · exact congrArg (· >>= _) (forInt_place h)

theorem partition_eq_ok {num : ℕ} {out : ℕ → Option (Blobs Val)}
    (h : partition numServers valueLen g keys vals = .ok (num, out)) :
    keys.length < 2 ^ 31 ∧ ¬ (vals.isSome ∧ valueLen = 0 ∧ keys ≠ []) ∧
      num = (List.range numServers).countP (fun dst => (out dst).isSome) ∧
        out = filled numServers valueLen g keys vals := by
  obtain ⟨counts, hcounts, -⟩ := bind_eq_ok.mp h
  have hlt := lt_of_countKeys hcounts
  rw [partition_eq hlt] at h
  split at h
  · cases h
  · rename_i hguard
    cases h
    exact ⟨hlt, hguard, rfl, rfl⟩

theorem partition_ne_fatal : partition numServers valueLen g keys vals ≠ .error .fatal := by
  have hcount : Survives (countKeys numServers keys) fun _ => True :=
    .forInt (fun _ _ _ _ _ => Survives.incr.bind fun _ _ => .ok trivial) trivial
  have hplace : ∀ start, Survives (forInt (place numServers valueLen vals) 0 ⟨start, fun _ => 0⟩ keys) fun _ => True :=
    fun _ => .forInt (fun _ _ _ _ _ => Survives.incr.bind fun _ _ => .ok trivial) trivial
  have hgo : Survives (partition numServers valueLen g keys vals) fun _ => True := by
    refine hcount.bind fun counts _ => ?_
    split
    · exact .stop (by simp)
    · exact (hplace _).bind fun _ _ => .ok trivial
  exact hgo.1

theorem filled_eq_share (hv : ∀ v, vals = some v → v.length = keys.length * valueLen)
    (ha : Addressable valueLen keys vals.isSome) :
    filled numServers valueLen g keys vals = share numServers valueLen keys vals := by
  have hkeys : ∀ dst b, (started numServers valueLen vals.isSome g keys).out dst = some b →
      (keys.zipIdx.filter fun p => p.1 % numServers = dst).length ≤ b.keys.length := by
    intro dst b hb
    simp only [started, Option.ite_none_left_eq_some, Option.some.injEq] at hb
    rw [← hb.2]
    have : (owned numServers keys dst).length = _ := length_owned dst
    simp only [alloc, List.length_map, List.length_range]
    exact this.le
  have hvals : ∀ v, vals = some v → InRange valueLen v keys.zipIdx := by
    intro v hs
    by_cases hne : keys = []
    · subst hne
      exact ⟨by simp, by simp⟩
    · exact inRange_zipIdx (hv v hs) (ha.2 (by simp [hs]) hne).2
  have hfill := filled_foldl keys.zipIdx hkeys hvals
  funext dst
  obtain ⟨-, ho⟩ := hfill dst
  have hlen : (owned numServers keys dst).length = _ := length_owned dst
  simp only [show (keys.zipIdx.filter fun p => p.1 % numServers = dst) = owned numServers keys dst from rfl] at ho
  rw [share]
  refine ho.trans ?_
  by_cases h0 : owned numServers keys dst = []
  · have hc : counted numServers keys dst = 0 := by rw [← hlen, h0]; rfl
    simp [started, hc, h0]
  · have hc : counted numServers keys dst ≠ 0 := by
      rw [← hlen]
      simpa using h0
    simp only [started, if_neg hc, if_neg h0, Option.map_some, alloc, hlen]
    cases vals with
    | none => simp
    | some v => simp

theorem partition_eq_share (hv : ∀ v, vals = some v → v.length = keys.length * valueLen)
    (ha : Addressable valueLen keys vals.isSome) :
    partition numServers valueLen g keys vals =
      .ok ((List.range numServers).countP fun dst => owned numServers keys dst ≠ [],
        share numServers valueLen keys vals) := by
  have hguard : ¬ (vals.isSome ∧ valueLen = 0 ∧ keys ≠ []) := by
    rintro ⟨hs, h0, hne⟩
    have := (ha.2 hs hne).1
    omega
  rw [partition_eq ha.1, if_neg hguard, filled_eq_share hv ha]
  simp only [share_isSome]

theorem addressable_none (h : keys.length < 2 ^ 31) : Addressable valueLen keys (none : Option (List Val)).isSome :=
  ⟨h, by simp⟩

theorem mem_owned_keys {k dst : ℕ} :
    k ∈ (owned numServers keys dst).map Prod.fst ↔ k ∈ keys ∧ k % numServers = dst := by
  simp only [owned, List.mem_map, List.mem_filter, decide_eq_true_eq]
  constructor
  · rintro ⟨p, ⟨hp, rfl⟩, rfl⟩
    exact ⟨List.fst_mem_of_mem_zipIdx hp, rfl⟩
  · rintro ⟨hk, rfl⟩
    obtain ⟨i, hi, rfl⟩ := List.getElem_of_mem hk
    exact ⟨(keys[i], i), ⟨by simp [List.mem_zipIdx_iff_getElem?, hi], rfl⟩, rfl⟩

/-- Each server is sent the keys that it owns, whatever becomes of the rows. -/
theorem keys_of_partition {num : ℕ} {out : ℕ → Option (Blobs Val)} {b : Blobs Val} {dst : ℕ}
    (h : partition numServers valueLen g keys vals = .ok (num, out)) (hb : out dst = some b) :
    b.keys = (owned numServers keys dst).map Prod.fst := by
  obtain ⟨hlt, -, -, rfl⟩ := partition_eq_ok h
  have hfilled : filled numServers valueLen g keys none = share numServers valueLen keys none :=
    filled_eq_share (by simp) (addressable_none hlt)
  have hshare := congrFun hfilled dst
  have hstart : (started numServers valueLen vals.isSome g keys).keysOnly =
      started numServers valueLen false g keys := by
    simp only [State.keysOnly, started, State.mk.injEq, and_true]
    funext dst
    by_cases h0 : counted numServers keys dst = 0 <;> simp [h0, alloc]
  have hkeys : (keys.zipIdx.foldl (put numServers valueLen vals)
      (started numServers valueLen vals.isSome g keys)).keysOnly.out dst =
      share numServers valueLen keys none dst := by
    rw [keysOnly_foldl, hstart]
    exact hshare
  rw [filled] at hb
  simp only [State.keysOnly, hb, Option.map_some, share] at hkeys
  split at hkeys
  · cases hkeys
  · exact congrArg Blobs.keys (Option.some.inj hkeys)

end Partition

/-- A server table: the state its updater keeps, and the parameters. -/
structure Server (σ Val : Type) where
  updater : σ
  store : KVStore Val

/-- What an updater makes of a row and a delta; it may be given an `AddOption` blob. -/
abbrev Update (σ O Val : Type) := σ → Option O → List Val → List Val → σ × List Val

namespace Server

variable {σ O Val : Type} {upd : Update σ O Val} {option : Option O} {st : Server σ Val}
  {numServers valueLen : ℕ} {keys : List ℕ} {v : List Val} {g : Garbage Val}

/-- One round of the loop of `ProcessAdd`: an immutable row stays as it is. -/
def applyAdd (upd : Update σ O Val) (option : Option O) (st : Server σ Val) (key : ℕ)
    (delta : List Val) : Except Stop (Server σ Val) := do
  let (store, e) ← orFatal (st.store.get key false)
  match e with
  | some e =>
    if e.immutable then return { st with store }
    else
      let (updater, row) := upd st.updater option (store.read e.offset) delta
      return ⟨updater, store.write e.offset row⟩
  | none => throw .memory

/-- `KVServerTable::ProcessAdd`, for any updater. -/
def processAdd (upd : Update σ O Val) (option : Option O) (st : Server σ Val) (keys : List ℕ)
    (vals : List Val) : Except Stop (Server σ Val) :=
  if keys.length * st.store.valueLen = vals.length then
    forInt (fun st' i key => st'.applyAdd upd option key (rowAt st.store.valueLen vals i)) 0 st keys
  else .error .check

/-- A share's keys and rows, taken apart again, are the pairs of the request. -/
theorem zipIdx_share {ps : List (ℕ × ℕ)} (h : Partition.InRange valueLen v ps) :
    (ps.map Prod.fst).zipIdx.map (fun p =>
      (p.1, rowAt valueLen (ps.flatMap fun p => row valueLen v p.2) p.2)) =
    ps.map fun p => (p.1, row valueLen v p.2) := by
  apply List.ext_getElem (by simp)
  intro j hj hj'
  have hj : j < ps.length := by simpa using hj'
  simp only [List.getElem_map, List.getElem_zipIdx, Nat.zero_add, Prod.mk.injEq, true_and]
  rw [Partition.rowAt_eq (h.2 j hj)]
  exact row_flatMap (fun p hp => length_row (h.1 p hp).1) hj

/-- A server applies the pairs of its share one after the other, in the order of the request. -/
theorem processAdd_share {ps : List (ℕ × ℕ)} (h : Partition.InRange st.store.valueLen v ps)
    (hlt : ps.length < 2 ^ 31) :
    st.processAdd upd option (ps.map Prod.fst) (ps.flatMap fun p => row st.store.valueLen v p.2) =
      ps.foldlM (fun st' p => st'.applyAdd upd option p.1 (row st.store.valueLen v p.2)) st := by
  have hlen : (ps.flatMap fun p => row st.store.valueLen v p.2).length =
      ps.length * st.store.valueLen := length_flatMap fun p hp => length_row (h.1 p hp).1
  have hzip := congrArg (List.foldlM (fun (st' : Server σ Val) (p : ℕ × List Val) =>
    st'.applyAdd upd option p.1 p.2) st) (zipIdx_share h)
  rw [List.foldlM_map, List.foldlM_map] at hzip
  rw [processAdd, if_pos (by rw [List.length_map, hlen]), forInt_eq (by simpa using hlt)]
  exact hzip

end Server

namespace Partition

variable {Val : Type} {numServers valueLen : ℕ} {keys : List ℕ} {vals : Option (List Val)}
  {g : Garbage Val} {v : List Val} {a b : Val} {i : ℕ}

/-- The request is split as it should: one message per server that owns a key, each holding its
share, and a server that is sent a share of an Add applies exactly the pairs in it, in order. -/
def Routed (numServers valueLen : ℕ) (g : Garbage Val) (keys : List ℕ)
    (vals : Option (List Val)) : Prop :=
  partition numServers valueLen g keys vals =
      .ok ((List.range numServers).countP fun dst => owned numServers keys dst ≠ [],
        share numServers valueLen keys vals) ∧
    ∀ v, vals = some v → ∀ {σ O : Type} (upd : Update σ O Val) (option : Option O)
      (st : Server σ Val) (dst : ℕ), st.store.valueLen = valueLen →
      st.processAdd upd option ((owned numServers keys dst).map Prod.fst)
          ((owned numServers keys dst).flatMap fun p => row valueLen v p.2) =
        (owned numServers keys dst).foldlM
          (fun st' p => st'.applyAdd upd option p.1 (row valueLen v p.2)) st

theorem InRange.filter {ps : List (ℕ × ℕ)} {f : ℕ × ℕ → Bool} (h : InRange valueLen v ps) :
    InRange valueLen v (ps.filter f) :=
  ⟨fun p hp => h.1 p (List.mem_of_mem_filter hp),
    fun i hi => h.2 i (hi.trans_le (List.length_filter_le ..))⟩

theorem inRange_owned (hv : v.length = keys.length * valueLen)
    (ha : Addressable valueLen keys true) (dst : ℕ) :
    InRange valueLen v (owned numServers keys dst) := by
  by_cases hne : keys = []
  · subst hne
    exact ⟨by simp [owned], by simp [owned]⟩
  · exact (inRange_zipIdx hv (ha.2 rfl hne).2).filter

theorem length_owned_le (dst : ℕ) : (owned numServers keys dst).length ≤ keys.length :=
  (length_owned dst).trans_le (counted_le dst)

theorem routed_of_addressable (hv : ∀ v, vals = some v → v.length = keys.length * valueLen)
    (ha : Addressable valueLen keys vals.isSome) : Routed numServers valueLen g keys vals := by
  refine ⟨partition_eq_share hv ha, ?_⟩
  rintro v rfl σ O upd option st dst rfl
  exact Server.processAdd_share (inRange_owned (hv v rfl) ha dst) ((length_owned_le dst).trans_lt ha.1)

/-- One row that differs from all the others in its first value. -/
def markedRow (valueLen : ℕ) (a b : Val) (i : ℕ) : List Val :=
  List.replicate (i * valueLen) a ++ b :: List.replicate (valueLen - 1) a

theorem length_markedRow (h : 0 < valueLen) :
    (markedRow valueLen a b i).length = (i + 1) * valueLen := by
  simp only [markedRow, List.length_append, List.length_replicate, List.length_cons]
  rw [Nat.succ_mul]
  omega

/-- Once the products wrap, no row is ever read from where the marked row is. -/
theorem eq_of_mem_rowAt {j : ℕ} {x : Val} (hw : valueLen < 2 ^ 32) (hi : 2 ^ 32 ≤ i * valueLen)
    (hj : j ≤ i) (hx : x ∈ rowAt valueLen (markedRow valueLen a b i) j) : x = a := by
  have hend : j * valueLen % 2 ^ 32 + valueLen ≤ i * valueLen := by
    have hji : j * valueLen ≤ i * valueLen := Nat.mul_le_mul_right _ hj
    rcases Nat.lt_or_ge (j * valueLen) (2 ^ 32) with hlt | hge
    · rw [Nat.mod_eq_of_lt hlt, ← Nat.succ_mul]
      refine Nat.mul_le_mul_right _ ?_
      by_contra hgt
      obtain rfl : j = i := by omega
      omega
    · have := Nat.div_add_mod (j * valueLen) (2 ^ 32)
      have : 0 < j * valueLen / 2 ^ 32 := Nat.div_pos hge (by decide)
      omega
  rw [rowAt, List.take_drop] at hx
  have hx := List.mem_of_mem_drop hx
  rw [markedRow, List.take_append_of_le_length (by simpa using hend)] at hx
  exact List.eq_of_mem_replicate (List.mem_of_mem_take hx)

/-- Every message then holds other rows only. -/
theorem eq_of_mem_foldl {start : ℕ → Option (Blobs Val)} {ps : List (ℕ × ℕ)}
    (hstart : ∀ dst bl o, start dst = some bl → bl.vals = some o → ∀ x ∈ o, x = a)
    (hps : ∀ p ∈ ps, ∀ x ∈ rowAt valueLen v p.2, x = a) :
    ∀ dst bl o, (ps.foldl (put numServers valueLen (some v)) ⟨start, fun _ => 0⟩).out dst =
      some bl → bl.vals = some o → ∀ x ∈ o, x = a := by
  induction ps using List.reverseRecOn with
  | nil => exact hstart
  | append_singleton ps p ih =>
    have ih := ih fun q hq => hps q (by simp [hq])
    intro dst bl o hbl ho x hx
    rw [List.foldl_append, List.foldl_cons, List.foldl_nil] at hbl
    generalize ps.foldl (put numServers valueLen (some v)) ⟨start, fun _ => 0⟩ = st at ih hbl
    by_cases hd : dst = p.1 % numServers
    · subst hd
      simp only [put, Function.update_self] at hbl
      obtain ⟨bl', hbl', rfl⟩ := Option.map_eq_some_iff.mp hbl
      obtain ⟨o', ho', rfl⟩ := Option.map_eq_some_iff.mp ho
      rcases mem_overwrite hx with hx | hx
      · exact ih _ _ _ hbl' ho' x hx
      · exact hps p (by simp) x hx
    · simp only [put, Function.update_of_ne hd] at hbl
      exact ih dst bl o hbl ho x hx

theorem not_routed_of_wrap (hab : b ≠ a) (hw : valueLen < 2 ^ 32) (h0 : 0 < valueLen)
    (hne : keys ≠ []) (hwrap : 2 ^ 32 ≤ (keys.length - 1) * valueLen) :
    ¬ Routed numServers valueLen ⟨fun _ => 0, fun _ => a⟩ keys
      (some (markedRow valueLen a b (keys.length - 1))) := by
  rintro ⟨hpart, -⟩
  set i := keys.length - 1 with hi
  have hlast : i < keys.length := by
    have := List.length_pos_of_ne_nil hne
    omega
  obtain ⟨-, -, -, hfilled⟩ := partition_eq_ok hpart
  -- the server that owns the last key is owed the marked row
  have hmem : (keys[i], i) ∈ owned numServers keys (keys[i] % numServers) := by
    rw [owned, List.mem_filter]
    exact ⟨by simp [List.mem_zipIdx_iff_getElem?, hlast], by simp⟩
  have hshare := congrFun hfilled.symm (keys[i] % numServers)
  rw [share, if_neg (List.ne_nil_of_mem hmem)] at hshare
  refine hab (eq_of_mem_foldl (v := markedRow valueLen a b i) ?_ ?_ _ _ _ hshare rfl b ?_)
  · intro dst bl o hbl ho x hx
    simp only [Option.ite_none_left_eq_some, Option.some.injEq] at hbl
    rw [← hbl.2] at ho
    simp only [alloc, Option.isSome_some, if_true, Option.some.injEq] at ho
    subst ho
    obtain ⟨j, -, hj⟩ := List.mem_map.mp hx
    exact hj.symm
  · intro p hp x hx
    have := List.snd_lt_of_mem_zipIdx hp
    exact eq_of_mem_rowAt hw hwrap (by omega) hx
  · refine List.mem_flatMap.mpr ⟨_, hmem, ?_⟩
    rw [row, markedRow, List.drop_append_of_le_length (by simp), List.drop_of_length_le (by simp),
      List.nil_append]
    obtain ⟨n, rfl⟩ := Nat.exists_eq_succ_of_ne_zero h0.ne'
    simp

/-- Every value list of a request is routed as it should exactly when an `int` counts its keys and its rows are
addressable. -/
theorem routed_iff [Nontrivial Val] (hw : valueLen < 2 ^ 32) (keys : List ℕ) (twoBlobs : Bool) :
    (∀ (g : Garbage Val) (vals : Option (List Val)), vals.isSome = twoBlobs →
      (∀ v, vals = some v → v.length = keys.length * valueLen) →
      Routed numServers valueLen g keys vals) ↔ Addressable valueLen keys twoBlobs := by
  constructor
  · intro hall
    obtain ⟨a, b, hab⟩ := exists_pair_ne Val
    have hlt : keys.length < 2 ^ 31 := by
      obtain ⟨hpart, -⟩ := hall ⟨fun _ => 0, fun _ => a⟩
        (if twoBlobs then some (List.replicate (keys.length * valueLen) a) else none) (by cases twoBlobs <;> rfl)
        (by cases twoBlobs <;> simp)
      exact (partition_eq_ok hpart).1
    refine ⟨hlt, ?_⟩
    rintro rfl hne
    have hpos : 0 < valueLen := by
      by_contra h0
      obtain rfl : valueLen = 0 := by omega
      have := (hall ⟨fun _ => 0, fun _ => a⟩ (some []) rfl (by simp)).1
      rw [partition_eq hlt, if_pos ⟨rfl, rfl, hne⟩] at this
      cases this
    refine ⟨hpos, ?_⟩
    by_contra hwrap
    refine not_routed_of_wrap hab.symm hw hpos hne (not_lt.mp hwrap) (hall _ _ rfl fun v hv => ?_)
    cases hv
    have := List.length_pos_of_ne_nil hne
    rw [length_markedRow hpos]
    congr 1
    omega
  · rintro ha g vals rfl hv
    exact routed_of_addressable hv ha

theorem routed_iff_two_rows : (∀ (g : Garbage ℕ) (vals : Option (List ℕ)), vals.isSome = true →
    (∀ v, vals = some v → v.length = [3, 4, 7].length * 2) → Routed 2 2 g [3, 4, 7] vals) ↔
      Addressable 2 [3, 4, 7] true :=
  routed_iff (by decide) [3, 4, 7] true

/-- The third of three rows of `2 ^ 31` values is read from the beginning of the array. -/
theorem not_routed_three_rows : ∃ (g : Garbage ℕ) (v : List ℕ), v.length = [0, 0, 0].length * 2 ^ 31 ∧
    ¬ Routed 1 (2 ^ 31) g [0, 0, 0] (some v) :=
  ⟨_, _, length_markedRow (by decide), not_routed_of_wrap Nat.one_ne_zero (by decide) (by decide)
    (by decide) (by decide)⟩

end Partition
end Hpps.Kv

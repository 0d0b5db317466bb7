import Hpps.Kv.KVTable
import Hpps.Kv.LocalTable

/-! The worker actor while it handles the replies to a `Get`: both of its threads take them from one mailbox. -/
namespace Hpps.Kv

open Rows KVStore

/-! ### One thread by itself -/

namespace Handling

variable {Val : Type} {s s' : KVStore Val} {h h' : Handling Val} {vals : List Val} {b offset left index i : ℕ}
  {e : Stop} {x : Except Stop (KVStore Val)}

/-- How the loop of a thread goes on to its end when no other thread does anything. -/
inductive Leads : KVStore Val → Handling Val → Except Stop (KVStore Val) → Prop
  | step {s s' : KVStore Val} {h h' : Handling Val} {x : Except Stop (KVStore Val)} (hl : Leads s' h' x)
    (hok : h.advance s = .ok (s', some h')) : Leads s h x
  | ends {s s' : KVStore Val} {h : Handling Val} (hok : h.advance s = .ok (s', none)) : Leads s h (.ok s')
  | stops {s : KVStore Val} {h : Handling Val} {e : Stop} (herr : h.advance s = .error e) : Leads s h (.error e)

/-- A lookup ends at a bucket of the key or at a free one. -/
theorem leads_look (hjob : h.job = .set vals) (hpc : h.pc = .look index left)
    (hhit : ∀ b, s.probeFrom h.key left index = .hit b → Leads s { h with pc := .found b } x)
    (hfree : ∀ b, s.probeFrom h.key left index = .free b → Leads s { h with pc := .putKey b } x)
    (hfull : s.probeFrom h.key left index = .exhausted → x = .error .fatal) : Leads s h x := by
  induction left generalizing h index with
  | zero =>
    rw [hfull rfl]
    exact Leads.stops (by simp only [advance, hpc])
  | succ left ih =>
    rw [probeFrom] at hhit hfree hfull
    by_cases hlt : index < s.nodeCapacity
    · simp only [if_pos hlt] at hhit hfree hfull
      by_cases hneg : (s.node index).offset < 0
      · simp only [if_pos hneg] at hfree
        refine (hfree index rfl).step ?_
        simp only [advance, hpc, hjob, if_pos hlt, if_pos hneg]
      · simp only [if_neg hneg] at hhit hfree hfull
        have hlook : h.advance s = .ok (s, some { h with pc := .compare index left }) := by
          simp only [advance, hpc, if_pos hlt, if_neg hneg]
        refine Leads.step ?_ hlook
        by_cases hkey : (s.node index).key = h.key
        · simp only [if_pos hkey] at hhit
          refine (hhit index rfl).step ?_
          simp only [advance, if_pos hkey]
        · simp only [if_neg hkey] at hhit hfree hfull
          have hnext : Leads s { h with pc := .look (mask s.nodeCapacity (index + 1)) left } x :=
            ih hjob rfl hhit hfree hfull
          refine hnext.step ?_
          simp only [advance, if_neg hkey]
    · rw [hfull (if_neg hlt)]
      exact Leads.stops (by simp only [advance, hpc, if_neg hlt])

/-- The steps that make a new entry are those of `insert`. -/
theorem leads_insert (hpc : h.pc = .putKey b)
    (hl : Leads (s.insert h.key b) { h with pc := .copy b s.dataSize } x) : Leads s h x := by
  have hread := hl.step (s := { s with
    node := Function.update s.node b ⟨h.key, s.dataSize, false⟩
    dataSize := s.dataSize + s.valueLen }) (h := { h with pc := .countTo b s.dataSize s.nodeSize }) rfl
  have hgrow := (hread.step (h := { h with pc := .count b s.dataSize }) rfl).step
    (s := { s with node := Function.update s.node b ⟨h.key, s.dataSize, false⟩ })
    (h := { h with pc := .growTo b s.dataSize s.dataSize }) rfl
  have hoffset := (hgrow.step (h := { h with pc := .grow b s.dataSize }) rfl).step
    (h := { h with pc := .readOffset b }) rfl
  have hkey := (hoffset.step (s := { s with node := Function.update s.node b { s.node b with key := h.key } })
    (h := { h with pc := .putOffset b s.dataSize }) ?_).step (h := { h with pc := .readSize b }) rfl
  · exact hkey.step (by simp only [advance, hpc])
  · simp [advance]

/-- The row is copied, and then the flag is cleared. -/
theorem leads_write (hjob : h.job = .set vals) (hpc : h.pc = .copy b offset)
    (hl : ∀ i, incr h.i = .ok i → Leads ((s.write offset (rowAt s.valueLen vals h.i)).setFlag b false)
      { h with i := i, pc := .next } x)
    (hstop : ∀ e, incr h.i = .error e → x = .error e) : Leads s h x := by
  have hclear : Leads (s.write offset (rowAt s.valueLen vals h.i)) { h with pc := .clearTo b (s.node b).offset } x := by
    cases hi : incr h.i with
    | error e =>
      rw [hstop e hi]
      exact Leads.stops (by simp only [advance, hi]; rfl)
    | ok i =>
      refine (hl i hi).step ?_
      simp only [advance, hi]
      rfl
  exact (hclear.step (h := { h with pc := .clear b }) rfl).step (by simp only [advance, hpc, hjob])

/-- A round of the loop is a call of `Set`. -/
theorem leads_set (hjob : h.job = .set vals) (hpc : h.pc = .look (mask s.nodeCapacity h.key) kMaxProbeNum)
    (hl : ∀ s' i, s.set h.key (rowAt s.valueLen vals h.i) false = some s' → incr h.i = .ok i →
      Leads s' { h with i := i, pc := .next } x)
    (hstop : ∀ e s', s.set h.key (rowAt s.valueLen vals h.i) false = some s' → incr h.i = .error e → x = .error e)
    (hfull : s.set h.key (rowAt s.valueLen vals h.i) false = none → x = .error .fatal) : Leads s h x := by
  have hset : ∀ t (r : Entry), s.get h.key false = some (t, some r) →
      s.set h.key (rowAt s.valueLen vals h.i) false =
        some ((t.write r.offset (rowAt s.valueLen vals h.i)).setFlag r.index false) := by
    intro t r hget
    simp only [KVStore.set, hget, Option.bind_eq_bind, Option.bind_some, pure]
  refine leads_look hjob hpc (fun b hb => ?_) (fun b hb => ?_) fun hb => ?_
  · have hget := hset s ⟨b, (s.node b).offset.toNat, (s.node b).immutable, false⟩
      (by rw [KVStore.get, find, hb]; rfl)
    have hcopy : Leads s { h with pc := .copy b (s.node b).offset.toNat } x :=
      leads_write hjob rfl (fun i hi => hl _ i hget hi) fun e he => hstop e _ hget he
    exact hcopy.step rfl
  · have hget := hset (s.insert h.key b) ⟨b, s.dataSize, false, true⟩ (by rw [KVStore.get, find, hb]; rfl)
    refine leads_insert rfl ?_
    exact leads_write hjob rfl (fun i hi => hl _ i hget hi) fun e he => hstop e _ hget he
  · refine hfull ?_
    rw [KVStore.set, KVStore.get, find, hb]
    rfl

theorem valueLen_set {key : ℕ} {val : List Val} {immutable : Bool} (h : s.set key val immutable = some s') :
    s'.valueLen = s.valueLen := by
  obtain ⟨⟨t, e⟩, hget, h⟩ := Option.bind_eq_some_iff.mp h
  obtain ⟨e, -, h⟩ := Option.bind_eq_some_iff.mp h
  have ht : t.valueLen = s.valueLen := by
    rcases get_cases hget with ⟨i, -, rfl, -⟩ | ⟨i, -, -, rfl, -⟩ | ⟨i, -, -, rfl, -⟩ <;> rfl
  cases h
  exact ht

/-- The loop of a thread that is not disturbed is the one of `ProcessReplyGet`. -/
theorem leads_loop {n : ℕ} {rest : List ℕ} (hjob : h.job = .set vals) (hpc : h.pc = .next)
    (hrest : h.keys.drop h.i = rest) (hn : s.valueLen = n) : Leads s h
      (forInt (fun s i key => orFatal (s.set key (rowAt n vals i) false)) h.i s rest) := by
  induction rest generalizing s h with
  | nil =>
    have hkey : h.keys[h.i]? = none := List.getElem?_eq_none (List.drop_eq_nil_iff.mp hrest)
    exact Leads.ends (by simp only [advance, hpc, hkey]; rfl)
  | cons key rest ih =>
    have hkey : h.keys[h.i]? = some key := by
      rw [← List.head?_drop, hrest, List.head?_cons]
    have hdrop : h.keys.drop (h.i + 1) = rest := by
      rw [← List.tail_drop, hrest, List.tail_cons]
    rw [forInt]
    refine Leads.step (?_ : Leads s { h with key := key, pc := .look (mask s.nodeCapacity key) kMaxProbeNum } _)
      (by simp only [advance, hpc, hkey]; rfl)
    refine leads_set hjob rfl (fun s' i hset hi => ?_) (fun e s' hset he => ?_) fun hset => ?_
    · dsimp only at hset hi ⊢
      rw [hn] at hset
      obtain rfl := (incr_eq_ok_iff.mp hi).2
      rw [hset, orFatal, Option.elim_some, ok_bind, hi, ok_bind]
      exact ih hjob rfl hdrop ((valueLen_set hset).trans hn)
    · dsimp only at hset he
      rw [hn] at hset
      rw [hset, orFatal, Option.elim_some, ok_bind, he]
      rfl
    · dsimp only at hset
      rw [hn] at hset
      rw [hset]
      rfl

/-! ### What is written -/

variable {S S' : KVStore Val} {o : Option (Handling Val)} {row' : ℕ → List Val} {keys : List ℕ}

/-- Where a thread that sets rows gets to in one access. -/
inductive Moves (h : Handling Val) : Option (Handling Val) → Prop
  | ends (hpc : h.pc = .next) (hkey : h.keys[h.i]? = none) : Moves h none
  | lookup {key index left : ℕ} (hpc : h.pc = .next) (hkey : h.keys[h.i]? = some key) :
    Moves h (some { h with key := key, pc := .look index left })
  | copy {b offset : ℕ} (hpc : h.pc = .copy b offset) : Moves h (some { h with pc := .clear b })
  | clear {b : ℕ} {offset : ℤ} (hpc : h.pc = .clear b) : Moves h (some { h with pc := .clearTo b offset })
  | round {b : ℕ} {offset : ℤ} (hpc : h.pc = .clearTo b offset) :
    Moves h (some { h with i := h.i + 1, pc := .next })
  | find {pc : Pc} (hpc : h.pc ≠ .next) (hnew : ∀ b, pc ≠ .clear b) (hnew' : ∀ b offset, pc ≠ .clearTo b offset) :
    Moves h (some { h with pc := pc })

theorem yields_advance (hjob : h.job = .set vals) (hi : h.pc ≠ .next → h.i + 1 < 2 ^ 31) :
    Yields (h.advance s) fun r => Moves h r.2 := by
  have hfind : ∀ {t : KVStore Val} {pc : Pc}, h.pc ≠ .next → (∀ b, pc ≠ .clear b) →
      (∀ b offset, pc ≠ .clearTo b offset) →
        Yields (.ok (t, some { h with pc := pc })) fun r => Moves h r.2 :=
    fun hpc hnew hnew' => .ok (.find hpc hnew hnew')
  unfold advance
  cases hpc : h.pc with
  | next =>
    refine .ok ?_
    cases hkey : h.keys[h.i]? with
    | none => exact .ends hpc hkey
    | some key => exact .lookup hpc hkey
  | look index left =>
    cases left with
    | zero => exact .inl rfl
    | succ left =>
      dsimp only
      split
      · split
        · split
          · exact hfind (by simp [hpc]) (by simp) (by simp)
          · rename_i hget
            rw [hjob] at hget
            cases hget
        · exact hfind (by simp [hpc]) (by simp) (by simp)
      · exact .inl rfl
  | compare index left =>
    dsimp only
    split
    · exact hfind (by simp [hpc]) (by simp) (by simp)
    · exact hfind (by simp [hpc]) (by simp) (by simp)
  | copy b offset =>
    dsimp only
    split
    · exact .ok (.copy hpc)
    · rename_i hget
      rw [hjob] at hget
      cases hget
  | clear b => exact .ok (.clear hpc)
  | clearTo b offset =>
    dsimp only
    rw [incr_eq (hi (by simp [hpc])), ok_bind]
    exact .ok (.round hpc)
  | _ => exact hfind (by simp [hpc]) (by simp) (by simp)

/-- Rows that are right stay so. -/
def Fills (row' : ℕ → List Val) (S S' : KVStore Val) : Prop :=
  ∀ k flag, S.view k = some (row' k, flag) → ∃ flag', S'.view k = some (row' k, flag') ∧ (flag = false → flag' = false)

/-- A thread that copies one row for each key has done so for the first `i` of them. -/
structure Copies (row' : ℕ → List Val) (n : ℕ) (S : KVStore Val) (h : Handling Val) : Prop where
  job : h.job = .set (h.keys.flatMap row')
  length : ∀ k ∈ h.keys, (row' k).length = n
  wrap : ∀ j < h.keys.length, j * n < 2 ^ 32
  int : h.keys.length < 2 ^ 31
  key : h.pc ≠ .next → h.keys[h.i]? = some h.key
  done : ∀ j < h.i, ∀ k, h.keys[j]? = some k → S.view k = some (row' k, false)
  copied : ∀ b, (h.pc = .clear b ∨ ∃ offset, h.pc = .clearTo b offset) → ∃ flag, S.view h.key = some (row' h.key, flag)

theorem Fills.refl : Fills row' S S := fun _ flag h => ⟨flag, h, id⟩

theorem Fills.keeps (h : Fills row' S S') {k : ℕ} (hk : S.view k = some (row' k, false)) :
    S'.view k = some (row' k, false) := by
  obtain ⟨flag, hview, hflag⟩ := h k false hk
  rw [hview, hflag rfl]

/-- What another thread does is nothing to this one. -/
theorem Copies.mono {n : ℕ} (hc : Copies row' n S h) (hf : Fills row' S S') : Copies row' n S' h where
  job := hc.job
  length := hc.length
  wrap := hc.wrap
  int := hc.int
  key := hc.key
  done j hj k hk := hf.keeps (hc.done j hj k hk)
  copied b hb := by
    obtain ⟨flag, hview⟩ := hc.copied b hb
    obtain ⟨flag', hview', -⟩ := hf _ _ hview
    exact ⟨flag', hview'⟩

theorem fills_insert {key : ℕ} (hS : Sound S) (hfind : S.find key = .free b) : Fills row' S (S.insert key b) := by
  intro k flag hk
  have hne : k ≠ key := by
    rintro rfl
    rw [Sound.view_of_free hfind] at hk
    cases hk
  exact ⟨flag, by rw [hS.view_insert hfind, Function.update_of_ne hne, hk], id⟩

theorem fills_write {key : ℕ} (hS : Sound S) (hb : S.slot b = some key) (hlen : (row' key).length = S.valueLen) :
    Fills row' S (S.write (S.node b).offset.toNat (row' key)) := by
  intro k flag hk
  rw [hS.view_write hb hlen]
  by_cases hkey : k = key
  · subst hkey
    rw [hS.view_of_slot hb] at hk
    exact ⟨_, Function.update_self .., (Prod.mk.inj (Option.some.inj hk)).2.trans⟩
  · exact ⟨flag, (Function.update_of_ne hkey ..).trans hk, id⟩

theorem fills_setFlag {key : ℕ} (hS : Sound S) (hb : S.slot b = some key) : Fills row' S (S.setFlag b false) := by
  intro k flag hk
  rw [hS.view_setFlag hb]
  by_cases hkey : k = key
  · subst hkey
    rw [hS.view_of_slot hb] at hk
    rw [Function.update_self, (Prod.mk.inj (Option.some.inj hk)).1]
    exact ⟨false, rfl, fun _ => rfl⟩
  · exact ⟨flag, (Function.update_of_ne hkey ..).trans hk, id⟩

/-- The access of a thread changes no row that is right, and copies the row of its key. -/
theorem Copies.becomes {n : ℕ} (hc : Copies row' n S h) (hS : Sound S) (hn : S.valueLen = n)
    (hb : LocalTable.Becomes S h S') : Sound S' ∧ S'.valueLen = n ∧ Fills row' S S' ∧
      (∀ b offset, h.pc = .copy b offset → ∃ flag, S'.view h.key = some (row' h.key, flag)) ∧
      ∀ b offset, h.pc = .clearTo b offset → S'.view h.key = some (row' h.key, false) := by
  subst hn
  rcases hb with ⟨hi, rfl⟩ | ⟨hfree, b, hfind, rfl⟩ | ⟨hi, hp, rfl⟩
  · refine ⟨hS, rfl, .refl, fun b offset hpc => ?_, fun b offset hpc => ?_⟩
    · simp [inserting, hpc] at hi
    · simp [inserting, hpc] at hi
  · refine ⟨hS.insert hfind, rfl, fills_insert hS hfind, fun b offset hpc => ?_, fun b offset hpc => ?_⟩
    · simp [findsFree, hpc] at hfree
    · simp [findsFree, hpc] at hfree
  · unfold Placed at hp
    cases hpc : h.pc with
    | copy b offset =>
      rw [hpc] at hp
      have hkey := hc.key (by simp [hpc])
      obtain ⟨hlt, hget⟩ := List.getElem?_eq_some_iff.mp hkey
      have hlen := hc.length _ (List.mem_of_getElem? hkey)
      have htouch : h.touch S = S.write (S.node b).offset.toNat (row' h.key) := by
        rw [hp.2, Int.toNat_natCast, ← hget, ← row_flatMap hc.length hlt, ← Partition.rowAt_eq (hc.wrap _ hlt)]
        simp only [touch, hpc, hc.job]
      rw [htouch]
      refine ⟨hS.write, rfl, fills_write hS hp.1 hlen, fun _ _ _ => ?_, fun _ _ hpc' => by cases hpc'⟩
      exact ⟨_, by rw [hS.view_write hp.1 hlen, Function.update_self]⟩
    | clearTo b offset =>
      rw [hpc] at hp
      obtain ⟨hb, rfl⟩ := hp
      have htouch : h.touch S = S.setFlag b false := by
        simp only [touch, hpc]
        rfl
      rw [htouch]
      refine ⟨hS.setFlag, rfl, fills_setFlag hS hb, fun _ _ hpc' => (by cases hpc'), fun _ _ _ => ?_⟩
      obtain ⟨flag, hview⟩ := hc.copied b (.inr ⟨_, hpc⟩)
      rw [hS.view_of_slot hb] at hview
      rw [hS.view_setFlag hb, Function.update_self, (Prod.mk.inj (Option.some.inj hview)).1]
    | _ =>
      have htouch : h.touch S = S := by simp only [touch, hpc]
      rw [htouch]
      exact ⟨hS, rfl, .refl, by simp, by simp⟩

/-- Where the thread gets to it has copied as many rows as it has counted. -/
theorem Copies.moves {n : ℕ} (hc : Copies row' n S h) (hm : Moves h (some h')) (hf : Fills row' S S')
    (hcopy : ∀ b offset, h.pc = .copy b offset → ∃ flag, S'.view h.key = some (row' h.key, flag))
    (hflag : ∀ b offset, h.pc = .clearTo b offset → S'.view h.key = some (row' h.key, false)) :
    Copies row' n S' h' := by
  have hc' := hc.mono hf
  cases hm with
  | lookup hpc hkey => exact { hc' with key := fun _ => hkey, copied := fun b hb => by simp at hb }
  | @copy b offset hpc =>
    exact { hc' with key := fun _ => hc.key (by simp [hpc]), copied := fun _ _ => hcopy b offset hpc }
  | @clear b offset hpc =>
    exact { hc' with key := fun _ => hc.key (by simp [hpc]), copied := fun _ _ => hc'.copied b (.inl hpc) }
  | @round b offset hpc =>
    refine { hc' with
      key := fun hne => absurd rfl hne
      done := fun j hj k hk => ?_
      copied := fun b hb => by simp at hb }
    rcases Nat.lt_succ_iff_lt_or_eq.mp hj with hj | rfl
    · exact hc'.done j hj k hk
    · obtain rfl := Option.some.inj (hk.symm.trans (hc.key (by simp [hpc])))
      exact hflag b offset hpc
  | find hpc hnew hnew' =>
    refine { hc' with
      key := fun _ => hc.key hpc
      copied := fun b hb => ?_ }
    rcases hb with hb | ⟨offset, hb⟩
    · exact absurd hb (hnew b)
    · exact absurd hb (hnew' b offset)

end Handling

/-! ### Both threads -/

/-- The replies that are still in the mailbox, and the local table. -/
structure WorkerActor (Val : Type) where
  mailbox : List (List ℕ × List Val)
  table : LocalTable Val

namespace WorkerActor

variable {Val : Type}

/-- A thread makes its next access to the store. One that is in no call takes the next reply. -/
def step (a : WorkerActor Val) (thread : Thread) : Except Stop (WorkerActor Val) :=
  match a.table.advance thread, a.mailbox with
  | some x, _ => do
    let t ← x
    return { a with table := t }
  | none, (keys, vals) :: mailbox =>
    if thread.isWorker then do
      let t ← a.table.processReplyGet thread keys vals
      return ⟨mailbox, t⟩
    else .ok a
  | none, [] => .ok a

/-- No thread finds a free bucket while the other one is making a new entry. -/
def Spared : List Thread → WorkerActor Val → Prop
  | [], _ => True
  | thread :: schedule, a => ¬ a.table.Races thread ∧ ∀ b ∈ (a.step thread).toOption, Spared schedule b

instance decidableSpared : ∀ (schedule : List Thread) (a : WorkerActor Val), Decidable (Spared schedule a)
  | [], _ => isTrue trivial
  | thread :: schedule, a =>
    have := decidableSpared schedule
    inferInstanceAs (Decidable (¬ a.table.Races thread ∧ ∀ b ∈ (a.step thread).toOption, Spared schedule b))

/-- All replies have been processed. -/
def Done (a : WorkerActor Val) : Prop :=
  a.mailbox = [] ∧ a.table.threads .first = none ∧ a.table.threads .second = none

instance (a : WorkerActor Val) : Decidable a.Done :=
  inferInstanceAs (Decidable (a.mailbox = [] ∧ a.table.threads .first = none ∧ a.table.threads .second = none))

variable {a b : WorkerActor Val} {S : KVStore Val} {row' : ℕ → List Val} {n : ℕ} {keys : List ℕ} {thread : Thread}
  {schedule : List Thread}

theorem step_of_some {h : Handling Val} (ha : a.table.threads thread = some h) :
    a.step thread = h.advance a.table.store >>= fun r =>
      .ok { a with table := ⟨r.1, Function.update a.table.threads thread r.2⟩ } := by
  simp only [step, LocalTable.advance, ha, Option.map_some, bind_assoc]
  rfl

theorem foldlM_of_leads {h : Handling Val} {x : Except Stop (KVStore Val)} (hl : h.Leads a.table.store x)
    (ha : a.table.threads thread = some h) : ∃ m, (List.replicate m thread).foldlM step a = x >>= fun store =>
      .ok { a with table := ⟨store, Function.update a.table.threads thread none⟩ } := by
  generalize hs : a.table.store = s at hl
  induction hl generalizing a with
  | @step s s' h h' x _ hok ih =>
    obtain ⟨m, hm⟩ := ih (a := { a with table := ⟨s', Function.update a.table.threads thread (some h')⟩ })
      (Function.update_self ..) rfl
    refine ⟨m + 1, ?_⟩
    rw [List.replicate_succ, List.foldlM_cons, step_of_some ha, hs, hok, ok_bind, ok_bind, hm]
    simp only [Function.update_idem]
  | ends hok => exact ⟨1, by rw [List.replicate_one, List.foldlM_cons, step_of_some ha, hs, hok]; rfl⟩
  | stops herr => exact ⟨1, by rw [List.replicate_one, List.foldlM_cons, step_of_some ha, hs, herr]; rfl⟩

/-- The steps in which one thread handles a reply by itself make up a call of `processReplyGet`. -/
theorem exists_alone {r : List ℕ × List Val} {mailbox : List (List ℕ × List Val)}
    (ha : a.table.threads thread = none) (hw : thread.isWorker = true) (hm : a.mailbox = r :: mailbox) :
    ∃ m, (List.replicate m thread).foldlM step a =
      WorkerTable.processReplyGet a.table.store r.1 r.2 >>= fun store =>
        .ok ⟨mailbox, { a.table with store := store }⟩ := by
  have hidle : a.table.advance thread = none := by rw [LocalTable.advance, ha, Option.map_none]
  have htake : a.step thread = a.table.processReplyGet thread r.1 r.2 >>= fun t => .ok ⟨mailbox, t⟩ := by
    unfold step
    rw [hidle, hm]
    exact if_pos hw
  unfold LocalTable.processReplyGet at htake
  unfold WorkerTable.processReplyGet
  dsimp only
  by_cases hlen : r.1.length * a.table.store.valueLen = r.2.length
  · rw [if_pos hlen, ok_bind] at htake
    have hl := Handling.leads_loop (s := a.table.store) (h := .start r.1 (.set r.2)) rfl rfl rfl rfl
    obtain ⟨m, hrun⟩ := foldlM_of_leads (a := ⟨mailbox, { a.table with
      threads := Function.update a.table.threads thread (some (.start r.1 (.set r.2))) }⟩) hl (Function.update_self ..)
    refine ⟨m + 1, ?_⟩
    have hthreads : Function.update a.table.threads thread none = a.table.threads := by
      rw [← ha, Function.update_eq_self]
    rw [List.replicate_succ, List.foldlM_cons, htake, ok_bind, hrun, if_pos hlen]
    simp only [Function.update_idem, hthreads]
    rfl
  · rw [if_neg hlen] at htake
    refine ⟨1, ?_⟩
    rw [List.replicate_one, List.foldlM_cons, htake, if_neg hlen]
    rfl

/-- A reply has a row for each of its keys, which `int` and 32-bit offsets can count. -/
structure Carries (row' : ℕ → List Val) (n : ℕ) (r : List ℕ × List Val) : Prop where
  vals : r.2 = r.1.flatMap row'
  length : ∀ k ∈ r.1, (row' k).length = n
  wrap : ∀ j < r.1.length, j * n < 2 ^ 32
  int : r.1.length < 2 ^ 31

/-- Each key has its row in the store, or is one of a reply that has not been processed. -/
structure Filling (row' : ℕ → List Val) (n : ℕ) (keys : List ℕ) (a : WorkerActor Val) (S : KVStore Val) : Prop where
  consistent : a.table.Consistent S
  sound : Sound S
  valueLen : S.valueLen = n
  mailbox : ∀ r ∈ a.mailbox, Carries row' n r
  threads : ∀ thread h, a.table.threads thread = some h → h.Copies row' n S
  client : ∀ c, a.table.threads (.client c) = none
  pending : ∀ k ∈ keys, S.view k = some (row' k, false) ∨ (∃ r ∈ a.mailbox, k ∈ r.1) ∨
    ∃ thread h, a.table.threads thread = some h ∧ k ∈ h.keys

theorem Filling.advance {h : Handling Val} (hF : Filling row' n keys a S) (ha : a.table.threads thread = some h)
    (hr : ¬ a.table.Races thread) :
    Yields (a.step thread) fun b => ∃ S', Filling row' n keys b S' := by
  have hc := hF.threads thread h ha
  have hint : h.pc ≠ .next → h.i + 1 < 2 ^ 31 := fun hpc =>
    (Nat.succ_le_of_lt (List.getElem?_eq_some_iff.mp (hc.key hpc)).1).trans_lt hc.int
  rw [step_of_some ha]
  refine (Handling.yields_advance hc.job hint).self.bind ?_
  rintro ⟨s', o⟩ ⟨hok, hm⟩
  obtain ⟨S', hS', hb⟩ := hF.consistent.advance ha hr hok
  obtain ⟨hsound, hlen, hfills, hcopy, hflag⟩ := hc.becomes hF.sound hF.valueLen hb
  refine .ok ⟨S', hS', hsound, hlen, hF.mailbox, ?_, fun c => ?_, fun k hk => ?_⟩
  · exact LocalTable.forall_update (fun g hg => hc.moves (hg ▸ hm) hfills hcopy hflag)
      fun b g _ hg => (hF.threads b g hg).mono hfills
  · have hne : Thread.client c ≠ thread := by
      rintro rfl
      rw [hF.client c] at ha
      cases ha
    exact (Function.update_of_ne hne ..).trans (hF.client c)
  · rcases hF.pending k hk with hview | hmail | ⟨thread', g, hg, hmem⟩
    · exact .inl (hfills.keeps hview)
    · exact .inr (.inl hmail)
    · by_cases hthread : thread' = thread
      · subst hthread
        obtain rfl := Option.some.inj (ha.symm.trans hg)
        cases hm with
        | ends hpc hkey =>
          obtain ⟨j, hj, rfl⟩ := List.getElem_of_mem hmem
          have hlt : j < h.i := hj.trans_le (List.getElem?_eq_none_iff.mp hkey)
          exact .inl (hfills.keeps (hc.done j hlt _ (List.getElem?_eq_getElem hj)))
        | _ => exact .inr (.inr ⟨thread', _, Function.update_self .., hmem⟩)
      · exact .inr (.inr ⟨thread', g, (Function.update_of_ne hthread ..).trans hg, hmem⟩)

theorem Filling.take {r : List ℕ × List Val} {mailbox : List (List ℕ × List Val)} (hF : Filling row' n keys a S)
    (ha : a.table.threads thread = none) (hw : thread.isWorker = true) (hm : a.mailbox = r :: mailbox) :
    ∃ t, a.table.processReplyGet thread r.1 r.2 = .ok t ∧ Filling row' n keys ⟨mailbox, t⟩ S := by
  have hall := hF.mailbox
  rw [hm, List.forall_mem_cons] at hall
  obtain ⟨hr, hrest⟩ := hall
  have hlen : r.1.length * a.table.store.valueLen = r.2.length := by
    rw [hr.vals, length_flatMap hr.length, ← hF.consistent.extends.2.1, hF.valueLen]
  refine ⟨_, if_pos hlen, ?_, hF.sound, hF.valueLen, hrest, ?_, fun c => ?_, fun k hk => ?_⟩
  · refine hF.consistent.start ha fun c hc => ?_
    rw [hc] at hw
    cases hw
  · refine LocalTable.forall_update (fun g hg => ?_) fun b g _ hg => hF.threads b g hg
    cases hg
    exact { job := congrArg Job.set hr.vals
            length := hr.length
            wrap := hr.wrap
            int := hr.int
            key := fun hne => absurd rfl hne
            done := fun j hj => absurd hj (Nat.not_lt_zero j)
            copied := fun b hb => by simp [Handling.start] at hb }
  · have hne : Thread.client c ≠ thread := by
      rintro rfl
      cases hw
    exact (Function.update_of_ne hne ..).trans (hF.client c)
  · rcases hF.pending k hk with hview | ⟨r', hr', hk'⟩ | ⟨thread', g, hg, hmem⟩
    · exact .inl hview
    · rw [hm, List.mem_cons] at hr'
      rcases hr' with rfl | hr'
      · exact .inr (.inr ⟨thread, _, Function.update_self .., hk'⟩)
      · exact .inr (.inl ⟨r', hr', hk'⟩)
    · have hne : thread' ≠ thread := by
        rintro rfl
        rw [ha] at hg
        cases hg
      exact .inr (.inr ⟨thread', g, (Function.update_of_ne hne ..).trans hg, hmem⟩)

/-- A step without a race stops the process at LOG_FATAL only, and loses no row. -/
theorem Filling.step (hF : Filling row' n keys a S) (hr : ¬ a.table.Races thread) :
    Yields (a.step thread) fun b => ∃ S', Filling row' n keys b S' := by
  cases ha : a.table.threads thread with
  | some h => exact hF.advance ha hr
  | none =>
    have hidle : a.table.advance thread = none := by rw [LocalTable.advance, ha, Option.map_none]
    unfold WorkerActor.step
    rw [hidle]
    cases hm : a.mailbox with
    | nil => exact .ok ⟨S, hF⟩
    | cons r mailbox =>
      dsimp only
      split
      · rename_i hw
        obtain ⟨t, ht, hF'⟩ := hF.take ha hw hm
        rw [ht, ok_bind]
        exact .ok ⟨S, hF'⟩
      · exact .ok ⟨S, hF⟩

/-- Whatever the threads do in turn, no row is lost if they do not race. -/
theorem Filling.run (hF : Filling row' n keys a S) (hs : Spared schedule a) :
    Yields (schedule.foldlM WorkerActor.step a) fun b => ∃ S', Filling row' n keys b S' := by
  induction schedule generalizing a S with
  | nil => exact .ok ⟨S, hF⟩
  | cons thread schedule ih =>
    rw [List.foldlM_cons]
    refine (hF.step hs.1).self.bind ?_
    rintro b ⟨hb, S', hF'⟩
    exact ih hF' (hs.2 b (toOption_eq_some.mpr hb))

/-- Once all replies have been processed, each key has its row in the local store. -/
theorem Filling.view (hF : Filling row' n keys a S) (hd : a.Done) :
    Sound a.table.store ∧ a.table.store.valueLen = n ∧ ∀ k ∈ keys, a.table.store.view k = some (row' k, false) := by
  have hidle : ∀ thread, a.table.threads thread = none := by
    intro thread
    cases thread with
    | first => exact hd.2.1
    | second => exact hd.2.2
    | client c => exact hF.client c
  have hS : S = a.table.store := by
    refine hF.consistent.complete.elim And.left ?_
    rintro ⟨thread, h, hthread, -⟩
    rw [hidle] at hthread
    cases hthread
  subst hS
  refine ⟨hF.sound, hF.valueLen, fun k hk => ?_⟩
  rcases hF.pending k hk with hview | ⟨r, hr, -⟩ | ⟨thread, h, hthread, -⟩
  · exact hview
  · rw [hd.1] at hr
    cases hr
  · rw [hidle] at hthread
    cases hthread

end WorkerActor
end Hpps.Kv

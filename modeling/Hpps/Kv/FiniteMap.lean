import Hpps.Kv.KVStore

/-! A `KVStore` is a finite map: what its calls do to each key, and where the rows stay. -/
namespace Hpps.Kv

open TransitionSystem

/-- What is known of a key in use. A row that was fetched but never written holds anything. -/
structure Known (Val : Type) where
  row : Option (List Val)
  immutable : Bool
  deriving DecidableEq, Repr

/-- The finite map a store stands for. -/
abbrev FiniteMap (Val : Type) := ℕ → Option (Known Val)

namespace KVStore

def Call.key {Val : Type} : Call Val → ℕ
  | .get key _ => key
  | .set key _ _ => key
  | .update key _ => key

/-- The call gives its key a row if it has none. -/
def Call.puts {Val : Type} : Call Val → Bool
  | .get _ immutable => !immutable
  | .set _ _ _ => true
  | .update _ _ => false

variable {Val : Type} {s t u : KVStore Val} {g : Garbage Val} {key k i j n initCapacity : ℕ}
  {row : List Val} {immutable : Bool} {e : Entry} {r : Option Entry} {m : FiniteMap Val}
  {c : Call Val} {as bs cs : List (Call Val)}

/-- The effect of a call on the map. -/
def record (m : FiniteMap Val) : Call Val → FiniteMap Val
  | .get key immutable =>
    if immutable then m else Function.update m key (some ((m key).getD ⟨none, false⟩))
  | .set key val immutable => Function.update m key (some ⟨some val, immutable⟩)
  | .update key row => Function.update m key ((m key).map fun c => { c with row := some row })

/-- What the constructor leaves: the black-listed key with a row of zeros. -/
def blackList [Zero Val] (valueLen : ℕ) : FiniteMap Val :=
  Function.update (fun _ => none) 0 (some ⟨some (List.replicate valueLen 0), true⟩)

/-! ### Buckets in use stay where they are -/

def Keeps (s t : KVStore Val) : Prop :=
  ∀ i k, s.slot i = some k → t.slot i = some k ∧ (t.node i).offset = (s.node i).offset

theorem Keeps.refl : Keeps s s := fun _ _ h => ⟨h, rfl⟩

theorem Keeps.trans (h : Keeps s t) (h' : Keeps t u) : Keeps s u := by
  intro i k hi
  obtain ⟨ht, ho⟩ := h i k hi
  obtain ⟨hu, ho'⟩ := h' i k ht
  exact ⟨hu, ho'.trans ho⟩

theorem keeps_insert (h : Sound s) (hf : s.find key = .free i) : Keeps s (s.insert key i) := by
  obtain ⟨hi, hneg, -⟩ := h.free_bucket hf
  intro j k hj
  have hji : j ≠ i := by
    rintro rfl
    simp [slot, not_le.mpr hneg] at hj
  constructor
  · rw [Sound.slot_insert hi, Function.update_of_ne hji, hj]
  · simp [insert, hji]

theorem keeps_write : Keeps s (s.write n row) := fun _ _ h => ⟨h, rfl⟩

theorem keeps_setFlag : Keeps s (s.setFlag i immutable) := by
  intro j k hj
  exact ⟨by rw [Sound.slot_setFlag, hj], Sound.offset_setFlag⟩

theorem keeps_get (h : Sound s) (hg : s.get key immutable = some (t, r)) : Keeps s t := by
  rcases get_cases hg with ⟨i, -, rfl, -⟩ | ⟨i, -, -, rfl, -⟩ | ⟨i, hf, -, rfl, -⟩
  · exact .refl
  · exact .refl
  · exact keeps_insert h hf

theorem keeps_step (h : Sound s) (hs : s.step c = some t) : Keeps s t := by
  unfold step at hs
  split at hs
  · cases c with
    | get key immutable =>
      obtain ⟨⟨u, r⟩, hg, rfl⟩ := Option.map_eq_some_iff.mp hs
      exact keeps_get h hg
    | set key row immutable =>
      obtain ⟨⟨u, r⟩, hg, hs⟩ := Option.bind_eq_some_iff.mp hs
      obtain ⟨e, -, hs⟩ := Option.bind_eq_some_iff.mp hs
      cases hs
      exact (keeps_get h hg).trans (keeps_write.trans keeps_setFlag)
    | update key row =>
      obtain ⟨⟨u, r⟩, hg, rfl⟩ := Option.map_eq_some_iff.mp hs
      cases r with
      | none => exact keeps_get h hg
      | some e => exact (keeps_get h hg).trans keeps_write
  · cases hs

theorem keeps_exec (h : Sound s) (hs : exec step s cs = some t) : Sound t ∧ Keeps s t := by
  refine Reachable.invariant (P := fun t => Sound t ∧ Keeps s t) ⟨cs, hs⟩ ⟨h, .refl⟩ ?_
  rintro x c y ⟨hx, hk⟩ hy
  exact ⟨(hx.step hy).1, hk.trans (keeps_step hx hy)⟩

/-! ### What a call does to the map -/

/-- What the map says of a key, next to what the store holds for it. -/
inductive Allows : Option (Known Val) → Option (List Val × Bool) → Prop
  | absent : Allows none none
  | fetched row immutable : Allows (some ⟨none, immutable⟩) (some (row, immutable))
  | written row immutable : Allows (some ⟨some row, immutable⟩) (some (row, immutable))

def Agrees (s : KVStore Val) (m : FiniteMap Val) : Prop := ∀ k, Allows (m k) (s.view k)

theorem Agrees.update {v : Option (List Val × Bool)} {o : Option (Known Val)} (h : Agrees s m)
    (hv : t.view = Function.update s.view key v) (ho : Allows o v) :
    Agrees t (Function.update m key o) := by
  intro k
  by_cases hk : k = key
  · subst hk
    simpa [hv] using ho
  · simpa [hv, hk] using h k

theorem Agrees.eq_none_iff (h : Agrees s m) : m k = none ↔ s.view k = none := by
  have hk := h k
  generalize m k = o at hk
  generalize s.view k = v at hk
  cases hk <;> simp

theorem agrees_get (h : Sound s) (ha : Agrees s m) (hg : s.get key immutable = some (t, r)) :
    Agrees t (record m (.get key immutable)) := by
  cases immutable with
  | true =>
    rw [Sound.get_immutable hg]
    exact ha
  | false =>
    obtain ⟨e, -, hf⟩ := h.get_mutable hg
    cases hn : e.newData with
    | false =>
      have hts : t = s := hf.old hn
      subst hts
      have hv := h.view_of_slot hf.slot
      obtain ⟨o, ho⟩ : ∃ o, m key = some o := by
        rw [← Option.ne_none_iff_exists', Ne, ha.eq_none_iff, hv]
        simp
      have hm : record m (.get key false) = m := by
        rw [record, if_neg Bool.false_ne_true, ho, Option.getD_some, ← ho, Function.update_eq_self]
      rw [hm]
      exact ha
    | true =>
      obtain ⟨hv, -, hv'⟩ := hf.new hn
      have ho : m key = none := ha.eq_none_iff.mpr hv
      simp only [record, Bool.false_eq_true, if_false, ho, Option.getD_none]
      exact ha.update hv' (.fetched _ _)

theorem agrees_step (h : Sound s) (ha : Agrees s m) (hs : s.step c = some t) :
    Agrees t (record m c) := by
  unfold step at hs
  split at hs
  · rename_i hfit
    cases c with
    | get key immutable =>
      obtain ⟨⟨u, r⟩, hg, rfl⟩ := Option.map_eq_some_iff.mp hs
      exact agrees_get h ha hg
    | set key row immutable =>
      obtain ⟨-, -, -, hv⟩ := h.set (by simpa [Call.fits] using hfit) hs
      exact ha.update hv (.written _ _)
    | update key row =>
      have hrow : row.length = s.valueLen := by simpa [Call.fits] using hfit
      obtain ⟨⟨u, r⟩, hg, rfl⟩ := Option.map_eq_some_iff.mp hs
      have hus := Sound.get_immutable hg
      subst hus
      rcases get_cases hg with ⟨i, hf, -, rfl⟩ | ⟨i, hf, -, -, rfl⟩ | ⟨i, -, hi, -, -⟩
      · have hi := h.find_hit_iff.mp hf
        have hk := ha key
        rw [h.view_of_slot hi] at hk
        refine ha.update (h.view_write hi hrow) ?_
        generalize m key = o at hk
        cases hk with
        | fetched => exact .written _ _
        | written => exact .written _ _
      · have hv : u.view key = none := Sound.view_of_free hf
        have ho : m key = none := ha.eq_none_iff.mpr hv
        have hm : record m (.update key row) = m := by
          rw [record, ho, Option.map_none, ← ho, Function.update_eq_self]
        rw [hm]
        exact ha
      · cases hi
  · cases hs

theorem agrees_exec (h : Sound s) (ha : Agrees s m) (hs : exec step s cs = some t) :
    Agrees t (cs.foldl record m) := by
  induction cs generalizing s m with
  | nil => cases hs; exact ha
  | cons c cs ih =>
    obtain ⟨u, hu, hs⟩ := exec_cons.mp hs
    exact ih (h.step hu).1 (agrees_step h ha hu) hs

theorem view_alloc : (alloc n j g).view key = none :=
  sound_alloc.view_eq_none_iff.mpr fun i => by simp [slot_alloc]

theorem agrees_new [Zero Val] (h : new initCapacity n g = some s) : Agrees s (blackList n) := by
  obtain ⟨-, -, -, hv⟩ := sound_alloc.set (List.length_replicate ..) h
  have h₀ : Agrees (alloc initCapacity n g) fun _ => none := by
    intro k
    rw [view_alloc]
    exact .absent
  exact h₀.update hv (.written _ _)

/-- The keys of the map: those it had and those some call gave a row. -/
theorem record_eq_none_iff :
    record m c k = none ↔ m k = none ∧ ¬ (c.key = k ∧ c.puts = true) := by
  cases c with
  | get key immutable =>
    cases immutable <;> by_cases hk : k = key <;> simp [record, Call.key, Call.puts, hk, eq_comm]
  | set key row immutable =>
    by_cases hk : k = key <;> simp [record, Call.key, Call.puts, hk, eq_comm]
  | update key row =>
    by_cases hk : k = key <;> simp [record, Call.key, Call.puts, hk]

theorem foldl_record_eq_none_iff : cs.foldl record m k = none ↔
    m k = none ∧ ∀ c ∈ cs, ¬ (c.key = k ∧ c.puts = true) := by
  induction cs generalizing m with
  | nil => simp
  | cons c cs ih => rw [List.foldl_cons, ih, record_eq_none_iff, List.forall_mem_cons, and_assoc]

/-! ### The refinement -/

/-- What the calls `cs` made of the store that the constructor returned. -/
structure RefinesMap [Zero Val] (valueLen : ℕ) (cs : List (Call Val)) (s : KVStore Val) : Prop where
  found_iff : ∀ k, (∃ e, s.get k true = some (s, some e)) ↔
    k = 0 ∨ ∃ c ∈ cs, c.key = k ∧ c.puts = true
  sameRow : ∀ k immutable t e bs u, s.get k immutable = some (t, some e) →
    exec step t bs = some u → ∃ e', u.get k true = some (u, some e') ∧ e'.offset = e.offset
  holds : ∀ k c, cs.foldl record (blackList valueLen) k = some c →
    ∃ row, s.lookup k = some (some (row, c.immutable)) ∧ ∀ r, c.row = some r → row = r
  frame : ∀ c t k r, s.step c = some t → c.key ≠ k →
    (t.lookup k = some (some r) ↔ s.lookup k = some (some r))
  newData_iff : ∀ k immutable t e, s.get k immutable = some (t, some e) →
    (e.newData = true ↔ immutable = false ∧ ¬ (k = 0 ∨ ∃ c ∈ cs, c.key = k ∧ c.puts = true))
  inside : ∀ k e, s.get k true = some (s, some e) → e.offset + valueLen ≤ s.dataCapacity
  disjoint : ∀ k k' e e', s.get k true = some (s, some e) → s.get k' true = some (s, some e') →
    k ≠ k' → e.offset + valueLen ≤ e'.offset ∨ e'.offset + valueLen ≤ e.offset

theorem get_true_eq_some_iff (h : Sound s) : s.get k true = some (t, some e) ↔
    t = s ∧ s.slot e.index = some k ∧ e.offset = (s.node e.index).offset.toNat ∧
      e.immutable = true ∧ e.newData = false := by
  constructor
  · intro hg
    rcases get_cases hg with ⟨i, hf, rfl, he⟩ | ⟨i, -, -, -, he⟩ | ⟨i, -, hi, -, -⟩
    · cases he
      exact ⟨rfl, h.find_hit_iff.mp hf, rfl, rfl, rfl⟩
    · cases he
    · cases hi
  · rintro ⟨rfl, hi, ho, him, hn⟩
    obtain ⟨index, offset, immutable, newData⟩ := e
    dsimp only at hi ho him hn
    subst ho him hn
    simp [get, h.find_hit_iff.mpr hi]

theorem exists_get_true_iff (h : Sound s) :
    (∃ e, s.get k true = some (s, some e)) ↔ s.view k ≠ none := by
  rw [Ne, h.view_eq_none_iff, not_forall]
  constructor
  · rintro ⟨e, he⟩
    exact ⟨e.index, not_not.mpr ((get_true_eq_some_iff h).mp he).2.1⟩
  · rintro ⟨i, hi⟩
    exact ⟨⟨i, (s.node i).offset.toNat, true, false⟩,
      (get_true_eq_some_iff h).mpr ⟨rfl, not_not.mp hi, rfl, rfl, rfl⟩⟩

theorem Sound.rows_disjoint {k' : ℕ} {e' : Entry} (h : Sound s) (hg : s.get k true = some (s, some e))
    (hg' : s.get k' true = some (s, some e')) (hne : k ≠ k') :
    e.offset + s.valueLen ≤ e'.offset ∨ e'.offset + s.valueLen ≤ e.offset := by
  obtain ⟨-, hi, ho, -, -⟩ := (get_true_eq_some_iff h).mp hg
  obtain ⟨-, hi', ho', -, -⟩ := (get_true_eq_some_iff h).mp hg'
  rw [ho, ho']
  refine h.disjoint _ _ _ _ hi hi' ?_
  intro heq
  rw [heq, hi'] at hi
  cases hi
  exact hne rfl

/-- A `Get` that returns a row leaves it in the key's bucket. -/
theorem slot_of_get (h : Sound s) (hg : s.get k immutable = some (t, some e)) :
    Sound t ∧ t.slot e.index = some k ∧ e.offset = (t.node e.index).offset.toNat := by
  cases immutable with
  | true =>
    obtain ⟨rfl, hi, ho, -, -⟩ := (get_true_eq_some_iff h).mp hg
    exact ⟨h, hi, ho⟩
  | false =>
    obtain ⟨e', he, hf⟩ := h.get_mutable hg
    cases he
    exact ⟨hf.sound, hf.slot, hf.offset⟩

theorem newData_iff_view (h : Sound s) (hg : s.get k immutable = some (t, some e)) :
    e.newData = true ↔ immutable = false ∧ s.view k = none := by
  cases immutable with
  | true => simp [((get_true_eq_some_iff h).mp hg).2.2.2.2]
  | false =>
    obtain ⟨e', he, hf⟩ := h.get_mutable hg
    cases he
    constructor
    · intro hn
      exact ⟨rfl, (hf.new hn).1⟩
    · rintro ⟨-, hv⟩
      by_contra hn
      have hts := hf.old (by simpa using hn)
      subst hts
      rw [h.view_of_slot hf.slot] at hv
      cases hv

theorem view_step (h : Sound s) (hs : s.step c = some t) (hk : c.key ≠ k) : t.view k = s.view k := by
  unfold step at hs
  split at hs
  · rename_i hfit
    cases c with
    | get key immutable =>
      obtain ⟨⟨u, r⟩, hg, rfl⟩ := Option.map_eq_some_iff.mp hs
      cases immutable with
      | true => rw [Sound.get_immutable hg]
      | false =>
        obtain ⟨e, -, hf⟩ := h.get_mutable hg
        exact hf.view_other (Ne.symm hk)
    | set key row immutable =>
      obtain ⟨-, -, -, hv⟩ := h.set (by simpa [Call.fits] using hfit) hs
      have hne : k ≠ key := Ne.symm hk
      rw [hv, Function.update_of_ne hne]
    | update key row =>
      have hne : k ≠ key := Ne.symm hk
      have hrow : row.length = s.valueLen := by simpa [Call.fits] using hfit
      obtain ⟨⟨u, r⟩, hg, rfl⟩ := Option.map_eq_some_iff.mp hs
      cases r with
      | none => rw [Sound.get_immutable hg]
      | some e =>
        obtain ⟨rfl, hi, ho, -, -⟩ := (get_true_eq_some_iff h).mp hg
        dsimp only
        rw [ho, h.view_write hi hrow, Function.update_of_ne hne]
  · cases hs

/-- The keys of a store are key 0 and those that a call has put in. -/
theorem view_eq_none_of_exec [Zero Val] {valueLen : ℕ} {s₀ : KVStore Val}
    (h₀ : new initCapacity valueLen g = some s₀) (h : exec step s₀ cs = some s) (k : ℕ) :
    s.view k = none ↔ ¬ (k = 0 ∨ ∃ c ∈ cs, c.key = k ∧ c.puts = true) := by
  have ha := agrees_exec (Sound.new h₀).1 (agrees_new h₀) h
  rw [← ha.eq_none_iff, foldl_record_eq_none_iff, not_or, not_exists]
  refine and_congr ?_ (forall_congr' fun c => not_and.symm)
  by_cases hk : k = 0 <;> simp [blackList, hk]

/-- A store is a finite map whose rows lie side by side and never move. -/
theorem refines_map [Zero Val] {valueLen : ℕ} {s₀ : KVStore Val}
    (h₀ : new initCapacity valueLen g = some s₀) (h : exec step s₀ cs = some s) :
    RefinesMap valueLen cs s := by
  obtain ⟨hs₀, hlen₀⟩ := Sound.new h₀
  obtain ⟨hs, hlen⟩ := Reachable.sound ⟨initCapacity, g, s₀, h₀, cs, h⟩
  have ha := agrees_exec hs₀ (agrees_new h₀) h
  have hpresent := view_eq_none_of_exec h₀ h
  refine ⟨fun k => ?_, fun k immutable t e bs u hg hu => ?_, fun k c hc => ?_,
    fun c t k r hst hk => ?_, fun k immutable t e hg => ?_, fun k e hg => ?_,
    fun k k' e e' hg hg' hne => ?_⟩
  · rw [exists_get_true_iff hs, Ne, hpresent, not_not]
  · obtain ⟨ht, hi, ho⟩ := slot_of_get hs hg
    obtain ⟨hu, hkeep⟩ := keeps_exec ht hu
    obtain ⟨hi', ho'⟩ := hkeep _ _ hi
    exact ⟨⟨e.index, e.offset, true, false⟩,
      (get_true_eq_some_iff hu).mpr ⟨rfl, hi', by rw [ho, ho'], rfl, rfl⟩, rfl⟩
  · have hk := ha k
    rw [hc] at hk
    simp only [← view_eq_some_iff_lookup]
    generalize s.view k = v at hk
    cases hk with
    | fetched row immutable => exact ⟨row, rfl, by simp⟩
    | written row immutable => exact ⟨row, rfl, by simp⟩
  · rw [← view_eq_some_iff_lookup, ← view_eq_some_iff_lookup, view_step hs hst hk]
  · rw [newData_iff_view hs hg, hpresent]
  · obtain ⟨-, hi, ho, -, -⟩ := (get_true_eq_some_iff hs).mp hg
    have hin := hs.inside _ _ hi
    have hle : s.nodeSize ≤ s.nodeCapacity := by
      rw [hs.nodeSize]
      exact (Finset.card_filter_le ..).trans (Finset.card_range _).le
    rw [ho, ← hlen]
    calc (s.node e.index).offset.toNat + s.valueLen ≤ s.dataSize := hin
      _ = s.nodeSize * s.valueLen := hs.dataSize
      _ ≤ s.nodeCapacity * s.valueLen := Nat.mul_le_mul_right _ hle
      _ = s.dataCapacity := hs.dataCapacity.symm
  · rw [← hlen]
    exact hs.rows_disjoint hg hg' hne

theorem refines_map_two_keys : ∃ s₀ s : KVStore ℕ, new 4 1 ⟨fun _ => 0, fun _ => 0⟩ = some s₀ ∧
    exec step s₀ [.get 3 false, .set 3 [7] true, .set 7 [9] false] = some s ∧
    RefinesMap 1 [.get 3 false, .set 3 [7] true, .set 7 [9] false] s := by
  obtain ⟨s₀, h₀⟩ : ∃ s₀ : KVStore ℕ, new 4 1 ⟨fun _ => 0, fun _ => 0⟩ = some s₀ :=
    exists_new ..
  obtain ⟨s, hs⟩ : ∃ s, exec step s₀ [.get 3 false, .set 3 [7] true, .set 7 [9] false] = some s := by
    cases h₀
    exact ⟨_, rfl⟩
  exact ⟨s₀, s, h₀, hs, refines_map h₀ hs⟩

end KVStore
end Hpps.Kv

import Hpps.Kv.FiniteMap
import Hpps.Lib.LinearProbing

/-! Which keys a `KVStore` has room for, in whatever order they come. -/
namespace Hpps.Kv.KVStore

open OpenAddressing TransitionSystem

variable {Val : Type} {s t s₀ : KVStore Val} {g : Garbage Val} {i k n cap initCapacity : ℕ} {row : List Val}
  {immutable : Bool} {T : Finset ℕ} {c : Call Val} {cs : List (Call Val)}

/-- `node_capacity_` as the constructor sets it. -/
def capacity (initCapacity : ℕ) : ℕ := grow initCapacity initCapacity 1

/-- There are no more keys than buckets, and the others crowd out none but key 0, which comes first. -/
def Fits (cap : ℕ) (T : Finset ℕ) : Prop :=
  T.card ≤ cap ∧ ∀ k ∈ T.erase 0, ¬ LinearProbing.Crowded cap kMaxProbeNum id T k

instance : Decidable (Fits cap T) :=
  inferInstanceAs (Decidable (T.card ≤ cap ∧ ∀ k ∈ T.erase 0, ¬ LinearProbing.Crowded cap kMaxProbeNum id T k))

theorem walk_eq (hcap : ∃ m, cap = 2 ^ m) (n i : ℕ) :
    walk cap n (i % cap) = (List.range n).map fun j => (i + j) % cap := by
  induction n generalizing i with
  | zero => rfl
  | succ n ih =>
    obtain ⟨m, rfl⟩ := hcap
    rw [walk, mask, Nat.and_two_pow_sub_one_eq_mod, Nat.mod_add_mod, ih, List.range_succ_eq_map, List.map_cons,
      List.map_map, Nat.add_zero]
    congr 2
    funext j
    rw [Function.comp_apply, Nat.succ_eq_add_one, Nat.add_assoc, Nat.add_comm 1]

theorem path_eq (hcap : ∃ m, cap = 2 ^ m) (k : ℕ) : path cap k = LinearProbing.path cap kMaxProbeNum id k := by
  have hmask : mask cap k = k % cap := by
    obtain ⟨m, rfl⟩ := hcap
    exact Nat.and_two_pow_sub_one_eq_mod ..
  rw [path, hmask]
  exact walk_eq hcap ..

theorem Sound.findable_linear (h : Sound s) :
    Findable s.slot (LinearProbing.path s.nodeCapacity kMaxProbeNum id) := by
  intro i k hi
  rw [← path_eq h.pow]
  exact h.findable i k hi

theorem Sound.find_linear (h : Sound s) :
    s.find k = probe s.slot k (LinearProbing.path s.nodeCapacity kMaxProbeNum id k) := by
  rw [find_eq_probe h.pos, path_eq h.pow]

/-! ### Keys that fit -/

/-- A table that holds key 0, and no keys but those of `T`. -/
structure Within (cap : ℕ) (T : Finset ℕ) (s : KVStore Val) : Prop where
  sound : Sound s
  capacity : s.nodeCapacity = cap
  zero : ∃ i, s.slot i = some 0
  mem : ∀ i k, s.slot i = some k → k ∈ T

theorem Within.find_ne_exhausted (h : Within cap T s) (hfit : Fits cap T) (hk : k ∈ T) :
    s.find k ≠ .exhausted := by
  intro hex
  have hne : ∀ i, s.slot i ≠ some k := by
    intro i hi
    rw [h.sound.find_hit_iff.mpr hi] at hex
    cases hex
  have hk0 : k ≠ 0 := by
    rintro rfl
    obtain ⟨i, hi⟩ := h.zero
    exact hne i hi
  have hmem : ∀ i k', s.slot i = some k' → k' ∈ T.erase k := by
    intro i k' hi
    refine Finset.mem_erase.mpr ⟨?_, h.mem i k' hi⟩
    rintro rfl
    exact hne i hi
  have hcard : (T.erase k).card < s.nodeCapacity := by
    have hpos := Finset.card_pos.mpr ⟨k, hk⟩
    have hle := hfit.1
    rw [Finset.card_erase_of_mem hk, h.capacity]
    omega
  rw [h.sound.find_linear] at hex
  have hcrowded := LinearProbing.crowded_of_exhausted h.sound.findable_linear h.mem
    (LinearProbing.exists_free h.sound.findable_linear hmem hcard) hex
  rw [h.capacity] at hcrowded
  exact hfit.2 k (Finset.mem_erase.mpr ⟨hk0, hk⟩) hcrowded

theorem Within.insert (h : Within cap T s) (hk : k ∈ T) (hf : s.find k = .free i) :
    Within cap T (s.insert k i) := by
  obtain ⟨hi, hneg, -⟩ := h.sound.free_bucket hf
  have hfree : s.slot i = none := by simp [slot, not_le.mpr hneg]
  refine ⟨h.sound.insert hf, h.capacity, ?_, fun j k' hj => ?_⟩
  · obtain ⟨j, hj⟩ := h.zero
    refine ⟨j, ?_⟩
    rw [Sound.slot_insert hi, Function.update_of_ne, hj]
    rintro rfl
    rw [hfree] at hj
    cases hj
  · rw [Sound.slot_insert hi] at hj
    by_cases hji : j = i
    · rw [hji, Function.update_self] at hj
      cases hj
      exact hk
    · rw [Function.update_of_ne hji] at hj
      exact h.mem j k' hj

theorem Within.get (h : Within cap T s) (hfit : Fits cap T) (hk : k ∈ T) (immutable : Bool) :
    ∃ t r, s.get k immutable = some (t, r) ∧ Within cap T t := by
  unfold KVStore.get
  cases hf : s.find k with
  | free i =>
    cases immutable with
    | true => exact ⟨_, _, rfl, h⟩
    | false => exact ⟨_, _, rfl, h.insert hk hf⟩
  | hit i => exact ⟨_, _, rfl, h⟩
  | exhausted => exact absurd hf (h.find_ne_exhausted hfit hk)

theorem Within.write (h : Within cap T s) : Within cap T (s.write n row) :=
  ⟨h.sound.write, h.capacity, h.zero, h.mem⟩

theorem Within.setFlag (h : Within cap T s) : Within cap T (s.setFlag i immutable) := by
  refine ⟨h.sound.setFlag, h.capacity, ?_, ?_⟩
  · rw [Sound.slot_setFlag]
    exact h.zero
  · rw [Sound.slot_setFlag]
    exact h.mem

theorem Within.set (h : Within cap T s) (hfit : Fits cap T) (hk : k ∈ T) :
    ∃ t, s.set k row immutable = some t ∧ Within cap T t := by
  obtain ⟨t, r, hget, ht⟩ := h.get hfit hk false
  obtain ⟨e, rfl, -⟩ := h.sound.get_mutable hget
  refine ⟨(t.write e.offset row).setFlag e.index immutable, ?_, ht.write.setFlag⟩
  simp [KVStore.set, hget]

theorem Within.step (h : Within cap T s) (hfit : Fits cap T) (hk : c.key ∈ T) (hc : c.fits s.valueLen = true) :
    ∃ t, s.step c = some t ∧ Within cap T t := by
  rw [KVStore.step, if_pos hc]
  cases c with
  | get key immutable =>
    change key ∈ T at hk
    obtain ⟨t, r, hget, ht⟩ := h.get hfit hk immutable
    exact ⟨t, by simp [call, hget], ht⟩
  | set key row immutable => exact h.set hfit hk
  | update key row =>
    change key ∈ T at hk
    obtain ⟨t, r, hget, ht⟩ := h.get hfit hk true
    cases r with
    | none => exact ⟨t, by simp [call, hget], ht⟩
    | some e => exact ⟨t.write e.offset row, by simp [call, hget], ht.write⟩

theorem within_new [Zero Val] (h : new initCapacity n g = some s) (h0 : 0 ∈ T) :
    Within (capacity initCapacity) T s := by
  have hs := Sound.new h
  obtain ⟨-, -, hcap, hview⟩ := sound_alloc.set (List.length_replicate ..) h
  have hother : ∀ i k, s.slot i = some k → k = 0 := by
    intro i k hi
    by_contra hk
    have hnone : s.view k = none := by
      rw [hview, Function.update_of_ne hk]
      exact view_alloc
    exact hs.1.view_eq_none_iff.mp hnone i hi
  refine ⟨hs.1, hcap, ?_, fun i k hi => hother i k hi ▸ h0⟩
  by_contra hno
  push Not at hno
  have hnone := hs.1.view_eq_none_iff.mpr hno
  rw [hview, Function.update_self] at hnone
  cases hnone

/-! ### Keys that do not -/

theorem nodeCapacity_get {r : Option Entry} (h : s.get k immutable = some (t, r)) :
    t.nodeCapacity = s.nodeCapacity := by
  rcases get_cases h with ⟨i, -, rfl, -⟩ | ⟨i, -, -, rfl, -⟩ | ⟨i, -, -, rfl, -⟩ <;> rfl

theorem nodeCapacity_step (h : s.step c = some t) : t.nodeCapacity = s.nodeCapacity := by
  unfold step at h
  split at h
  · cases c with
    | get key immutable =>
      obtain ⟨⟨u, r⟩, hget, rfl⟩ := Option.map_eq_some_iff.mp h
      exact nodeCapacity_get hget
    | set key row immutable =>
      obtain ⟨⟨u, r⟩, hget, h⟩ := Option.bind_eq_some_iff.mp h
      obtain ⟨e, -, h⟩ := Option.bind_eq_some_iff.mp h
      have hu := nodeCapacity_get hget
      cases h
      exact hu
    | update key row =>
      obtain ⟨⟨u, r⟩, hget, rfl⟩ := Option.map_eq_some_iff.mp h
      have hu := nodeCapacity_get hget
      cases r <;> exact hu
  · cases h

theorem nodeCapacity_exec (h : exec step s cs = some t) : t.nodeCapacity = s.nodeCapacity :=
  TransitionSystem.Reachable.invariant (P := fun t => t.nodeCapacity = s.nodeCapacity) ⟨cs, h⟩ rfl
    fun _ _ _ hx hstep => (nodeCapacity_step hstep).trans hx

/-- The keys that a run of mutable Gets leads to. -/
theorem stored_iff [Zero Val] {K : Finset ℕ} (h₀ : new initCapacity n g = some s₀)
    (h : exec step s₀ (K.toList.map fun k => .get k false) = some s) :
    (∃ i, s.slot i = some k) ↔ k = 0 ∨ k ∈ K := by
  obtain ⟨hs, -⟩ := Reachable.sound ⟨initCapacity, g, s₀, h₀, _, h⟩
  have hslot : (∃ i, s.slot i = some k) ↔ s.view k ≠ none := by
    rw [Ne, hs.view_eq_none_iff]
    push Not
    rfl
  rw [hslot, Ne, view_eq_none_of_exec h₀ h, not_not]
  simp [Call.key, Call.puts]

/-- Every order of calls for the keys `T` succeeds exactly when they fit. -/
theorem fits_iff [Zero Val] (h₀ : new initCapacity n g = some s₀) (h0 : 0 ∈ T) :
    (∀ cs : List (Call Val), (∀ c ∈ cs, c.key ∈ T ∧ c.fits n = true) → ∃ s, exec step s₀ cs = some s) ↔
      Fits (capacity initCapacity) T := by
  have hvalue := (Sound.new h₀).2
  have hcap : s₀.nodeCapacity = capacity initCapacity := (within_new (T := T) h₀ h0).capacity
  constructor
  · intro hall
    have hrun : ∀ K ⊆ T, ∃ s, exec step s₀ (K.toList.map fun k => .get k false) = some s ∧ Sound s ∧
        s.nodeCapacity = capacity initCapacity := by
      intro K hK
      obtain ⟨s, hs⟩ := hall (K.toList.map fun k => .get k false) (by simpa [Call.key, Call.fits] using fun k hk => hK hk)
      refine ⟨s, hs, (Reachable.sound ⟨initCapacity, g, s₀, h₀, _, hs⟩).1, ?_⟩
      exact (nodeCapacity_exec hs).trans hcap
    constructor
    · obtain ⟨s, hs, hsound, hc⟩ := hrun T subset_rfl
      rw [← hc]
      exact LinearProbing.card_le_of_stored hsound.findable_linear hsound.pos
        fun k hk => (stored_iff h₀ hs).mpr (.inr hk)
    · intro k hk hcrowded
      obtain ⟨hk0, hkT⟩ := Finset.mem_erase.mp hk
      obtain ⟨s, hs, hsound, hc⟩ := hrun (T.erase k) (Finset.erase_subset ..)
      have hex : s.find k = .exhausted := by
        rw [hsound.find_linear]
        rw [← hc] at hcrowded
        refine LinearProbing.exhausted_of_crowded hsound.findable_linear (fun k' hk' => (stored_iff h₀ hs).mpr (.inr hk'))
          (fun i hi => ?_) hcrowded
        rcases (stored_iff h₀ hs).mp ⟨i, hi⟩ with h | h
        · exact hk0 h
        · exact Finset.notMem_erase k T h
      obtain ⟨u, hu⟩ := hall ((T.erase k).toList.map (fun k => .get k false) ++ [.get k false]) (by
        intro c hc
        rcases List.mem_append.mp hc with hc | hc
        · obtain ⟨k', hk', rfl⟩ := List.mem_map.mp hc
          exact ⟨Finset.mem_of_mem_erase (Finset.mem_toList.mp hk'), rfl⟩
        · cases List.mem_singleton.mp hc
          exact ⟨hkT, rfl⟩)
      obtain ⟨v, hv, hlast⟩ := exec_append.mp hu
      rw [hs] at hv
      cases hv
      obtain ⟨w, hw, -⟩ := exec_cons.mp hlast
      simp [step, Call.fits, call, KVStore.get, hex] at hw
  · intro hfit cs hcs
    suffices ∀ s, Within (capacity initCapacity) T s → s.valueLen = n → ∃ t, exec step s cs = some t from
      this s₀ (within_new h₀ h0) hvalue
    induction cs with
    | nil => exact fun s _ _ => ⟨s, rfl⟩
    | cons c cs ih =>
      intro s hs hlen
      obtain ⟨⟨hk, hc⟩, hcs⟩ := List.forall_mem_cons.mp hcs
      obtain ⟨u, hu, hw⟩ := hs.step hfit hk (hlen ▸ hc)
      obtain ⟨t, ht⟩ := ih hcs u hw ((hs.sound.step hu).2.trans hlen)
      exact ⟨t, exec_cons.mpr ⟨u, hu, ht⟩⟩

end Hpps.Kv.KVStore

import Hpps.Kv.KVServerTable
import Hpps.Lib.History
import Hpps.Lib.TransitionSystem

/-! Which rows of a server's table are filled before they are used. -/
namespace Hpps.Kv

open KVStore TransitionSystem

/-- A row is filled before it is copied into a reply or passed to the updater. -/
def Initialised (log : List RowEvent) : Prop :=
  History.Each (fun pre event => ∀ key, event = .reply key ∨ event = .update key → .fill key ∈ pre) log

namespace Initialised

variable {log : List RowEvent} {event : RowEvent} {key : ℕ}

/-- Using a row that has been filled. -/
theorem use (h : Initialised log)
    (hevent : event = .reply key ∨ event = .update key) (hfill : .fill key ∈ log) :
    Initialised (log ++ [event]) := by
  refine History.each_append_singleton.mpr ⟨h, fun k hk => ?_⟩
  rcases hevent with rfl | rfl <;> rcases hk with hk | hk <;> cases hk <;> exact hfill

theorem fill (h : Initialised log) (key : ℕ) :
    Initialised (log ++ [.fill key]) := by
  refine History.each_append_singleton.mpr ⟨h, fun k hk => ?_⟩
  rcases hk with hk | hk <;> cases hk

end Initialised

namespace KVServerTable

variable {ρ Val : Type} [Field Val] {P : KVProcess ρ Val} {st t : KVServerTable ρ Val} {key i n : ℕ}
  {keys : List ℕ} {vals vals' delta : List Val} {option : AddOption Val} {a : KVAdd Val}

/-- The request adds to keys only that have a row. -/
def Touched (st : KVServerTable ρ Val) : KVRequest Val → Bool
  | .get _ => true
  | .add a => a.keys.all fun key => (st.store.view key).isSome

/-- Every key that has a row has a row that was filled. -/
structure Filled (st : KVServerTable ρ Val) : Prop where
  sound : Sound st.store
  filled : ∀ key, (st.store.view key).isSome → .fill key ∈ st.log
  initialised : Initialised st.log

theorem Filled.new {initCapacity : ℕ} {solver : String} {seed : ρ}
    (h : KVServerTable.new P initCapacity n solver seed = some st) : Filled st := by
  obtain ⟨store, hstore, rfl⟩ := Option.map_eq_some_iff.mp h
  obtain ⟨hs, -, -, hview⟩ := sound_alloc.set (List.length_replicate ..) hstore
  refine ⟨hs, fun key hkey => ?_, ?_⟩
  · have hnone : (alloc initCapacity n P.garbage).view key = none := by
      rw [sound_alloc.view_eq_none_iff]
      simp [slot_alloc]
    by_cases h0 : key = 0
    · simp [h0]
    · dsimp only at hkey
      rw [hview, Function.update_of_ne h0, hnone] at hkey
      cases hkey
  · have hnil : Initialised [] := History.each_nil
    exact hnil.fill 0

theorem Filled.getOne (h : Filled st) (hok : getOne P st vals i key = .ok (t, vals')) : Filled t := by
  obtain ⟨hs, -, -, -, hcase⟩ := getOne_cases h.sound hok
  rcases hcase with ⟨r, hr, hview, hlog⟩ | ⟨row, -, -, hview, hlog⟩
  · have hfill : .fill key ∈ st.log := h.filled key (by rw [hr]; rfl)
    refine ⟨hs, fun k hk => ?_, ?_⟩
    · rw [hview] at hk
      rw [hlog]
      exact List.mem_append_left _ (h.filled k hk)
    · rw [hlog]
      exact h.initialised.use (.inl rfl) hfill
  · have hsplit : st.log ++ [.fill key, .reply key] = (st.log ++ [.fill key]) ++ [.reply key] := by simp
    refine ⟨hs, fun k hk => ?_, ?_⟩
    · rw [hlog]
      by_cases hkey : k = key
      · subst hkey
        simp
      · rw [hview, Function.update_of_ne hkey] at hk
        exact List.mem_append_left _ (h.filled k hk)
    · rw [hlog, hsplit]
      exact (h.initialised.fill key).use (.inl rfl) (by simp)

/-- An Add to a key that has a row: all keys that had one still do. -/
theorem Filled.addOne (h : Filled st) (hkey : (st.store.view key).isSome)
    (hok : addOne P st option key delta = .ok t) :
    Filled t ∧ ∀ k, (st.store.view k).isSome → (t.store.view k).isSome := by
  obtain ⟨hs, -, -, hcase⟩ := addOne_cases h.sound hok
  rcases hcase with ⟨row, -, hview, -, hlog⟩ | ⟨row, row', -, -, hview, hlog⟩
  · rw [hview]
    refine ⟨⟨hs, ?_, ?_⟩, fun k hk => hk⟩
    · rw [hview, hlog]
      exact h.filled
    · rw [hlog]
      exact h.initialised
  · refine ⟨⟨hs, fun k hk => ?_, ?_⟩, fun k hk => ?_⟩
    · rw [hlog]
      apply List.mem_append_left
      apply h.filled k
      by_cases hk' : k = key
      · exact hk' ▸ hkey
      · rwa [hview, Function.update_of_ne hk'] at hk
    · rw [hlog]
      exact h.initialised.use (.inr rfl) (h.filled key hkey)
    · rw [hview]
      by_cases hk' : k = key
      · subst hk'
        rw [Function.update_self]
        rfl
      · rwa [Function.update_of_ne hk']

theorem Filled.step {m : KVRequest Val} (h : Filled st) (htouch : Touched st m)
    (hstep : step P st m = some t) : Filled t := by
  rcases step_eq_some hstep with ⟨keys, -, hok⟩ | ⟨a, rfl, hok⟩
  · obtain ⟨u, vals, hloop, -, rfl⟩ := processGet_cases hok
    have hu : Filled u := getLoop_induct (fun _ _ _ _ _ _ h hone => h.getOne hone) h hloop
    exact ⟨hu.sound, hu.filled, hu.initialised⟩
  · have hkeys : ∀ key ∈ a.keys, (st.store.view key).isSome := by simpa [Touched] using htouch
    have hall : Filled t ∧ ∀ key ∈ a.keys, (t.store.view key).isSome := by
      apply processAdd_induct (Q := fun u => Filled u ∧ ∀ key ∈ a.keys, (u.store.view key).isSome) ?_
        ⟨h, hkeys⟩ hok
      rintro u option key delta v hmem ⟨hu, hrows⟩ hone
      obtain ⟨hv, hkeep⟩ := hu.addOne (hrows key hmem) hone
      exact ⟨hv, fun k hk => hkeep k (hrows k hk)⟩
    exact hall.1

/-- If every Add finds a row for each of its keys, no row is used before it is filled. -/
theorem rows_initialised {initCapacity : ℕ} {solver : String} {seed : ρ} {st₀ : KVServerTable ρ Val}
    (hnew : KVServerTable.new P initCapacity n solver seed = some st₀)
    (h : Reachable (restrict (fun st m => Touched st m = true) (KVServerTable.step P)) st₀ st) :
    Initialised st.log := by
  have hinv : Filled st := h.invariant (Filled.new hnew) fun u m v hu hstep => by
    obtain ⟨htouch, hstep⟩ := restrict_eq_some.mp hstep
    exact hu.step htouch hstep
  exact hinv.initialised

/-- A Get of key 1 comes before the Add. -/
theorem rows_initialised_after_get : ∃ st₀ st, KVServerTable.new testProcess 4 1 "sgd" () = some st₀ ∧
    Reachable (restrict (fun st m => Touched st m = true) (KVServerTable.step testProcess)) st₀ st ∧
      st.log = [.fill 0, .fill 1, .reply 1, .update 1] ∧ Initialised st.log := by
  have hrun : ((KVServerTable.new testProcess 4 1 "sgd" ()).bind fun st₀ =>
      exec (restrict (fun st m => Touched st m = true) (KVServerTable.step testProcess)) st₀
        [.get [1], .add ⟨[1, 0], [7, 8], none⟩]).map KVServerTable.log =
          some [.fill 0, .fill 1, .reply 1, .update 1] := by rfl
  obtain ⟨st, hst, hlog⟩ := Option.map_eq_some_iff.mp hrun
  obtain ⟨st₀, hnew, hexec⟩ := Option.bind_eq_some_iff.mp hst
  exact ⟨st₀, st, hnew, ⟨_, hexec⟩, hlog, rows_initialised hnew ⟨_, hexec⟩⟩

/-- The first request for key 1 is an Add: the updater gets a row that nothing has filled. -/
theorem add_uses_unfilled_row : ∃ st₀ st, KVServerTable.new testProcess 4 1 "sgd" () = some st₀ ∧
    Reachable (KVServerTable.step testProcess) st₀ st ∧ ¬ Initialised st.log := by
  have hrun : ((KVServerTable.new testProcess 4 1 "sgd" ()).bind fun st₀ =>
      exec (KVServerTable.step testProcess) st₀ [.add ⟨[1], [7], none⟩]).map KVServerTable.log =
        some [.fill 0, .update 1] := by rfl
  obtain ⟨st, hst, hlog⟩ := Option.map_eq_some_iff.mp hrun
  obtain ⟨st₀, hnew, hexec⟩ := Option.bind_eq_some_iff.mp hst
  refine ⟨st₀, st, hnew, ⟨_, hexec⟩, fun hinit => ?_⟩
  rw [hlog] at hinit
  have := hinit [.fill 0] (.update 1) [] rfl 1 (.inr rfl)
  simp at this

end KVServerTable
end Hpps.Kv

import Hpps.Kv.KVServerTable

/-! Whether what is sent to one key shows in the row of another. -/
namespace Hpps.Kv

open Rows KVStore

/-- The rows and options that an Add addresses to one key. -/
def KVAdd.addressed {Val : Type} (n key : ℕ) (a : KVAdd Val) : List (List Val × Option (AddOption Val)) :=
  (a.keys.zipIdx.filter fun p => p.1 = key).map fun p => (row n a.vals p.2, a.option)

namespace KVServerTable

variable {ρ Val : Type} [Field Val] (P : KVProcess ρ Val) (st : KVServerTable ρ Val)

def runAdds (as : List (KVAdd Val)) : Except Stop (KVServerTable ρ Val) := as.foldlM (processAdd P) st

/-- The updater applied to one row again and again. -/
def applyPairs (n : ℕ) (u : Updater Val × List Val) (pairs : List (List Val × Option (AddOption Val))) :
    Except Stop (Updater Val × List Val) :=
  pairs.foldlM (fun u p => u.1.update P.numWorkers P.sqrt n u.2 p.1 (p.2.getD (.new P.workerRank)) 0) u

/-- What the rows and options addressed to a key alone make of its row. -/
def own (key : ℕ) (pairs : List (List Val × Option (AddOption Val))) : Option (List Val × Bool) :=
  match st.store.view key with
  | some (row, false) => (applyPairs P st.store.valueLen (st.updater, row) pairs).toOption.map fun u => (u.2, false)
  | r => r

/-- The state of the updater is not shared: there is none, or nothing but `key` is updated. -/
def Alone (key : ℕ) (keys : List ℕ) : Prop :=
  st.updater.Stateless P.numWorkers ∨ ∀ k ∈ keys, k = key ∨ ∃ row, st.store.view k = some (row, true)

/-- The key is immutable, or the Adds do not wrap, the key has a row unless it is not addressed, and the
state of the updater is not shared. -/
def Isolated (key : ℕ) (as : List (KVAdd Val)) : Prop :=
  (∃ row, st.store.view key = some (row, true)) ∨
    (∀ a ∈ as, (a.keys.length - 1) * st.store.valueLen < 2 ^ 32) ∧
      ((st.store.view key).isSome ∨ ∀ a ∈ as, key ∉ a.keys) ∧
      Alone P st key (as.flatMap KVAdd.keys)

variable {P st} {t : KVServerTable ρ Val} {key k n : ℕ} {keys : List ℕ} {delta r : List Val}
  {option : AddOption Val} {a : KVAdd Val} {as bs : List (KVAdd Val)}

theorem view_addOne_of_ne (h : Sound st.store) (hne : k ≠ key) (hok : addOne P st option k delta = .ok t) :
    t.store.view key = st.store.view key := by
  obtain ⟨-, -, -, hcase⟩ := addOne_cases h hok
  rcases hcase with ⟨row, -, hview, -⟩ | ⟨row, row', -, -, hview, -⟩
  · rw [hview]
  · rw [hview, Function.update_of_ne (Ne.symm hne)]

theorem view_addOne_of_immutable (h : Sound st.store) (himm : st.store.view key = some (r, true))
    (hok : addOne P st option k delta = .ok t) : t.store.view key = some (r, true) := by
  by_cases hk : k = key
  · subst hk
    obtain ⟨-, -, -, hcase⟩ := addOne_cases h hok
    rcases hcase with ⟨row, -, hview, -⟩ | ⟨row, row', hrow, -⟩
    · rw [hview, himm]
    · rw [himm] at hrow
      rcases hrow with hrow | hrow <;> cases hrow
  · rw [view_addOne_of_ne h hk hok, himm]

/-- An update of another key leaves the updater alone. -/
theorem updater_addOne_of_ne (h : Sound st.store) (hne : k ≠ key) (halone : Alone P st key (k :: keys))
    (hok : addOne P st option k delta = .ok t) : t.updater = st.updater := by
  obtain ⟨-, -, -, hcase⟩ := addOne_cases h hok
  rcases hcase with ⟨row, -, -, hu, -⟩ | ⟨row, row', hrow, hu, -⟩
  · exact hu
  · rcases halone with hs | hall
    · exact hs.update hu
    · rcases hall k List.mem_cons_self with heq | ⟨r, hr⟩
      · exact absurd heq hne
      · rw [hr] at hrow
        rcases hrow with hrow | hrow <;> cases hrow

/-- The row of the key and the updater after one round. -/
theorem addOne_own (h : Sound st.store) (hrow : st.store.view key = some (r, false))
    (hok : addOne P st option key delta = .ok t) : ∃ r',
      st.updater.update P.numWorkers P.sqrt st.store.valueLen r delta option 0 = .ok (t.updater, r') ∧
        t.store.view key = some (r', false) := by
  obtain ⟨-, -, -, hcase⟩ := addOne_cases h hok
  rcases hcase with ⟨row, himm, -⟩ | ⟨row, row', hrow', hu, hview, -⟩
  · rw [hrow] at himm
    cases himm
  · rw [hrow] at hrow'
    rcases hrow' with hrow' | hrow'
    · cases hrow'
      refine ⟨row', hu, ?_⟩
      rw [hview, Function.update_self]
    · cases hrow'

theorem Alone.tail (h : Alone P st key (k :: keys)) : Alone P st key keys :=
  h.imp_right fun hall k hk => hall k (List.mem_cons_of_mem _ hk)

theorem Alone.addOne (h : Alone P st key (k :: keys)) (hs : Sound st.store)
    (hok : addOne P st option k delta = .ok t) : Alone P t key (k :: keys) := by
  rcases h with hstate | hall
  · left
    obtain ⟨-, -, -, hcase⟩ := addOne_cases hs hok
    rcases hcase with ⟨row, -, -, hu, -⟩ | ⟨row, row', -, hu, -⟩
    · rwa [hu]
    · rwa [hstate.update hu]
  · right
    intro k' hk'
    rcases hall k' hk' with heq | ⟨r, hr⟩
    · exact .inl heq
    · exact .inr ⟨r, view_addOne_of_immutable hs hr hok⟩

/-- The rounds of an Add: the row of the key and the updater go through what is addressed to the key. -/
theorem rounds_own (rest : List ℕ) {o : Option (AddOption Val)} {ps : List (ℕ × List Val)} (h : Sound st.store)
    (hrow : st.store.view key = some (r, false)) (halone : Alone P st key (ps.map Prod.fst ++ rest))
    (hok : ps.foldlM (fun st p => addOne P st (o.getD (.new P.workerRank)) p.1 p.2) st = .ok t) :
    Sound t.store ∧ t.store.valueLen = st.store.valueLen ∧ Alone P t key rest ∧ ∃ r',
      applyPairs P st.store.valueLen (st.updater, r)
        ((ps.filter fun p => p.1 = key).map fun p => (p.2, o)) = .ok (t.updater, r') ∧
      t.store.view key = some (r', false) := by
  induction ps generalizing st r with
  | nil =>
    cases hok
    exact ⟨h, rfl, halone, r, rfl, hrow⟩
  | cons p ps ih =>
    rw [List.foldlM_cons] at hok
    obtain ⟨u, hone, hok⟩ := bind_eq_ok.mp hok
    obtain ⟨hu, hv, -⟩ := addOne_cases h hone
    rw [List.map_cons, List.cons_append] at halone
    by_cases hp : p.1 = key
    · rw [hp] at hone
      obtain ⟨r₁, hstep, hview⟩ := addOne_own h hrow hone
      obtain ⟨ht, hvt, hrest, r', hpairs, hrow'⟩ := ih hu hview ((hp ▸ halone).addOne h hone).tail hok
      refine ⟨ht, hvt.trans hv, hrest, r', ?_, hrow'⟩
      rw [List.filter_cons_of_pos (by simpa using hp), List.map_cons, applyPairs, List.foldlM_cons, hstep, ok_bind,
        ← hv]
      exact hpairs
    · have hview := view_addOne_of_ne h hp hone
      obtain ⟨ht, hvt, hrest, r', hpairs, hrow'⟩ := ih hu (hview.trans hrow) (halone.addOne h hone).tail hok
      refine ⟨ht, hvt.trans hv, hrest, r', ?_, hrow'⟩
      rw [List.filter_cons_of_neg (by simpa using hp), ← hv, ← updater_addOne_of_ne h hp halone hone]
      exact hpairs

theorem processAdd_own {rest : List ℕ} (h : Sound st.store) (hrow : st.store.view key = some (r, false))
    (halone : Alone P st key (a.keys ++ rest)) (hfits : (a.keys.length - 1) * st.store.valueLen < 2 ^ 32)
    (hok : processAdd P st a = .ok t) :
    Sound t.store ∧ t.store.valueLen = st.store.valueLen ∧ Alone P t key rest ∧ ∃ r',
      applyPairs P st.store.valueLen (st.updater, r) (a.addressed st.store.valueLen key) = .ok (t.updater, r') ∧
      t.store.view key = some (r', false) := by
  unfold processAdd at hok
  dsimp only at hok
  split at hok
  · have hmap : a.keys.zipIdx.map (fun p => (p.1, rowAt st.store.valueLen a.vals p.2)) =
        a.keys.zipIdx.map fun p => (p.1, row st.store.valueLen a.vals p.2) := by
      apply List.map_congr_left
      intro p hp
      have hi := List.snd_lt_of_mem_zipIdx hp
      rw [Partition.rowAt_eq ((Nat.mul_le_mul_right _ (by omega)).trans_lt hfits)]
    have hfold := congrArg (List.foldlM (fun (st : KVServerTable ρ Val) (p : ℕ × List Val) =>
      addOne P st (a.option.getD (.new P.workerRank)) p.1 p.2) st) hmap
    rw [List.foldlM_map] at hfold
    have hlt : 0 + a.keys.length < 2 ^ 31 := lt_of_forInt hok (by norm_num)
    rw [forInt_eq hlt] at hok
    have hown := rounds_own rest (o := a.option) h hrow (by simpa [Function.comp_def] using halone)
      (hfold.symm.trans hok)
    rw [List.filter_map, List.map_map] at hown
    exact hown
  · cases hok

theorem view_run_own (h : Sound st.store) (hrow : st.store.view key = some (r, false))
    (halone : Alone P st key (as.flatMap KVAdd.keys))
    (hfits : ∀ a ∈ as, (a.keys.length - 1) * st.store.valueLen < 2 ^ 32) (hok : runAdds P st as = .ok t) :
    ∃ r', applyPairs P st.store.valueLen (st.updater, r) (as.flatMap (KVAdd.addressed st.store.valueLen key)) =
      .ok (t.updater, r') ∧ t.store.view key = some (r', false) := by
  induction as generalizing st r with
  | nil =>
    cases hok
    exact ⟨r, rfl, hrow⟩
  | cons a as ih =>
    rw [List.forall_mem_cons] at hfits
    rw [runAdds, List.foldlM_cons] at hok
    obtain ⟨u, hone, hok⟩ := bind_eq_ok.mp hok
    obtain ⟨hu, hv, hrest, r₁, hpairs, hrow₁⟩ := processAdd_own h hrow halone hfits.1 hone
    obtain ⟨r', hpairs', hrow'⟩ := ih hu hrow₁ hrest (hv ▸ hfits.2) hok
    refine ⟨r', ?_, hrow'⟩
    rw [List.flatMap_cons, applyPairs, List.foldlM_append]
    rw [applyPairs] at hpairs
    rw [hpairs, ok_bind, ← hv]
    exact hpairs'

/-- What a run leaves as it was, as every round for a key of the run does. -/
theorem runAdds_induct {Q : KVServerTable ρ Val → Prop}
    (hround : ∀ st option k delta t, (∃ a ∈ as, k ∈ a.keys) → Q st → addOne P st option k delta = .ok t → Q t)
    (h : Q st) (hok : runAdds P st as = .ok t) : Q t := by
  apply foldlM_induct (fun u a ha v hu hv => ?_) h hok
  apply processAdd_induct (fun st option k delta t hk => ?_) hu hv
  exact hround st option k delta t ⟨a, ha, hk⟩

/-- After an isolated run the row of the key is what the pairs addressed to it make of it. -/
theorem view_run (h : Sound st.store) (hiso : Isolated P st key as) (hok : runAdds P st as = .ok t) :
    t.store.view key = own P st key (as.flatMap (KVAdd.addressed st.store.valueLen key)) := by
  cases hview : st.store.view key with
  | none =>
    rcases hiso with ⟨row, himm⟩ | ⟨-, hsome, -⟩
    · rw [hview] at himm
      cases himm
    · have hnot : ∀ a ∈ as, key ∉ a.keys := hsome.resolve_left (by simp [hview])
      have hkeep : Sound t.store ∧ t.store.view key = st.store.view key := by
        apply runAdds_induct (Q := fun u => Sound u.store ∧ u.store.view key = st.store.view key) ?_ ⟨h, rfl⟩ hok
        rintro u option k delta v ⟨a, ha, hk⟩ ⟨hu, hview⟩ hone
        have hne : k ≠ key := by
          rintro rfl
          exact hnot a ha hk
        exact ⟨(addOne_cases hu hone).1, (view_addOne_of_ne hu hne hone).trans hview⟩
      rw [hkeep.2, own, hview]
  | some row =>
    obtain ⟨row, flag⟩ := row
    cases flag with
    | true =>
      have hkeep : Sound t.store ∧ t.store.view key = some (row, true) := by
        apply runAdds_induct (Q := fun u => Sound u.store ∧ u.store.view key = some (row, true)) ?_ ⟨h, hview⟩ hok
        rintro u option k delta v - ⟨hu, himm⟩ hone
        exact ⟨(addOne_cases hu hone).1, view_addOne_of_immutable hu himm hone⟩
      rw [hkeep.2, own, hview]
    | false =>
      rcases hiso with ⟨row', himm⟩ | ⟨hfits, -, halone⟩
      · rw [hview] at himm
        cases himm
      · obtain ⟨r', hpairs, hrow⟩ := view_run_own h hview halone hfits hok
        simp only [hrow, own, hview, hpairs]
        rfl

/-- Two isolated runs that agree on what is addressed to a key leave it with the same row. -/
theorem same_row (h : Sound st.store) {sa sb : KVServerTable ρ Val} (ha : Isolated P st key as)
    (hb : Isolated P st key bs)
    (hsame : as.flatMap (KVAdd.addressed st.store.valueLen key) =
      bs.flatMap (KVAdd.addressed st.store.valueLen key))
    (hruna : runAdds P st as = .ok sa) (hrunb : runAdds P st bs = .ok sb) :
    sa.store.view key = sb.store.view key := by
  rw [view_run h ha hruna, view_run h hb hrunb, hsame]

/-- A server of one value per key after a Get of keys 1 and 2. -/
def testServer (solver : String) : Option (KVServerTable Unit ℚ) :=
  (KVServerTable.new testProcess 4 1 solver ()).bind fun st => (processGet testProcess st [1, 2]).toOption

theorem sound_testServer {solver : String} {st : KVServerTable Unit ℚ} (h : testServer solver = some st) :
    Sound st.store := by
  obtain ⟨st₀, hnew, hget⟩ := Option.bind_eq_some_iff.mp h
  obtain ⟨store, hstore, rfl⟩ := Option.map_eq_some_iff.mp hnew
  obtain ⟨u, vals, hloop, -, rfl⟩ := processGet_cases (toOption_eq_some.mp hget)
  have hu : Sound u.store := getLoop_induct (Q := fun st => Sound st.store)
    (fun _ _ _ _ _ _ hs hone => (getOne_cases hs hone).1) (Sound.new hstore).1 hloop
  exact hu

/-- The default option of the process and one value for the key. -/
def testAdd (key : ℕ) (val : ℚ) : KVAdd ℚ := ⟨[key], [val], none⟩

/-- Both runs of plain gradient descent leave the row of key 1 with the same value. -/
theorem same_row_sgd : ∃ st sa sb, testServer "sgd" = some st ∧
    runAdds testProcess st [testAdd 1 1] = .ok sa ∧ runAdds testProcess st [testAdd 2 10, testAdd 1 1] = .ok sb ∧
      sa.store.view 2 ≠ sb.store.view 2 ∧ sa.store.view 1 = sb.store.view 1 := by
  have hrun : ((testServer "sgd").bind fun st => (runAdds testProcess st [testAdd 1 1]).toOption.bind fun sa =>
      (runAdds testProcess st [testAdd 2 10, testAdd 1 1]).toOption.map fun sb =>
        (decide (st.updater = .sgd), st.store.valueLen, (st.store.view 1).isSome,
          decide (sa.store.view 2 = sb.store.view 2))) = some (true, 1, true, false) := by decide +kernel
  obtain ⟨st, hst, hrun⟩ := Option.bind_eq_some_iff.mp hrun
  obtain ⟨sa, hsa, hrun⟩ := Option.bind_eq_some_iff.mp hrun
  obtain ⟨sb, hsb, hrun⟩ := Option.map_eq_some_iff.mp hrun
  simp only [Prod.mk.injEq, decide_eq_true_eq, decide_eq_false_iff_not] at hrun
  obtain ⟨hsgd, hlen, hrow, hne⟩ := hrun
  rw [toOption_eq_some] at hsa hsb
  have hiso : ∀ as, (∀ a ∈ as, a.keys.length = 1) → Isolated testProcess st 1 as := by
    intro as has
    refine .inr ⟨fun a ha => ?_, .inl hrow, .inl (by simp [hsgd, Updater.Stateless])⟩
    rw [has a ha, hlen]
    norm_num
  refine ⟨st, sa, sb, hst, hsa, hsb, hne, ?_⟩
  apply same_row (sound_testServer hst) (hiso _ ?_) (hiso _ ?_) ?_ hsa hsb
  · simp [testAdd]
  · simp [testAdd]
  · rw [hlen]
    rfl

/-- The momentum that an Add for key 2 leaves moves the row of key 1. -/
theorem momentum_shared : ∃ st sa sb, testServer "momentum_sgd" = some st ∧
    runAdds testProcess st [testAdd 1 1] = .ok sa ∧ runAdds testProcess st [testAdd 2 10, testAdd 1 1] = .ok sb ∧
      [testAdd 1 1].flatMap (KVAdd.addressed 1 1) = [testAdd 2 10, testAdd 1 1].flatMap (KVAdd.addressed 1 1) ∧
        sa.store.view 1 ≠ sb.store.view 1 := by
  have hrun : ((testServer "momentum_sgd").bind fun st =>
      (runAdds testProcess st [testAdd 1 1]).toOption.bind fun sa =>
        (runAdds testProcess st [testAdd 2 10, testAdd 1 1]).toOption.map fun sb =>
          decide (sa.store.view 1 = sb.store.view 1)) = some false := by decide +kernel
  obtain ⟨st, hst, hrun⟩ := Option.bind_eq_some_iff.mp hrun
  obtain ⟨sa, hsa, hrun⟩ := Option.bind_eq_some_iff.mp hrun
  obtain ⟨sb, hsb, hrun⟩ := Option.map_eq_some_iff.mp hrun
  rw [toOption_eq_some] at hsa hsb
  exact ⟨st, sa, sb, hst, hsa, hsb, rfl, of_decide_eq_false hrun⟩

end KVServerTable
end Hpps.Kv

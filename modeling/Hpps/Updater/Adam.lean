import Hpps.Updater.Runs

/-! Sequences of Adam updates: the moments, the steps, and the term that the loop subtracts on top of them. -/
namespace Hpps.Updater

open Finset

variable {T : Type} [Field T]

/-- The moving averages of the delta and of its square at index `i`, from zero. -/
def moments (i : ℕ) (cs : List (UpdateCall T)) : T × T :=
  cs.foldl (fun mv c =>
    if c.covers i then
      (c.option.beta1 * mv.1 + (1 - c.option.beta1) * c.deltaAt i,
        c.option.beta2 * mv.2 + (1 - c.option.beta2) * c.deltaAt i ^ 2)
    else mv) (0, 0)

/-- The step of the last of the calls at index `i`. -/
def adamStep (sqrt : T → T) (i : ℕ) (cs : List (UpdateCall T)) : T :=
  match cs.getLast? with
  | some c =>
    if c.covers i then c.option.learningRate * (moments i cs).1 / (sqrt (moments i cs).2 + c.option.eps) else 0
  | none => 0

/-- The term of one call that is no part of an Adam step. -/
def strayTerm (i : ℕ) (c : UpdateCall T) : T :=
  if c.covers i then c.option.learningRate * c.deltaAt i else 0

/-- The sum of the steps after each of the calls. -/
def adamSteps (sqrt : T → T) (i : ℕ) (cs : List (UpdateCall T)) : T :=
  ∑ t ∈ range cs.length, adamStep sqrt i (cs.take (t + 1))

variable {sqrt : T → T} {numWorkers size i : ℕ} {updaterType : String} {data mom1 mom2 : List T} {c : UpdateCall T}
  {cs : List (UpdateCall T)}

theorem moments_concat : moments i (cs ++ [c]) =
    if c.covers i then
      (c.option.beta1 * (moments i cs).1 + (1 - c.option.beta1) * c.deltaAt i,
        c.option.beta2 * (moments i cs).2 + (1 - c.option.beta2) * c.deltaAt i ^ 2)
    else moments i cs := by
  rw [moments, List.foldl_append]
  rfl

theorem adamSteps_concat : adamSteps sqrt i (cs ++ [c]) = adamSteps sqrt i cs + adamStep sqrt i (cs ++ [c]) := by
  rw [adamSteps, List.length_append, List.length_singleton, sum_range_succ, List.take_of_length_le (by simp)]
  refine congrArg (· + _) (sum_congr rfl fun t ht => ?_)
  rw [List.take_append_of_le_length (by have := mem_range.mp ht; omega)]

theorem adamStep_concat : adamStep sqrt i (cs ++ [c]) =
    if c.covers i then
      c.option.learningRate * (moments i (cs ++ [c])).1 / (sqrt (moments i (cs ++ [c])).2 + c.option.eps)
    else 0 := by
  rw [adamStep, List.getLast?_concat]

/-- One update: each index that the call covers makes its step, and moves by the stray term. -/
theorem adamUpdate_at (sqrt : T → T) (hfit : c.Fits size) (h1 : mom1.length = size) (h2 : mom2.length = size) (hd : data.length = size) :
    ∃ m v r, adamUpdate sqrt mom1 mom2 c.numElement data c.delta c.option c.offset = .ok (m, v, r) ∧
      (m.length = size ∧ v.length = size ∧ r.length = size) ∧ ∀ i,
        (c.covers i = true → m.getD i 0 = c.option.beta1 * mom1.getD i 0 + (1 - c.option.beta1) * c.deltaAt i ∧
          v.getD i 0 = c.option.beta2 * mom2.getD i 0 + (1 - c.option.beta2) * c.deltaAt i ^ 2 ∧
          r.getD i 0 = data.getD i 0 - c.option.learningRate * m.getD i 0 / (sqrt (v.getD i 0) + c.option.eps) -
            c.option.learningRate * c.deltaAt i) ∧
        (c.covers i = false → m.getD i 0 = mom1.getD i 0 ∧ v.getD i 0 = mom2.getD i 0 ∧ r.getD i 0 = data.getD i 0) := by
  obtain ⟨hroom, hdelta⟩ := hfit
  obtain ⟨m, hm, hml, hmat⟩ := eachWith_at (fun m d => c.option.beta1 * m + (1 - c.option.beta1) * d) mom1 c.delta
    (h1.symm ▸ hroom) hdelta
  obtain ⟨v, hv, hvl, hvat⟩ := eachWith_at (fun m d => c.option.beta2 * m + (1 - c.option.beta2) * d * d) mom2 c.delta
    (h2.symm ▸ hroom) hdelta
  obtain ⟨var1, hvar1, hl1, hat1⟩ := fetch_at m (show c.offset + c.numElement ≤ m.length by omega)
  obtain ⟨var2, hvar2, hl2, hat2⟩ := fetch_at v (show c.offset + c.numElement ≤ v.length by omega)
  obtain ⟨x, hx, hxl, hxat⟩ := eachWith_at (fun x q => x - q) data
    (List.zipWith (fun m v => c.option.learningRate * m / (sqrt v + c.option.eps)) var1 var2)
    (hd.symm ▸ hroom) (by simp [hl1, hl2])
  obtain ⟨r, hr, hrl, hrat⟩ := eachWith_at (fun x d => x - d * c.option.learningRate) x c.delta
    (show c.offset + c.numElement ≤ x.length by omega) hdelta
  refine ⟨m, v, r, ?_, ⟨by omega, by omega, by omega⟩, fun i => ⟨fun hi => ?_, fun hi => ?_⟩⟩
  · rw [adamUpdate, hm, ok_bind, hv, ok_bind, hvar1, ok_bind, hvar2, ok_bind, hx, ok_bind, hr]
    rfl
  · have hin := c.covers_iff i |>.mp hi
    have hk : i - c.offset < c.numElement := by omega
    have hquot := getD_zipWith (fun m v => c.option.learningRate * m / (sqrt v + c.option.eps))
      (hl1.symm ▸ hk) (hl2.symm ▸ hk)
    rw [hat1 _ hk, hat2 _ hk, Nat.add_sub_cancel' hin.1] at hquot
    refine ⟨?_, ?_, ?_⟩
    · rw [hmat, if_pos hin, UpdateCall.deltaAt]
    · rw [hvat, if_pos hin, UpdateCall.deltaAt, mul_assoc, ← sq]
    · rw [hrat, if_pos hin, hxat, if_pos hin, hquot, UpdateCall.deltaAt, mul_comm (c.delta.getD _ _)]
  · have hout : ¬ (c.offset ≤ i ∧ i < c.offset + c.numElement) := by
      rw [← c.covers_iff i, hi]
      exact Bool.false_ne_true
    exact ⟨by rw [hmat, if_neg hout], by rw [hvat, if_neg hout], by rw [hrat, if_neg hout, hxat, if_neg hout]⟩

/-- After any calls the data has made the steps, and has moved by the stray terms too. -/
theorem run_adam (numWorkers : ℕ) (sqrt : T → T) (updaterType : String) (hfit : ∀ c ∈ cs, c.Fits size) (hd : data.length = size) :
    ∃ mom1 mom2 r, run numWorkers sqrt (getUpdater numWorkers updaterType size "adam", data) cs = .ok (.adam mom1 mom2, r) ∧
      (mom1.length = size ∧ mom2.length = size ∧ r.length = size) ∧ ∀ i,
        (mom1.getD i 0, mom2.getD i 0) = moments i cs ∧
          r.getD i 0 = data.getD i 0 - adamSteps sqrt i cs - (cs.map (strayTerm i)).sum := by
  induction cs using List.reverseRecOn with
  | nil =>
    refine ⟨List.replicate size 0, List.replicate size 0, data, rfl, by simp [hd], fun i => ?_⟩
    simp [moments, adamSteps, List.getD_eq_getElem?_getD, List.getElem?_replicate]
    split <;> rfl
  | append_singleton cs c ih =>
    obtain ⟨mom1, mom2, x, hrun, ⟨h1, h2, hx⟩, hat⟩ := ih fun c hc => hfit c (List.mem_append_left _ hc)
    obtain ⟨m, v, r, hupdate, hlen, hcall⟩ := adamUpdate_at sqrt (hfit c (by simp)) h1 h2 hx
    refine ⟨m, v, r, ?_, hlen, fun i => ?_⟩
    · rw [run_concat, hrun, ok_bind, apply, update, hupdate]
      rfl
    · obtain ⟨hmv, hxi⟩ := hat i
      have hm1 : mom1.getD i 0 = (moments i cs).1 := by rw [← hmv]
      have hm2 : mom2.getD i 0 = (moments i cs).2 := by rw [← hmv]
      rw [moments_concat, adamSteps_concat, List.map_append, List.sum_append, List.map_singleton, List.sum_singleton,
        adamStep_concat, moments_concat, strayTerm]
      cases hi : c.covers i with
      | true =>
        obtain ⟨hmi, hvi, hri⟩ := (hcall i).1 hi
        rw [hm1] at hmi
        rw [hm2] at hvi
        simp only [if_true, hri, hxi, hmi, hvi]
        exact ⟨trivial, by ring⟩
      | false =>
        obtain ⟨hmi, hvi, hri⟩ := (hcall i).2 hi
        simp only [Bool.false_eq_true, if_false, hri, hxi, hmi, hvi, hmv]
        exact ⟨trivial, by ring⟩

/-- The data makes just the Adam steps exactly when the terms that are subtracted on top of them cancel. -/
theorem takes_adam_steps_iff (hfit : ∀ c ∈ cs, c.Fits size) (hd : data.length = size) :
    (∃ u r, run numWorkers sqrt (getUpdater numWorkers updaterType size "adam", data) cs = .ok (u, r) ∧
      ∀ i < size, r.getD i 0 = data.getD i 0 - adamSteps sqrt i cs) ↔ ∀ i < size, (cs.map (strayTerm i)).sum = 0 := by
  obtain ⟨mom1, mom2, r, hrun, -, hat⟩ := run_adam numWorkers sqrt updaterType hfit hd
  constructor
  · rintro ⟨u, r', hrun', hsteps⟩ i hi
    rw [hrun] at hrun'
    cases hrun'
    have hri := (hat i).2
    rw [hsteps i hi] at hri
    exact sub_eq_self.mp hri.symm
  · intro hstray
    refine ⟨_, r, hrun, fun i hi => ?_⟩
    rw [(hat i).2, hstray i hi, sub_zero]

/-- A call on one element with learning rate 1, for small tests. -/
def oneCall (delta : ℚ) : UpdateCall ℚ := ⟨⟨0, 1, 9 / 10, 999 / 1000, 1⟩, 1, [delta], 0⟩

/-- Two opposite deltas. -/
theorem takes_adam_steps_two : ∃ u r,
    run 1 (fun x => x) (getUpdater 1 "" 1 "adam", [5]) [oneCall 2, oneCall (-2)] = .ok (u, r) ∧
      ∀ i < 1, r.getD i 0 = [5].getD i 0 - adamSteps (fun x => x) i [oneCall 2, oneCall (-2)] := by
  refine (takes_adam_steps_iff (show ∀ c ∈ [oneCall 2, oneCall (-2)], c.Fits 1 by simp [oneCall, UpdateCall.Fits])
    (show [(5 : ℚ)].length = 1 from rfl)).mpr ?_
  intro i hi
  obtain rfl : i = 0 := by omega
  norm_num [strayTerm, oneCall, UpdateCall.covers, UpdateCall.deltaAt]

/-- After a single delta the data is off by it. -/
theorem adam_strays : ¬ ∃ u r, run 1 (fun x => x) (getUpdater 1 "" 1 "adam", [5]) [oneCall 2] = .ok (u, r) ∧
    ∀ i < 1, r.getD i 0 = [5].getD i 0 - adamSteps (fun x => x) i [oneCall 2] := by
  rintro ⟨u, r, hrun, hsteps⟩
  obtain ⟨mom1, mom2, r', hrun', -, hat⟩ := run_adam 1 (fun x => x) ""
    (show ∀ c ∈ [oneCall 2], c.Fits 1 by simp [oneCall, UpdateCall.Fits]) (show [(5 : ℚ)].length = 1 from rfl)
  rw [hrun] at hrun'
  cases hrun'
  have hoff := (hat 0).2
  rw [hsteps 0 one_pos] at hoff
  have hstray : ([oneCall 2].map (strayTerm 0)).sum = 2 := by
    norm_num [strayTerm, oneCall, UpdateCall.covers, UpdateCall.deltaAt]
  rw [hstray] at hoff
  linarith

end Hpps.Updater

import Hpps.Updater.Runs

/-! Sequences of AdaGrad updates: what the square root is taken of. -/
namespace Hpps.Updater

variable {T : Type} [Field T] [LinearOrder T] [IsStrictOrderedRing T]

/-- The arguments of the square root in one call, in the order of its deltas. -/
def adagradRoots (historicGSqr : List (List T)) (c : UpdateCall T) : Except Stop (List T) :=
  let lr := c.option.learningRate
  match if 0 ≤ c.option.workerId then historicGSqr[c.option.workerId.toNat]? else none with
  | none => .error .memory
  | some gSqrData => do
    let gSqrData ← eachWith (fun g d => g - d * d / lr / lr) c.numElement c.offset gSqrData c.delta
    let g ← fetch gSqrData c.offset c.numElement
    return g.map (· + adagradE)

omit [LinearOrder T] [IsStrictOrderedRing T] in
/-- The square root is taken of these, and of nothing else. -/
theorem adagradUpdate_roots {sqrt : T → T} {historicGSqr : List (List T)} {data : List T} {c : UpdateCall T} :
    adagradUpdate sqrt historicGSqr c.numElement data c.delta c.option c.offset = (do
      let roots ← adagradRoots historicGSqr c
      let d ← fetch c.delta 0 c.numElement
      eachWith (fun x q => x - q) c.numElement c.offset data
        (List.zipWith (fun r d => c.option.rho / sqrt r * d / c.option.learningRate) roots d)) := by
  unfold adagradUpdate adagradRoots
  dsimp only
  cases (if 0 ≤ c.option.workerId then historicGSqr[c.option.workerId.toNat]? else none) with
  | none => rfl
  | some gSqrData => simp only [bind_assoc, pure_bind, List.zipWith_map_left, adagradE]

variable (numWorkers size : ℕ) (sqrt : T → T) (updaterType : String) (data : List T)

/-- The table after these calls. -/
def adagradRun (cs : List (UpdateCall T)) : Except Stop (Updater T × List T) :=
  run numWorkers sqrt (getUpdater numWorkers updaterType size "adagrad", data) cs

/-- The argument of the square root for index `i`, in the call `c` that comes after the calls `cs`. -/
def rootAt (cs : List (UpdateCall T)) (c : UpdateCall T) (i : ℕ) : Option T :=
  match adagradRun numWorkers size sqrt updaterType data cs with
  | .ok (.adagrad historicGSqr, _) => (adagradRoots historicGSqr c).toOption.bind fun roots => roots[i - c.offset]?
  | _ => none

/-- The history that worker `w` has after these calls. -/
def historyOf (cs : List (UpdateCall T)) (w : ℕ) : Option (List T) :=
  match adagradRun numWorkers size sqrt updaterType data cs with
  | .ok (.adagrad historicGSqr, _) => historicGSqr[w]?
  | _ => none

/-- The squared gradients of a worker at index `i`, summed over its calls. -/
def sumSquares (workerId : ℤ) (i : ℕ) (cs : List (UpdateCall T)) : T :=
  (cs.map fun c => if c.option.workerId = workerId ∧ c.covers i then (c.deltaAt i / c.option.learningRate) ^ 2 else 0).sum

/-- The law of AdaGrad: the square root is taken of `e` and the squared gradients of the worker so far. -/
structure Accumulates (cs : List (UpdateCall T)) : Prop where
  root : ∀ pre c post, cs = pre ++ c :: post → ∀ i, c.covers i = true →
    rootAt numWorkers size sqrt updaterType data pre c i =
      some (adagradE + sumSquares c.option.workerId i (pre ++ [c]))
  pos : ∀ pre c post, cs = pre ++ c :: post → ∀ i, c.covers i = true →
    ∃ x, rootAt numWorkers size sqrt updaterType data pre c i = some x ∧ 0 < x
  mono : ∀ pre c mid c' post, cs = pre ++ c :: mid ++ c' :: post → c.option.workerId = c'.option.workerId →
    ∀ i, c.covers i = true → c'.covers i = true → ∃ x y, rootAt numWorkers size sqrt updaterType data pre c i = some x ∧
      rootAt numWorkers size sqrt updaterType data (pre ++ c :: mid) c' i = some y ∧ x ≤ y
  others : ∀ pre c post, cs = pre ++ c :: post → ∀ w : ℕ, (w : ℤ) ≠ c.option.workerId →
    historyOf numWorkers size sqrt updaterType data (pre ++ [c]) w = historyOf numWorkers size sqrt updaterType data pre w

/-- A call that comes from a worker, stays within the table and has a learning rate. -/
structure Proper (c : UpdateCall T) : Prop where
  worker : 0 ≤ c.option.workerId ∧ c.option.workerId < numWorkers
  fits : c.Fits size
  rate : c.option.learningRate ≠ 0

variable {numWorkers size sqrt updaterType data} {c c' : UpdateCall T} {cs : List (UpdateCall T)} {i : ℕ}

/-- What the table keeps for its workers: no update writes to it. -/
def zeroHistories (numWorkers size : ℕ) : List (List T) := List.replicate numWorkers (List.replicate size 0)

omit [LinearOrder T] [IsStrictOrderedRing T] in
theorem adagradRoots_zero (hc : Proper numWorkers size c) :
    ∃ roots, adagradRoots (zeroHistories numWorkers size) c = .ok roots ∧ roots.length = c.numElement ∧
      ∀ i, c.covers i = true → roots[i - c.offset]? = some (adagradE - (c.deltaAt i / c.option.learningRate) ^ 2) := by
  obtain ⟨⟨hpos, hlt⟩, ⟨hroom, hdelta⟩, -⟩ := hc
  have hw : (zeroHistories numWorkers size : List (List T))[c.option.workerId.toNat]? = some (List.replicate size 0) := by
    rw [zeroHistories, List.getElem?_replicate, if_pos (by omega)]
  obtain ⟨g, hg, hgl, hgat⟩ := eachWith_at
    (fun g d => g - d * d / c.option.learningRate / c.option.learningRate) (List.replicate size 0) c.delta
    (by simpa using hroom) hdelta
  rw [List.length_replicate] at hgl
  obtain ⟨l, hl, hll, hlat⟩ := fetch_at g (show c.offset + c.numElement ≤ g.length by omega)
  refine ⟨l.map (· + adagradE), ?_, by rw [List.length_map, hll], fun i hi => ?_⟩
  · simp only [adagradRoots, hpos, if_true, hw, hg, ok_bind, hl]
    rfl
  · have hin := c.covers_iff i |>.mp hi
    have hk : i - c.offset < c.numElement := by omega
    have hzero : (List.replicate size (0 : T)).getD i 0 = 0 := by
      rw [List.getD_eq_getElem?_getD, List.getElem?_replicate]
      split <;> rfl
    have hvalue := hlat (i - c.offset) hk
    rw [Nat.add_sub_cancel' hin.1, hgat, if_pos hin, hzero, zero_sub, List.getD_eq_getElem?_getD,
      List.getElem?_eq_getElem (hll.symm ▸ hk), Option.getD_some] at hvalue
    rw [List.getElem?_map, List.getElem?_eq_getElem (hll.symm ▸ hk), hvalue, Option.map_some, div_pow, sq, sq, ← div_div,
      UpdateCall.deltaAt, neg_add_eq_sub]

omit [LinearOrder T] [IsStrictOrderedRing T] in
/-- The updates go through, and leave the histories as they were. -/
theorem run_adagrad (sqrt : T → T) (updaterType : String) (hp : ∀ c ∈ cs, Proper numWorkers size c) (hd : data.length = size) :
    ∃ r, adagradRun numWorkers size sqrt updaterType data cs = .ok (.adagrad (zeroHistories numWorkers size), r) ∧
      r.length = size := by
  induction cs using List.reverseRecOn with
  | nil => exact ⟨data, rfl, hd⟩
  | append_singleton cs c ih =>
    obtain ⟨x, hx, hxl⟩ := ih fun c hc => hp c (List.mem_append_left _ hc)
    have hc := hp c (by simp)
    obtain ⟨hroom, hdelta⟩ := hc.fits
    obtain ⟨roots, hroots, hrl, -⟩ := adagradRoots_zero hc
    obtain ⟨d, hde, hdl, -⟩ := fetch_at c.delta (show 0 + c.numElement ≤ c.delta.length by omega)
    obtain ⟨r, hr, hlen, -⟩ := eachWith_at (fun x q => x - q) x
      (List.zipWith (fun r d => c.option.rho / sqrt r * d / c.option.learningRate) roots d)
      (show c.offset + c.numElement ≤ x.length by omega) (by simp [hrl, hdl])
    refine ⟨r, ?_, hlen.trans hxl⟩
    unfold adagradRun at hx ⊢
    rw [run_concat, hx, ok_bind, apply, update, adagradUpdate_roots, hroots, ok_bind, hde, ok_bind, hr]
    rfl

omit [LinearOrder T] [IsStrictOrderedRing T] in
/-- Whatever came before, the square root is taken of `e` less the squared gradient of this call. -/
theorem rootAt_eq (hp : ∀ c ∈ cs, Proper numWorkers size c) (hd : data.length = size) (hc : Proper numWorkers size c)
    (hi : c.covers i = true) : rootAt numWorkers size sqrt updaterType data cs c i =
      some (adagradE - (c.deltaAt i / c.option.learningRate) ^ 2) := by
  obtain ⟨r, hr, -⟩ := run_adagrad sqrt updaterType hp hd
  obtain ⟨roots, hroots, -, hat⟩ := adagradRoots_zero hc
  rw [rootAt, hr]
  dsimp only
  rw [hroots]
  exact hat i hi

omit [LinearOrder T] [IsStrictOrderedRing T] in
theorem historyOf_eq (hp : ∀ c ∈ cs, Proper numWorkers size c) (hd : data.length = size) (w : ℕ) :
    historyOf numWorkers size sqrt updaterType data cs w = (zeroHistories numWorkers size)[w]? := by
  obtain ⟨r, hr, -⟩ := run_adagrad sqrt updaterType hp hd
  rw [historyOf, hr]

theorem sumSquares_nonneg {workerId : ℤ} : 0 ≤ sumSquares workerId i cs := by
  refine List.sum_nonneg fun x hx => ?_
  obtain ⟨c, -, rfl⟩ := List.mem_map.mp hx
  split
  · exact sq_nonneg _
  · exact le_rfl

omit [LinearOrder T] [IsStrictOrderedRing T] in
theorem sumSquares_concat (hi : c.covers i = true) : sumSquares c.option.workerId i (cs ++ [c]) =
    sumSquares c.option.workerId i cs + (c.deltaAt i / c.option.learningRate) ^ 2 := by
  rw [sumSquares, List.map_append, List.sum_append, List.map_singleton, List.sum_singleton, if_pos ⟨rfl, hi⟩]
  rfl

/-- The squared gradients are accumulated exactly when there are none. -/
theorem accumulates_iff (hp : ∀ c ∈ cs, Proper numWorkers size c) (hd : data.length = size) :
    Accumulates numWorkers size sqrt updaterType data cs ↔ ∀ c ∈ cs, ∀ i, c.covers i = true → c.deltaAt i = 0 := by
  have hparts : ∀ pre c post, cs = pre ++ c :: post →
      (∀ c ∈ pre, Proper numWorkers size c) ∧ Proper numWorkers size c := by
    rintro pre c post rfl
    exact ⟨fun c hc => hp c (by simp [hc]), hp c (by simp)⟩
  constructor
  · intro h c hc i hi
    obtain ⟨pre, post, rfl⟩ := List.append_of_mem hc
    obtain ⟨hpre, hcp⟩ := hparts pre c post rfl
    have hroot := h.root pre c post rfl i hi
    rw [rootAt_eq hpre hd hcp hi, Option.some_inj, sumSquares_concat hi] at hroot
    have hnonneg : 0 ≤ sumSquares c.option.workerId i pre := sumSquares_nonneg
    have hsq := sq_nonneg (c.deltaAt i / c.option.learningRate)
    have hzero : (c.deltaAt i / c.option.learningRate) ^ 2 = 0 := by linarith
    exact (div_eq_zero_iff.mp (pow_eq_zero_iff two_ne_zero |>.mp hzero)).resolve_right hcp.rate
  · intro hzero
    have hroot : ∀ pre c post, cs = pre ++ c :: post → ∀ i, c.covers i = true →
        rootAt numWorkers size sqrt updaterType data pre c i = some adagradE := by
      intro pre c post hcs i hi
      obtain ⟨hpre, hcp⟩ := hparts pre c post hcs
      rw [rootAt_eq hpre hd hcp hi, hzero c (by simp [hcs]) i hi, zero_div]
      simp
    have hnone : ∀ l, (∀ c ∈ l, c ∈ cs) → ∀ w i, sumSquares w i l = 0 := by
      intro l hl w i
      refine List.sum_eq_zero fun x hx => ?_
      obtain ⟨c, hc, rfl⟩ := List.mem_map.mp hx
      split
      · rename_i hci
        rw [hzero c (hl c hc) i hci.2, zero_div]
        simp
      · rfl
    refine ⟨fun pre c post hcs i hi => ?_, fun pre c post hcs i hi => ?_, fun pre c mid c' post hcs _ i hi hi' => ?_,
      fun pre c post hcs w _ => ?_⟩
    · rw [hroot pre c post hcs i hi, hnone _ (fun x hx => ?_), add_zero]
      rw [hcs]
      rcases List.mem_append.mp hx with hx | hx
      · exact List.mem_append_left _ hx
      · rw [List.mem_singleton.mp hx]
        simp
    · exact ⟨_, hroot pre c post hcs i hi, by rw [adagradE]; positivity⟩
    · have hcs' : cs = pre ++ c :: (mid ++ c' :: post) := by simpa using hcs
      exact ⟨_, _, hroot pre c _ hcs' i hi, hroot (pre ++ c :: mid) c' post hcs i hi', le_rfl⟩
    · obtain ⟨hpre, hcp⟩ := hparts pre c post hcs
      rw [historyOf_eq hpre hd, historyOf_eq (fun x hx => ?_) hd]
      rcases List.mem_append.mp hx with hx | hx
      · exact hpre x hx
      · rwa [List.mem_singleton.mp hx]

/-- A call of worker 1 on one element with learning rate 1, for small tests. -/
def gradient (delta : ℚ) : UpdateCall ℚ := ⟨⟨1, 1, 0, 1 / 10, 0⟩, 1, [delta], 0⟩

theorem proper_gradient (delta : ℚ) : Proper 2 1 (gradient delta) :=
  ⟨by simp [gradient], by simp [gradient, UpdateCall.Fits], by simp [gradient]⟩

theorem accumulates_zeros : Accumulates 2 1 (fun x => x) "" [5] [gradient 0, gradient 0] := by
  have hproper : ∀ c ∈ [gradient 0, gradient 0], Proper 2 1 c := by
    intro c hc
    obtain rfl : c = gradient 0 := by simpa using hc
    exact proper_gradient 0
  refine (accumulates_iff hproper rfl).mpr ?_
  intro c hc i _
  obtain rfl : c = gradient 0 := by simpa using hc
  unfold UpdateCall.deltaAt gradient
  cases i <;> rfl

/-- The first gradient of worker 1 is subtracted where it should be added. -/
theorem adagrad_forgets : Proper 2 1 (gradient 1) ∧ ¬ Accumulates 2 1 (fun x => x) "" [5] [gradient 1] := by
  refine ⟨proper_gradient 1, fun h => ?_⟩
  have hcovers : (gradient 1).covers 0 = true := by decide
  have hroot := h.root [] (gradient 1) [] rfl 0 hcovers
  rw [rootAt_eq (by simp) (show [(5 : ℚ)].length = 1 from rfl) (proper_gradient 1) hcovers, sumSquares_concat hcovers] at hroot
  norm_num [sumSquares, gradient, UpdateCall.deltaAt, adagradE] at hroot

end Hpps.Updater

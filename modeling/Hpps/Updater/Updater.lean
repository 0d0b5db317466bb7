import Hpps.Common.Stop

/-! The updaters of the server tables. Arithmetic is exact. -/
namespace Hpps

open Rows

/-- The slots of `data_`. Adam reads the last three as `beta1`, `beta2` and `eps`. -/
structure AddOption (T : Type) where
  workerId : ℤ
  learningRate : T
  momentum : T
  rho : T
  lambda : T
  deriving DecidableEq

namespace AddOption

variable {T : Type}

def beta1 (option : AddOption T) : T := option.momentum

def beta2 (option : AddOption T) : T := option.rho

def eps (option : AddOption T) : T := option.lambda

/-- The constructor sets the last three slots twice, at the end for Adam. -/
def new [Field T] (workerRank : ℤ) : AddOption T :=
  ⟨workerRank, 1 / 1000, 9 / 10, 999 / 1000, 1 / 100000000⟩

end AddOption

/-- The loop that combines `xs[offset + i]` with `ds[i]` for each `i` below `n`. -/
def eachWith {T : Type} (f : T → T → T) (n offset : ℕ) (xs ds : List T) : Except Stop (List T) := do
  let x ← fetch xs offset n
  let d ← fetch ds 0 n
  memcpy xs offset (List.zipWith f x d)

theorem eachWith_ok {T : Type} {f : T → T → T} {n : ℕ} {xs ds : List T} (hx : xs.length = n)
    (hd : ds.length = n) : eachWith f n 0 xs ds = .ok (List.zipWith f xs ds) := by
  subst hx
  have hfetch : ∀ l : List T, l.length = xs.length → fetch l 0 xs.length = .ok l := by
    intro l hl
    simp [fetch, ← hl]
  have hz : (List.zipWith f xs ds).length = xs.length := by simp [hd]
  simp only [eachWith, hfetch xs rfl, hfetch ds hd, ok_bind]
  rw [memcpy_eq_ok_iff, hz, overwrite, hz]
  simp

theorem length_eachWith {T : Type} {f : T → T → T} {n offset : ℕ} {xs ds r : List T}
    (h : eachWith f n offset xs ds = .ok r) : r.length = xs.length := by
  obtain ⟨x, -, h⟩ := bind_eq_ok.mp h
  obtain ⟨d, -, h⟩ := bind_eq_ok.mp h
  exact length_memcpy h

theorem survives_eachWith {T : Type} {f : T → T → T} {n offset : ℕ} {xs ds : List T} :
    Survives (eachWith f n offset xs ds) fun _ => True :=
  survives_fetch.bind fun _ _ => survives_fetch.bind fun _ _ => survives_memcpy

/-- The same loop with an index of type `int`. -/
def eachInt {T : Type} (f : T → T → T) (n offset : ℕ) (xs ds : List T) : Except Stop (List T) :=
  if n < 2 ^ 31 then eachWith f n offset xs ds else .error .memory

theorem eachInt_eq_ok_iff {T : Type} {f : T → T → T} {n offset : ℕ} {xs ds r : List T} :
    eachInt f n offset xs ds = .ok r ↔ n < 2 ^ 31 ∧ eachWith f n offset xs ds = .ok r := by
  unfold eachInt
  split
  · rename_i h
    exact (and_iff_right h).symm
  · rename_i h
    exact ⟨by simp, fun hr => absurd hr.1 h⟩

theorem eachInt_ok {T : Type} {f : T → T → T} {n : ℕ} {xs ds : List T} (hn : n < 2 ^ 31) (hx : xs.length = n)
    (hd : ds.length = n) : eachInt f n 0 xs ds = .ok (List.zipWith f xs ds) :=
  eachInt_eq_ok_iff.mpr ⟨hn, eachWith_ok hx hd⟩

theorem survives_eachInt {T : Type} {f : T → T → T} {n offset : ℕ} {xs ds : List T} :
    Survives (eachInt f n offset xs ds) fun _ => True := by
  unfold eachInt
  split
  · exact survives_eachWith
  · exact .stop (by simp)

/-- A solver with its state. -/
inductive Updater (T : Type)
  | default
  | sgd
  | adam (mom1 mom2 : List T)
  | avg (accuNum : ℕ) (sum : List T)
  | adagrad (historicGSqr : List (List T))
  | momentum (smoothGradient : List T)
  | dcasgd (shadowCopies : List (List T))
  | dcasgda (shadowCopies meanSquare : List (List T))
  deriving DecidableEq

namespace Updater

variable {T : Type}

/-- `states[worker_id]`. -/
def ofWorker (states : List (List T)) (workerId : ℤ) : Except Stop (List T) :=
  match if 0 ≤ workerId then states[workerId.toNat]? else none with
  | some state => .ok state
  | none => .error .memory

/-- The sums are indexed without the offset, and the whole of them is cleared. -/
def avgUpdate [Zero T] [HAdd T T T] [Div T] [NatCast T] (numWorkers accuNum : ℕ) (sum : List T) (n : ℕ)
    (data delta : List T) (offset : ℕ) : Except Stop (ℕ × List T × List T) := do
  let sum ← eachInt (fun s d => s + d) n 0 sum delta
  let accuNum := accuNum + 1
  if accuNum = numWorkers then
    let data ← eachInt (fun _ s => s / (accuNum : T)) n offset data sum
    return (0, List.replicate sum.length 0, data)
  else return (accuNum, sum, data)

variable [Field T]

/-- `updaterType` is the flag of the process, used when the table names no solver. The build has the last two
solvers unless `ENABLE_DCASGD` is turned off. -/
def getUpdater (numWorkers : ℕ) (updaterType : String) (size : ℕ) (solver : String) : Updater T :=
  let type := if solver.isEmpty then updaterType else solver
  let zeros := List.replicate size 0
  if type = "adam" then .adam zeros zeros
  else if type = "avg" then .avg 0 zeros
  else if type = "sgd" then .sgd
  else if type = "adagrad" then .adagrad (List.replicate numWorkers zeros)
  else if type = "momentum_sgd" then .momentum zeros
  else if type = "dcasgd" then .dcasgd (List.replicate numWorkers zeros)
  else if type = "dcasgda" then .dcasgda (List.replicate numWorkers zeros) (List.replicate numWorkers zeros)
  else .default

def sgdUpdate (n : ℕ) (data delta : List T) (option : AddOption T) (offset : ℕ) :
    Except Stop (List T) :=
  eachWith (fun x d => x - d * option.learningRate) n offset data delta

def adamUpdate (sqrt : T → T) (mom1 mom2 : List T) (n : ℕ) (data delta : List T) (option : AddOption T)
    (offset : ℕ) : Except Stop (List T × List T × List T) := do
  let mom1 ← eachWith (fun m d => option.beta1 * m + (1 - option.beta1) * d) n offset mom1 delta
  let mom2 ← eachWith (fun m d => option.beta2 * m + (1 - option.beta2) * d * d) n offset mom2 delta
  let var1 ← fetch mom1 offset n
  let var2 ← fetch mom2 offset n
  let data ← eachWith (fun x q => x - q) n offset data
    (List.zipWith (fun m v => option.learningRate * m / (sqrt v + option.eps)) var1 var2)
  let data ← eachWith (fun x d => x - d * option.learningRate) n offset data delta
  return (mom1, mom2, data)

/-- The `e` of the constructor. -/
def adagradE : T := 1 / 1000000

/-- `at` throws for a worker without a history. The history is copied by value and not written back. -/
def adagradUpdate (sqrt : T → T) (historicGSqr : List (List T)) (n : ℕ) (data delta : List T)
    (option : AddOption T) (offset : ℕ) : Except Stop (List T) :=
  let lr := option.learningRate
  match if 0 ≤ option.workerId then historicGSqr[option.workerId.toNat]? else none with
  | none => .error .memory
  | some gSqrData => do
    let gSqrData ← eachWith (fun g d => g - d * d / lr / lr) n offset gSqrData delta
    let g ← fetch gSqrData offset n
    let d ← fetch delta 0 n
    eachWith (fun x q => x - q) n offset data
      (List.zipWith (fun g d => option.rho / sqrt (g + 1 / 1000000) * d / lr) g d)

def momentumUpdate (smoothGradient : List T) (n : ℕ) (data delta : List T) (option : AddOption T)
    (offset : ℕ) : Except Stop (List T × List T) := do
  let smoothGradient ←
    eachWith (fun g d => option.momentum * g + (1 - option.momentum) * d) n offset smoothGradient delta
  let g ← fetch smoothGradient offset n
  let data ← eachWith (fun x g => x - g * option.learningRate) n offset data g
  return (smoothGradient, data)

/-- The loop over the elements, which reads no state if there are none. -/
def dcasgdUpdate (shadowCopies : List (List T)) (n : ℕ) (data delta : List T) (option : AddOption T) (offset : ℕ) :
    Except Stop (List (List T) × List T) :=
  if n = 0 then .ok (shadowCopies, data)
  else do
    let lr := option.learningRate
    let shadow ← ofWorker shadowCopies option.workerId
    let x ← fetch data offset n
    let s ← fetch shadow offset n
    let d ← fetch delta 0 n
    let x := List.zipWith (fun x (p : T × T) =>
      let g := p.2 / lr
      x - lr * (g + option.lambda * g * g * (x - p.1))) x (s.zip d)
    let data ← memcpy data offset x
    let shadow ← memcpy shadow offset x
    return (shadowCopies.set option.workerId.toNat shadow, data)

def dcasgdaUpdate (sqrt : T → T) (shadowCopies meanSquare : List (List T)) (n : ℕ) (data delta : List T)
    (option : AddOption T) (offset : ℕ) : Except Stop (List (List T) × List (List T) × List T) :=
  if n = 0 then .ok (shadowCopies, meanSquare, data)
  else do
    let lr := option.learningRate
    let square ← ofWorker meanSquare option.workerId
    let square ← eachWith (fun m d =>
      let g := d / lr
      m * option.momentum + (1 - option.momentum) * g * g) n offset square delta
    let shadow ← ofWorker shadowCopies option.workerId
    let x ← fetch data offset n
    let s ← fetch shadow offset n
    let m ← fetch square offset n
    let d ← fetch delta 0 n
    let x := List.zipWith (fun x (p : T × T × T) =>
      let g := p.2.2 / lr
      x - lr * (g + option.lambda / sqrt (p.2.1 + 1 / 10000000) * g * g * (x - p.1))) x (s.zip (m.zip d))
    let data ← memcpy data offset x
    let shadow ← memcpy shadow offset x
    return (shadowCopies.set option.workerId.toNat shadow, meanSquare.set option.workerId.toNat square, data)

/-- `Update(num_element, data, delta, option, offset)`. -/
def update (numWorkers : ℕ) (sqrt : T → T) (u : Updater T) (numElement : ℕ) (data delta : List T)
    (option : AddOption T) (offset : ℕ) : Except Stop (Updater T × List T) :=
  match u with
  | .default => do
    let data ← eachInt (fun x d => x + d) numElement offset data delta
    return (.default, data)
  | .sgd => do
    let data ← sgdUpdate numElement data delta option offset
    return (.sgd, data)
  | .adam mom1 mom2 => do
    let (mom1, mom2, data) ← adamUpdate sqrt mom1 mom2 numElement data delta option offset
    return (.adam mom1 mom2, data)
  | .avg accuNum sum => do
    let (accuNum, sum, data) ← avgUpdate numWorkers accuNum sum numElement data delta offset
    return (.avg accuNum sum, data)
  | .adagrad historicGSqr => do
    let data ← adagradUpdate sqrt historicGSqr numElement data delta option offset
    return (.adagrad historicGSqr, data)
  | .momentum smoothGradient => do
    let (smoothGradient, data) ← momentumUpdate smoothGradient numElement data delta option offset
    return (.momentum smoothGradient, data)
  | .dcasgd shadowCopies => do
    let (shadowCopies, data) ← dcasgdUpdate shadowCopies numElement data delta option offset
    return (.dcasgd shadowCopies, data)
  | .dcasgda shadowCopies meanSquare => do
    let (shadowCopies, meanSquare, data) ←
      dcasgdaUpdate sqrt shadowCopies meanSquare numElement data delta option offset
    return (.dcasgda shadowCopies meanSquare, data)

variable {numWorkers n offset : ℕ} {sqrt : T → T} {u u' : Updater T} {data delta data' : List T}
  {option : AddOption T}

/-- No solver changes the length of what it updates. -/
theorem length_update (h : u.update numWorkers sqrt n data delta option offset = .ok (u', data')) :
    data'.length = data.length := by
  cases u with
  | default =>
    obtain ⟨x, hx, h⟩ := bind_eq_ok.mp h
    cases h
    exact length_eachWith (eachInt_eq_ok_iff.mp hx).2
  | sgd =>
    obtain ⟨x, hx, h⟩ := bind_eq_ok.mp h
    cases h
    exact length_eachWith hx
  | adam mom1 mom2 =>
    obtain ⟨⟨a, b, x⟩, hx, h⟩ := bind_eq_ok.mp h
    cases h
    obtain ⟨m1, -, hx⟩ := bind_eq_ok.mp hx
    obtain ⟨m2, -, hx⟩ := bind_eq_ok.mp hx
    obtain ⟨v1, -, hx⟩ := bind_eq_ok.mp hx
    obtain ⟨v2, -, hx⟩ := bind_eq_ok.mp hx
    obtain ⟨y, hy, hx⟩ := bind_eq_ok.mp hx
    obtain ⟨z, hz, hx⟩ := bind_eq_ok.mp hx
    cases hx
    exact (length_eachWith hz).trans (length_eachWith hy)
  | avg accuNum sum =>
    obtain ⟨⟨a, b, x⟩, hx, h⟩ := bind_eq_ok.mp h
    cases h
    obtain ⟨s, -, hx⟩ := bind_eq_ok.mp hx
    dsimp only at hx
    split at hx
    · obtain ⟨y, hy, hx⟩ := bind_eq_ok.mp hx
      cases hx
      exact length_eachWith (eachInt_eq_ok_iff.mp hy).2
    · cases hx
      rfl
  | adagrad historicGSqr =>
    obtain ⟨x, hx, h⟩ := bind_eq_ok.mp h
    cases h
    unfold adagradUpdate at hx
    dsimp only at hx
    split at hx
    · cases hx
    · obtain ⟨a, -, hx⟩ := bind_eq_ok.mp hx
      obtain ⟨g, -, hx⟩ := bind_eq_ok.mp hx
      obtain ⟨d, -, hx⟩ := bind_eq_ok.mp hx
      exact length_eachWith hx
  | momentum smoothGradient =>
    obtain ⟨⟨a, x⟩, hx, h⟩ := bind_eq_ok.mp h
    cases h
    obtain ⟨g, -, hx⟩ := bind_eq_ok.mp hx
    obtain ⟨v, -, hx⟩ := bind_eq_ok.mp hx
    obtain ⟨y, hy, hx⟩ := bind_eq_ok.mp hx
    cases hx
    exact length_eachWith hy
  | dcasgd shadowCopies =>
    obtain ⟨⟨a, x⟩, hx, h⟩ := bind_eq_ok.mp h
    cases h
    unfold dcasgdUpdate at hx
    split at hx
    · cases hx
      rfl
    · obtain ⟨shadow, -, hx⟩ := bind_eq_ok.mp hx
      obtain ⟨v, -, hx⟩ := bind_eq_ok.mp hx
      obtain ⟨s, -, hx⟩ := bind_eq_ok.mp hx
      obtain ⟨d, -, hx⟩ := bind_eq_ok.mp hx
      obtain ⟨y, hy, hx⟩ := bind_eq_ok.mp hx
      obtain ⟨shadow', -, hx⟩ := bind_eq_ok.mp hx
      cases hx
      exact length_memcpy hy
  | dcasgda shadowCopies meanSquare =>
    obtain ⟨⟨a, b, x⟩, hx, h⟩ := bind_eq_ok.mp h
    cases h
    unfold dcasgdaUpdate at hx
    split at hx
    · cases hx
      rfl
    · obtain ⟨square, -, hx⟩ := bind_eq_ok.mp hx
      obtain ⟨square', -, hx⟩ := bind_eq_ok.mp hx
      obtain ⟨shadow, -, hx⟩ := bind_eq_ok.mp hx
      obtain ⟨v, -, hx⟩ := bind_eq_ok.mp hx
      obtain ⟨s, -, hx⟩ := bind_eq_ok.mp hx
      obtain ⟨m, -, hx⟩ := bind_eq_ok.mp hx
      obtain ⟨d, -, hx⟩ := bind_eq_ok.mp hx
      obtain ⟨y, hy, hx⟩ := bind_eq_ok.mp hx
      obtain ⟨shadow', -, hx⟩ := bind_eq_ok.mp hx
      cases hx
      exact length_memcpy hy

omit [Field T] in
theorem survives_ofWorker {vectors : List (List T)} {workerId : ℤ} :
    Survives (ofWorker vectors workerId) fun _ => True := by
  unfold ofWorker
  split
  · exact .ok trivial
  · exact .stop (by simp)

/-- No solver hits LOG_FATAL. -/
theorem survives_update : Survives (u.update numWorkers sqrt n data delta option offset) fun _ => True := by
  cases u with
  | default => exact survives_eachInt.bind fun _ _ => .ok trivial
  | sgd => exact survives_eachWith.bind fun _ _ => .ok trivial
  | adam mom1 mom2 =>
    have hadam : Survives (adamUpdate sqrt mom1 mom2 n data delta option offset) fun _ => True :=
      survives_eachWith.bind fun _ _ => survives_eachWith.bind fun _ _ => survives_fetch.bind fun _ _ =>
        survives_fetch.bind fun _ _ => survives_eachWith.bind fun _ _ => survives_eachWith.bind fun _ _ =>
          .ok trivial
    exact hadam.bind fun _ _ => .ok trivial
  | avg accuNum sum =>
    have havg : Survives (avgUpdate numWorkers accuNum sum n data delta offset) fun _ => True := by
      refine survives_eachInt.bind fun sum' _ => ?_
      dsimp only
      split
      · exact survives_eachInt.bind fun _ _ => .ok trivial
      · exact .ok trivial
    exact havg.bind fun _ _ => .ok trivial
  | adagrad historicGSqr =>
    have hadagrad : Survives (adagradUpdate sqrt historicGSqr n data delta option offset) fun _ => True := by
      unfold adagradUpdate
      dsimp only
      split
      · exact .stop (by simp)
      · exact survives_eachWith.bind fun _ _ => survives_fetch.bind fun _ _ => survives_fetch.bind fun _ _ =>
          survives_eachWith
    exact hadagrad.bind fun _ _ => .ok trivial
  | momentum smoothGradient =>
    have hmomentum : Survives (momentumUpdate smoothGradient n data delta option offset) fun _ => True :=
      survives_eachWith.bind fun _ _ => survives_fetch.bind fun _ _ => survives_eachWith.bind fun _ _ => .ok trivial
    exact hmomentum.bind fun _ _ => .ok trivial
  | dcasgd shadowCopies =>
    have hdcasgd : Survives (dcasgdUpdate shadowCopies n data delta option offset) fun _ => True := by
      unfold dcasgdUpdate
      split
      · exact .ok trivial
      · exact survives_ofWorker.bind fun _ _ => survives_fetch.bind fun _ _ => survives_fetch.bind fun _ _ =>
          survives_fetch.bind fun _ _ => survives_memcpy.bind fun _ _ => survives_memcpy.bind fun _ _ => .ok trivial
    exact hdcasgd.bind fun _ _ => .ok trivial
  | dcasgda shadowCopies meanSquare =>
    have hdcasgda : Survives (dcasgdaUpdate sqrt shadowCopies meanSquare n data delta option offset)
        fun _ => True := by
      unfold dcasgdaUpdate
      split
      · exact .ok trivial
      · exact survives_ofWorker.bind fun _ _ => survives_eachWith.bind fun _ _ => survives_ofWorker.bind fun _ _ =>
          survives_fetch.bind fun _ _ => survives_fetch.bind fun _ _ => survives_fetch.bind fun _ _ =>
            survives_fetch.bind fun _ _ => survives_memcpy.bind fun _ _ => survives_memcpy.bind fun _ _ => .ok trivial
    exact hdcasgda.bind fun _ _ => .ok trivial

/-- The solvers that are in the same state after every update: they have none, they never write it, or
every update completes a round of the average. -/
def Stateless (numWorkers : ℕ) : Updater T → Prop
  | .default | .sgd | .adagrad _ => True
  | .avg accuNum sum => numWorkers = 1 ∧ accuNum = 0 ∧ sum = List.replicate sum.length 0
  | .adam _ _ | .momentum _ | .dcasgd _ | .dcasgda _ _ => False

theorem Stateless.update (hu : u.Stateless numWorkers)
    (h : u.update numWorkers sqrt n data delta option offset = .ok (u', data')) : u' = u := by
  cases u with
  | default | sgd | adagrad =>
    obtain ⟨x, -, h⟩ := bind_eq_ok.mp h
    cases h
    rfl
  | avg accuNum sum =>
    obtain ⟨rfl, rfl, hzero⟩ := hu
    obtain ⟨⟨a, b, x⟩, hx, h⟩ := bind_eq_ok.mp h
    cases h
    obtain ⟨s, hs, hx⟩ := bind_eq_ok.mp hx
    dsimp only at hx
    rw [if_pos (Nat.zero_add 1)] at hx
    obtain ⟨y, -, hx⟩ := bind_eq_ok.mp hx
    cases hx
    rw [length_eachWith (eachInt_eq_ok_iff.mp hs).2, ← hzero]
  | adam | momentum | dcasgd | dcasgda => exact hu.elim

end Updater
end Hpps

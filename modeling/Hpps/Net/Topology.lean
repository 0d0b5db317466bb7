import Mathlib

/-! Who talks to whom: the maps of the Bruck and the recursive halving algorithm. -/
namespace Hpps.Net

/-- The loops that accumulate the lengths of `count` blocks from `first` on. -/
def sumFrom (len : ℕ → ℕ) (first count : ℕ) : ℕ :=
  (List.range count).foldl (fun sum j => sum + len (first + j)) 0

/-- The network structure for all gather. -/
structure BruckMap where
  /-- The communication times for one all gather operation. -/
  k : ℕ
  /-- `inRanks i` means the incoming rank on `i`-th communication. -/
  inRanks : ℕ → ℕ
  /-- `outRanks i` means the out rank on `i`-th communication. -/
  outRanks : ℕ → ℕ

namespace BruckMap

/-- The loop that counts the rounds; `n` more rounds are enough to pass `n` machines. -/
def count (numMachines : ℕ) : ℕ → ℕ → ℕ
  | 0, k => k
  | n + 1, k => if 2 ^ k < numMachines then count numMachines n (k + 1) else k

/-- The distance at `j`-th communication is `2 ^ j`. -/
def construct (rank numMachines : ℕ) : BruckMap where
  k := count numMachines numMachines 0
  inRanks j := (rank + 2 ^ j) % numMachines
  outRanks j := (rank + numMachines - 2 ^ j) % numMachines

end BruckMap

/-- `Normal` machines are alone in their group. Of two in one group the leader represents the
group and communicates with others. -/
inductive NodeType
  | normal
  | groupLeader
  | other
  deriving DecidableEq, Repr

/-- Network structure for recursive halving algorithm. -/
structure RecursiveHalvingMap where
  k : ℕ
  type : NodeType
  neighbor : ℕ
  ranks : ℕ → ℕ
  sendBlockStart : ℕ → ℕ
  sendBlockLen : ℕ → ℕ
  recvBlockStart : ℕ → ℕ
  recvBlockLen : ℕ → ℕ

namespace RecursiveHalvingMap

/-- The loop that counts `k` up while `1 << k <= num_machines`. -/
def count (numMachines : ℕ) : ℕ → ℕ → ℕ
  | 0, k => k
  | n + 1, k => if 2 ^ k ≤ numMachines then count numMachines n (k + 1) else k

/-- The partner at distance `d`; `dir` is positive where the quotient is even. -/
def partner (idx d : ℕ) : ℕ := if idx / d % 2 = 0 then idx + d else idx - d

/-- `rest` pairs from the right end, the left machine of each as group leader. -/
def nodeType (numMachines rest : ℕ) : ℕ → NodeType :=
  (List.range rest).foldl (fun t i =>
    Function.update (Function.update t (numMachines - i * 2 - 2) .groupLeader)
      (numMachines - i * 2 - 1) .other) fun _ => .normal

/-- What the loop over the machines computes. -/
structure Groups where
  groupCnt : ℕ
  groupToNode : ℕ → ℕ
  nodeToGroup : ℕ → ℕ
  groupBlockLen : ℕ → ℕ

def Groups.add (type : ℕ → NodeType) (g : Groups) (i : ℕ) : Groups :=
  -- meet new group
  let g := if type i = .normal ∨ type i = .groupLeader then
      { g with groupToNode := Function.update g.groupToNode g.groupCnt i, groupCnt := g.groupCnt + 1 }
    else g
  { g with
    nodeToGroup := Function.update g.nodeToGroup i (g.groupCnt - 1)
    -- add block len for this group
    groupBlockLen :=
      Function.update g.groupBlockLen (g.groupCnt - 1) (g.groupBlockLen (g.groupCnt - 1) + 1) }

def groups (numMachines : ℕ) (type : ℕ → NodeType) : Groups :=
  (List.range numMachines).foldl (Groups.add type) ⟨0, fun _ => 0, fun _ => 0, fun _ => 0⟩

/-- The group block start, for the groups from 1 on computed from their predecessor. -/
def groupBlockStart (len : ℕ → ℕ) : ℕ → ℕ
  | 0 => 0
  | i + 1 => groupBlockStart len i + len i


/-- The greatest `k` with `1 << k <= num_machines`. -/
def levels (numMachines : ℕ) : ℕ := count numMachines (numMachines + 1) 0 - 1

def construct (rank numMachines : ℕ) : RecursiveHalvingMap :=
  let k := levels numMachines
  let distance := fun i => 2 ^ (k - 1 - i)
  if 2 ^ k = numMachines then
    { k
      type := .normal
      neighbor := 0
      ranks := fun i => partner rank (distance i)
      recvBlockStart := fun i => rank / distance i * distance i
      recvBlockLen := distance
      sendBlockStart := fun i => partner rank (distance i) / distance i * distance i
      sendBlockLen := distance }
  else
    let rest := numMachines - 2 ^ k
    let type := nodeType numMachines rest
    let g := groups numMachines type
    let start := groupBlockStart g.groupBlockLen
    let cur := g.nodeToGroup rank
    { k
      type := type rank
      neighbor := match type rank with
        | .other => rank - 1
        | .groupLeader => rank + 1
        | .normal => 0
      ranks := fun i => g.groupToNode (partner cur (distance i))
      recvBlockStart := fun i => start (cur / distance i * distance i)
      recvBlockLen := fun i => sumFrom g.groupBlockLen (cur / distance i * distance i) (distance i)
      sendBlockStart := fun i => start (partner cur (distance i) / distance i * distance i)
      sendBlockLen := fun i =>
        sumFrom g.groupBlockLen (partner cur (distance i) / distance i * distance i) (distance i) }

end RecursiveHalvingMap
end Hpps.Net

import Hpps.Frame.Registration
import Hpps.Lib.TransitionSystem

/-! The nodes create their tables, each at its own pace, and send requests to the servers. -/
namespace Hpps.Frame

open TransitionSystem

/-- How far a node is in `CreateTable`: outside; while `RegisterTable` pushes to `store_`; between the two
vectors; while it pushes to `scheduler_`; and when the server's part is done. -/
inductive Stage
  | outside
  | storing
  | stored
  | scheduling
  | served
  deriving DecidableEq, Repr

namespace Stage

/-- The tables that are in `store_` before they are created. -/
def inStore : Stage → ℕ
  | .outside | .storing => 0
  | .stored | .scheduling | .served => 1

def inScheduler : Stage → ℕ
  | .served => 1
  | _ => 0

end Stage

/-- The nodes by rank: how many tables each has created, where it is in `CreateTable`, `store_` and
`scheduler_` of its server actor and `cache_` of its worker actor. The log `handled` is not read. -/
structure TableState (τ : Type) where
  created : ℕ → ℕ
  stage : ℕ → Stage
  store : ℕ → List τ
  scheduler : ℕ → List τ
  cache : ℕ → List τ
  inFlight : List (Message Unit)
  handled : List (Message Unit)
  stop : Option Stop

/-- A node goes on with `CreateTable`, a worker sends a request for a table to some servers, or a server
handles the `k`-th request on its way. -/
inductive TableMove
  | create (r : ℕ)
  | request (r t : ℕ) (type : MsgType) (dsts : List ℕ)
  | handle (k : ℕ)

namespace TableState

variable {τ : Type} (roles : List Role) (options : List τ) (s : TableState τ)

/-- All nodes have started. -/
def init : TableState τ :=
  ⟨fun _ => 0, fun _ => .outside, fun _ => [], fun _ => [], fun _ => [], [], [], none⟩

/-- Whether the node runs a server actor, or a worker actor. -/
def isServer (r : ℕ) : Bool := Node.isServer (roles.getD r .NONE).toInt

def isWorker (r : ℕ) : Bool := Node.isWorker (roles.getD r .NONE).toInt

def requestMsg (r t : ℕ) (type : MsgType) (dst : ℕ) : Message Unit where
  src := r
  dst := dst
  type := type
  tableId := t

/-- What node `r` does next in `CreateTable`. The server's two vectors are pushed to one after the other,
and a push is not atomic. -/
def create (r : ℕ) (option : τ) : TableState τ :=
  match s.stage r with
  | .outside => { s with stage := Function.update s.stage r (if isServer roles r then .storing else .served) }
  | .storing => { s with
      stage := Function.update s.stage r .stored
      store := Function.update s.store r (s.store r ++ [option]) }
  | .stored => { s with stage := Function.update s.stage r .scheduling }
  | .scheduling => { s with
      stage := Function.update s.stage r .served
      scheduler := Function.update s.scheduler r (s.scheduler r ++ [option]) }
  | .served => { s with
      stage := Function.update s.stage r .outside
      created := Function.update s.created r (s.created r + 1)
      cache := if isWorker roles r then Function.update s.cache r (s.cache r ++ [option]) else s.cache }

/-- `Server::ProcessGet` and `ProcessAdd` up to the scheduler's call. The server's thread has no lock
against the thread that creates the tables: it must not read a vector that is being pushed to. -/
def lookup (msg : Message Unit) : Except Stop Unit :=
  let r := msg.dst.toNat
  if s.stage r = .storing then .error .memory
  else if msg.tableId < (s.store r).length then
    if s.stage r = .scheduling then .error .memory
    else if msg.tableId < (s.scheduler r).length then .ok ()
    else .error .memory
  else .error .check

/-- Every node creates a table for each of the `options`, in this order, and then sends requests. -/
def step (a : TableMove) : Option (TableState τ) :=
  if s.stop.isSome then none
  else
    match a with
    | .create r =>
      match options[s.created r]? with
      | some option => if r < roles.length then some (create roles s r option) else none
      | none => none
    | .request r t type dsts =>
      if s.created r = options.length ∧ t < (s.cache r).length ∧ (type = .Request_Get ∨ type = .Request_Add) ∧
          ∀ dst ∈ dsts, dst < roles.length ∧ isServer roles dst then
        some { s with inFlight := s.inFlight ++ dsts.map (requestMsg r t type) }
      else none
    | .handle k =>
      match s.inFlight[k]? with
      | some msg =>
        match lookup s msg with
        | .ok () => some { s with inFlight := s.inFlight.eraseIdx k, handled := s.handled ++ [msg] }
        | .error e => some { s with stop := some e }
      | none => none

/-- The servers that a request goes to have created all their tables. -/
def Created (options : List τ) (s : TableState τ) : TableMove → Prop
  | .request _ _ _ dsts => ∀ dst ∈ dsts, (s.scheduler dst).length = options.length
  | _ => True

/-- Every node is through with its tables when a request is sent. -/
def AllCreated (roles : List Role) (options : List τ) (s : TableState τ) : TableMove → Prop
  | .request .. => ∀ r < roles.length, s.created r = options.length
  | _ => True

instance : ∀ a, Decidable (Created options s a)
  | .request _ _ _ dsts => inferInstanceAs (Decidable (∀ dst ∈ dsts, (s.scheduler dst).length = options.length))
  | .create _ | .handle _ => inferInstanceAs (Decidable True)

instance : ∀ a, Decidable (AllCreated roles options s a)
  | .request .. => inferInstanceAs (Decidable (∀ r < roles.length, s.created r = options.length))
  | .create _ | .handle _ => inferInstanceAs (Decidable True)

variable {roles options s} {t : TableState τ} {a : TableMove} {r : ℕ}

/-- What each move can do. -/
inductive Outcome (roles : List Role) (options : List τ) (s : TableState τ) : TableMove → TableState τ → Prop
  | create {r : ℕ} {option : τ} (ho : options[s.created r]? = some option) :
      Outcome roles options s (.create r) (TableState.create roles s r option)
  | request {r t : ℕ} {type : MsgType} {dsts : List ℕ} (ht : t < (s.cache r).length)
      (hserver : ∀ dst ∈ dsts, dst < roles.length ∧ isServer roles dst) :
      Outcome roles options s (.request r t type dsts)
        { s with inFlight := s.inFlight ++ dsts.map (requestMsg r t type) }
  | handle {k : ℕ} {msg : Message Unit} (hk : s.inFlight[k]? = some msg) (ht : lookup s msg = .ok ()) :
      Outcome roles options s (.handle k)
        { s with inFlight := s.inFlight.eraseIdx k, handled := s.handled ++ [msg] }
  | handleStop {k : ℕ} {msg : Message Unit} {e : Stop} (hk : s.inFlight[k]? = some msg)
      (ht : lookup s msg = .error e) : Outcome roles options s (.handle k) { s with stop := some e }

theorem step_outcome (hs : step roles options s a = some t) : s.stop = none ∧ Outcome roles options s a t := by
  unfold step at hs
  split at hs
  · cases hs
  · rename_i hstop
    refine ⟨by simpa using hstop, ?_⟩
    cases a with
    | create r =>
      dsimp only at hs
      split at hs
      · rename_i option ho
        split at hs
        · cases hs
          exact .create ho
        · cases hs
      · cases hs
    | request r t type dsts =>
      dsimp only at hs
      split at hs
      · rename_i h
        cases hs
        exact .request h.2.1 h.2.2.2
      · cases hs
    | handle k =>
      dsimp only at hs
      split at hs
      · rename_i msg hk
        split at hs
        · rename_i ht
          cases hs
          exact .handle hk ht
        · rename_i e ht
          cases hs
          exact .handleStop hk ht
      · cases hs

/-- The vectors of node `r` hold its tables in the order of the options, as far as it has got. -/
structure NumberedAt (roles : List Role) (options : List τ) (r created : ℕ) (stage : Stage)
    (store scheduler cache : List τ) : Prop where
  store : store = if isServer roles r then options.take (created + stage.inStore) else []
  scheduler : scheduler = if isServer roles r then options.take (created + stage.inScheduler) else []
  cache : cache = if isWorker roles r then options.take created else []
  lt : stage ≠ .outside → created < options.length
  server : stage ≠ .outside → stage ≠ .served → isServer roles r

def Numbered (roles : List Role) (options : List τ) (s : TableState τ) : Prop :=
  ∀ r, NumberedAt roles options r (s.created r) (s.stage r) (s.store r) (s.scheduler r) (s.cache r)

theorem numbered_init : Numbered roles options (init : TableState τ) := by
  intro r
  exact ⟨by simp [init, Stage.inStore], by simp [init, Stage.inScheduler], by simp [init], fun h => absurd rfl h,
    fun h => absurd rfl h⟩

theorem take_succ_of_getElem? {n : ℕ} {option : τ} (h : options[n]? = some option) :
    options.take (n + 1) = options.take n ++ [option] := by
  rw [List.take_add_one, h]
  rfl

variable (roles s) in
/-- The other nodes stay as they are. -/
theorem create_frame (option : τ) {r' : ℕ} (h : r' ≠ r) :
    (create roles s r option).created r' = s.created r' ∧ (create roles s r option).stage r' = s.stage r' ∧
      (create roles s r option).store r' = s.store r' ∧ (create roles s r option).scheduler r' = s.scheduler r' ∧
      (create roles s r option).cache r' = s.cache r' := by
  unfold create
  cases s.stage r with
  | outside | storing | stored | scheduling => simp [h]
  | served => by_cases hworker : isWorker roles r <;> simp [h, hworker]

variable (roles s r) in
theorem create_requests (option : τ) : (create roles s r option).inFlight = s.inFlight ∧
    (create roles s r option).handled = s.handled ∧ (create roles s r option).stop = s.stop := by
  unfold create
  cases s.stage r with
  | outside | storing | stored | scheduling | served => exact ⟨rfl, rfl, rfl⟩

theorem Numbered.create (h : Numbered roles options s) {option : τ} (ho : options[s.created r]? = some option) :
    Numbered roles options (create roles s r option) := by
  intro r'
  by_cases hr' : r' = r
  · subst hr'
    have hlt := (List.getElem?_eq_some_iff.mp ho).1
    have htake := take_succ_of_getElem? ho
    obtain ⟨hstore, hscheduler, hcache, -, hserver⟩ := h r'
    unfold TableState.create
    cases hstage : s.stage r' with
    | outside =>
      rw [hstage] at hstore hscheduler
      dsimp only
      rw [Function.update_self]
      by_cases hrole : isServer roles r'
      · rw [if_pos hrole]
        exact ⟨hstore, hscheduler, hcache, fun _ => hlt, fun _ _ => hrole⟩
      · rw [if_neg hrole] at hstore hscheduler ⊢
        exact ⟨by rw [hstore, if_neg hrole], by rw [hscheduler, if_neg hrole], hcache, fun _ => hlt,
          fun _ hne => absurd rfl hne⟩
    | storing =>
      have hrole := hserver (by simp [hstage]) (by simp [hstage])
      rw [hstage, if_pos hrole] at hstore hscheduler
      dsimp only
      rw [Function.update_self, Function.update_self, hstore]
      refine ⟨?_, by rw [if_pos hrole]; exact hscheduler, hcache, fun _ => hlt, fun _ _ => hrole⟩
      rw [if_pos hrole]
      exact htake.symm
    | stored =>
      have hrole := hserver (by simp [hstage]) (by simp [hstage])
      rw [hstage] at hstore hscheduler
      dsimp only
      rw [Function.update_self]
      exact ⟨hstore, hscheduler, hcache, fun _ => hlt, fun _ _ => hrole⟩
    | scheduling =>
      have hrole := hserver (by simp [hstage]) (by simp [hstage])
      rw [hstage, if_pos hrole] at hstore hscheduler
      dsimp only
      rw [Function.update_self, Function.update_self, hscheduler]
      refine ⟨by rw [if_pos hrole]; exact hstore, ?_, hcache, fun _ => hlt, fun _ hne => absurd rfl hne⟩
      rw [if_pos hrole]
      exact htake.symm
    | served =>
      rw [hstage] at hstore hscheduler
      dsimp only
      rw [Function.update_self, Function.update_self]
      refine ⟨hstore, hscheduler, ?_, fun hne => absurd rfl hne, fun hne => absurd rfl hne⟩
      by_cases hworker : isWorker roles r'
      · rw [if_pos hworker] at hcache ⊢
        rw [Function.update_self, if_pos hworker, hcache]
        exact htake.symm
      · rw [if_neg hworker] at hcache ⊢
        rw [if_neg hworker, hcache]
  · obtain ⟨hcreated, hstage, hstore, hscheduler, hcache⟩ := create_frame roles s option hr'
    rw [hcreated, hstage, hstore, hscheduler, hcache]
    exact h r'

theorem Numbered.step (h : Numbered roles options s) (hs : step roles options s a = some t) :
    Numbered roles options t := by
  cases (step_outcome hs).2 with
  | request | handle | handleStop => exact h
  | create ho => exact h.create ho

theorem length_create {option : τ} (r' : ℕ) :
    (s.scheduler r').length ≤ ((create roles s r option).scheduler r').length ∧
    (s.cache r').length ≤ ((create roles s r option).cache r').length := by
  by_cases hr' : r' = r
  · subst hr'
    unfold create
    cases s.stage r' with
    | outside | storing | stored => exact ⟨le_rfl, le_rfl⟩
    | scheduling => simp
    | served => by_cases hworker : isWorker roles r' <;> simp [hworker]
  · obtain ⟨-, -, -, hscheduler, hcache⟩ := create_frame roles s option hr'
    exact ⟨(congrArg List.length hscheduler).ge, (congrArg List.length hcache).ge⟩

/-- The request names a table of its worker, and its server has created all tables. -/
def Known (options : List τ) (s : TableState τ) (msg : Message Unit) : Prop :=
  msg.tableId < (s.cache msg.src.toNat).length ∧ options.length ≤ (s.scheduler msg.dst.toNat).length

/-- No check has failed, and none will for the requests on their way. -/
structure Safe (options : List τ) (s : TableState τ) : Prop where
  stop : s.stop = none
  known : ∀ msg ∈ s.inFlight ++ s.handled, Known options s msg

/-- A server that has created all its tables is not pushing to a vector. -/
theorem Numbered.lookup (h : Numbered roles options s) {msg : Message Unit} (hk : Known options s msg) :
    lookup s msg = .ok () ∧ msg.tableId < (s.store msg.dst.toNat).length ∧
      (s.store msg.dst.toNat)[msg.tableId]? = options[msg.tableId]? ∧
      (s.scheduler msg.dst.toNat)[msg.tableId]? = options[msg.tableId]? ∧
      (s.cache msg.src.toNat)[msg.tableId]? = options[msg.tableId]? := by
  obtain ⟨hid, hall⟩ := hk
  obtain ⟨-, -, hcache, -, -⟩ := h msg.src.toNat
  have hworker : isWorker roles msg.src.toNat := by
    by_contra hworker
    rw [hcache, if_neg hworker] at hid
    exact absurd hid (Nat.not_lt_zero _)
  rw [if_pos hworker] at hcache
  rw [hcache, List.length_take] at hid
  obtain ⟨hstore, hscheduler, -, hlt, -⟩ := h msg.dst.toNat
  have hrole : isServer roles msg.dst.toNat := by
    by_contra hrole
    rw [hscheduler, if_neg hrole, List.length_nil] at hall
    omega
  rw [if_pos hrole] at hstore hscheduler
  rw [hscheduler, List.length_take] at hall
  have hstage : s.stage msg.dst.toNat = .outside ∨ s.stage msg.dst.toNat = .served := by
    cases hstage : s.stage msg.dst.toNat with
    | outside => exact .inl rfl
    | served => exact .inr rfl
    | storing | stored | scheduling =>
      have hlt := hlt (by simp [hstage])
      simp only [hstage, Stage.inScheduler] at hall
      omega
  have hsame : s.store msg.dst.toNat = options ∧ s.scheduler msg.dst.toNat = options := by
    rw [hstore, hscheduler]
    rcases hstage with hstage | hstage <;> rw [hstage] at hall ⊢ <;>
      simp only [Stage.inStore, Stage.inScheduler] at hall ⊢ <;> simp <;> omega
  have hlt : msg.tableId < options.length := by omega
  have hquiet : s.stage msg.dst.toNat ≠ .storing ∧ s.stage msg.dst.toNat ≠ .scheduling := by
    rcases hstage with hstage | hstage <;> simp [hstage]
  rw [hsame.1, hsame.2, hcache, List.getElem?_take_of_lt (by omega)]
  refine ⟨?_, hlt, rfl, rfl, rfl⟩
  unfold TableState.lookup
  dsimp only
  rw [if_neg hquiet.1, hsame.1, if_pos hlt, if_neg hquiet.2, hsame.2, if_pos hlt]

theorem Safe.step (h : Safe options s) (hnum : Numbered roles options s) (hc : Created options s a)
    (hs : step roles options s a = some t) : Safe options t := by
  cases (step_outcome hs).2 with
  | @create r option ho =>
    obtain ⟨hflight, hhandled, hstop⟩ := create_requests roles s r option
    refine ⟨hstop.trans h.stop, fun msg hmsg => ?_⟩
    rw [hflight, hhandled] at hmsg
    obtain ⟨hid, hall⟩ := h.known msg hmsg
    exact ⟨hid.trans_le (length_create _).2, hall.trans (length_create _).1⟩
  | @request r i type dsts hi hserver =>
    refine ⟨h.stop, fun msg hmsg => ?_⟩
    rcases List.mem_append.mp hmsg with hmsg | hmsg
    · rcases List.mem_append.mp hmsg with hmsg | hmsg
      · exact h.known msg (List.mem_append_left _ hmsg)
      · obtain ⟨dst, hdst, rfl⟩ := List.mem_map.mp hmsg
        exact ⟨hi, (hc dst hdst).ge⟩
    · exact h.known msg (List.mem_append_right _ hmsg)
  | @handle k msg hk hok =>
    have hmem := List.mem_of_getElem? hk
    refine ⟨h.stop, fun q hq => h.known q ?_⟩
    rcases List.mem_append.mp hq with hq | hq
    · exact List.mem_append_left _ (List.mem_of_mem_eraseIdx hq)
    · rcases List.mem_append.mp hq with hq | hq
      · exact List.mem_append_right _ hq
      · rw [List.mem_singleton] at hq
        exact List.mem_append_left _ (hq ▸ hmem)
  | handleStop hk herr =>
    have hok := (hnum.lookup (h.known _ (List.mem_append_left _ (List.mem_of_getElem? hk)))).1
    rw [herr] at hok
    cases hok

/-- Two nodes with both roles; the request is sent after both servers have their table. -/
def waitsForTables : List TableMove :=
  List.replicate 5 (.create 0) ++ List.replicate 4 (.create 1) ++
    [.request 0 0 .Request_Get [1, 0], .handle 0, .create 1]

/-- A server that has the table asked for and is creating the next one reads a vector that is pushed to. -/
example : (exec (TableState.step [.ALL, .ALL] [(), ()]) init
    (List.replicate 10 (.create 0) ++ List.replicate 6 (.create 1) ++
      [.request 0 0 .Request_Get [1], .handle 0])).map TableState.stop = some (some .memory) := by decide

theorem created_of_allCreated (h : Numbered roles options s) (hall : AllCreated roles options s a)
    (hs : step roles options s a = some t) : Created options s a := by
  cases (step_outcome hs).2 with
  | create | handle | handleStop => trivial
  | @request r i type dsts hi hserver =>
    intro dst hdst
    obtain ⟨hlt, hrole⟩ := hserver dst hdst
    rw [(h dst).scheduler, if_pos hrole, List.length_take, hall dst hlt]
    omega

/-- A barrier between the tables and the requests is enough. -/
theorem reachable_created_of_barrier
    (h : Reachable (restrict (AllCreated roles options) (TableState.step roles options)) (init : TableState τ) s) :
    Reachable (restrict (Created options) (TableState.step roles options)) (init : TableState τ) s := by
  have hinv : Numbered roles options s ∧
      Reachable (restrict (Created options) (TableState.step roles options)) (init : TableState τ) s := by
    apply h.invariant ⟨numbered_init, Reachable.refl⟩
    rintro x a y ⟨hnum, hreach⟩ hstep
    obtain ⟨hall, hs⟩ := restrict_eq_some.mp hstep
    exact ⟨hnum.step hs, hreach.tail (restrict_eq_some.mpr ⟨created_of_allCreated hnum hall hs, hs⟩)⟩
  exact hinv.2

end TableState
end Hpps.Frame

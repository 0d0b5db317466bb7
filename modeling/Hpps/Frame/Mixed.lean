import Hpps.Frame.Waiting

/-! Gets among Stores and Loads: the waiter of a Get counts its replies, whatever the others do to theirs. -/
namespace Hpps.Frame

open TransitionSystem

variable {β D : Type}

/-- The types of checkpoint messages. -/
def MsgType.isModel (type : MsgType) : Bool :=
  type = .Load_Model ∨ type = .Store_Model ∨ type = .Reply_Load_Model ∨ type = .Reply_Store_Model

/-- A checkpoint message as a message of an Add with blobs that no other Add has. -/
def Message.asAdd (msg : Message β) : Message (Option β) :=
  if MsgType.isModel msg.type then
    { msg with type := if 0 < msg.type then .Request_Add else .Reply_Add, data := [none, none] }
  else { msg with data := msg.data.map some }

def Act.asAdd : Act β → Act (Option β)
  | .reset id num => .reset id num
  | .push msg => .push msg.asAdd
  | .store msg => .store msg.asAdd
  | .notify msg => .notify msg.asAdd

def Call.asAdd : Call β → Call (Option β)
  | .getAsync keys option => .getAsync (some keys) (option.map some)
  | .addAsync keys values option => .addAsync (some keys) (some values) (option.map some)
  | .store _ => .addAsync none none none
  | .load _ => .addAsync none none none

/-- The blobs without their `some`, if none is `none`. -/
def unwrap (kv : List (Option β)) : Option (List β) := kv.mapM id

@[simp] theorem unwrap_map_some (kv : List β) : unwrap (kv.map some) = some kv := by
  induction kv with
  | nil => rfl
  | cons b kv ih =>
    rw [unwrap] at ih
    simp [unwrap, ih]

/-- The table, with such an Add for every server. -/
def WorkerTable.asAdd (table : WorkerTable β D) (n : ℕ) : WorkerTable (Option β) D where
  Partition kv type :=
    match unwrap kv with
    | some kv => do
      let (num, out) ← table.Partition kv type
      return (num, out.map fun it => (it.1, it.2.map some))
    | none => .ok (n, (List.range n).map fun i => (i, [none, none]))
  ProcessReplyGet d kv :=
    match unwrap kv with
    | some kv => table.ProcessReplyGet d kv
    | none => .error .check
  num_eq h := by
    split at h
    · obtain ⟨⟨num, out⟩, hp, h⟩ := bind_eq_ok.mp h
      cases h
      rw [List.length_map]
      exact table.num_eq hp
    · cases h
      simp
  nodup h := by
    split at h
    · obtain ⟨⟨num, out⟩, hp, h⟩ := bind_eq_ok.mp h
      cases h
      simpa [Function.comp_def] using table.nodup hp
    · cases h
      simpa [Function.comp_def] using List.nodup_range

def WorkerNode.asAdd (node : WorkerNode β D) : WorkerNode (Option β) D where
  rank := node.rank
  numServers := node.numServers
  serverIdToRank := node.serverIdToRank
  injective := node.injective
  table := node.table.asAdd node.numServers
  modelFile file _ := file

namespace Worker

variable {node : WorkerNode β D} {types : List MsgType} {s t : WorkerState β D}
  {z z' : WorkerState (Option β) D} {a : WorkerMove β} {msg : Message β} {acts : List (Act β)} {id : ℕ} {d : D}

theorem asAdd_of_not_model (h : msg.type.isModel = false) : msg.asAdd = { msg with data := msg.data.map some } := by
  rw [Message.asAdd, if_neg (by simp [h])]

theorem asAdd_of_model (h : msg.type.isModel = true) : msg.asAdd =
    { msg with type := if 0 < msg.type then .Request_Add else .Reply_Add, data := [none, none] } := by
  rw [Message.asAdd, if_pos h]

@[simp] theorem msgId_asAdd : msg.asAdd.msgId = msg.msgId := by
  unfold Message.asAdd
  split <;> rfl

@[simp] theorem src_asAdd : msg.asAdd.src = msg.src := by
  unfold Message.asAdd
  split <;> rfl

@[simp] theorem dst_asAdd : msg.asAdd.dst = msg.dst := by
  unfold Message.asAdd
  split <;> rfl

theorem message_asAdd (c : Call β) (rank : ℤ) (id : ℕ) : c.asAdd.message rank id = (c.message rank id).asAdd := by
  cases c with
  | getAsync keys option => cases option <;> rfl
  | addAsync keys values option => cases option <;> rfl
  | store | load => rfl

theorem type_asAdd (c : Call β) : c.asAdd.type ∈ [MsgType.Request_Get, .Request_Add] := by
  cases c <;> simp [Call.asAdd, Call.type]

theorem add_data_ne_nil (ha : handle node msg = .ok acts) (htype : msg.type = .Request_Add) : msg.data ≠ [] := by
  intro hnil
  simp [handle, htype, processAdd, hnil, MsgType.Request_Add, MsgType.Request_Get] at ha

theorem handle_notify (htype : msg.type = .Reply_Add ∨ msg.type = .Reply_Load_Model ∨ msg.type = .Reply_Store_Model) :
    handle node msg = .ok [.notify msg] := by
  rcases htype with h | h | h <;> rw [handle, h] <;> rfl

theorem reply_type (ha : handle node msg = .ok acts) (hneg : msg.type < 0) (hne : msg.type ≠ .Reply_Get) :
    msg.type = .Reply_Add ∨ msg.type = .Reply_Load_Model ∨ msg.type = .Reply_Store_Model := by
  unfold handle at ha
  split_ifs at ha with h1 h2 h4 h5 h6 h7 h8
  · exact absurd (h1 ▸ hneg) (by decide)
  · exact absurd (h2 ▸ hneg) (by decide)
  · exact .inl h4
  · exact absurd (h5 ▸ hneg) (by decide)
  · exact absurd (h6 ▸ hneg) (by decide)
  · exact .inr (.inl h7)
  · exact .inr (.inr h8)

/-- Only a checkpoint request is handled otherwise: as an Add it sets its waiter. -/
theorem handle_asAdd (ha : handle node msg = .ok acts) :
    handle node.asAdd msg.asAdd = .ok (if msg.type = .Load_Model ∨ msg.type = .Store_Model
      then .reset msg.msgId node.numServers :: acts.map Act.asAdd else acts.map Act.asAdd) := by
  rcases handle_cases ha with ⟨htype, num, out, hp, rfl⟩ | ⟨htype, file, data, -, rfl⟩ | ⟨hneg, hacts⟩
  · have hno : msg.type.isModel = false := by rcases htype with h | h <;> rw [h] <;> rfl
    have hne : ¬ (msg.type = .Load_Model ∨ msg.type = .Store_Model) := by
      rcases htype with h | h <;> rw [h] <;> decide
    have hp' : node.asAdd.table.Partition (msg.data.map some) msg.type =
        .ok (num, out.map fun it => (it.1, it.2.map some)) := by
      simp only [WorkerNode.asAdd, WorkerTable.asAdd, unwrap_map_some, hp]
      rfl
    have hdata : msg.type = .Request_Add → msg.data.map some ≠ [] := by
      intro hadd hnil
      exact add_data_ne_nil ha hadd (List.map_eq_nil_iff.mp hnil)
    have hhandle : handle node.asAdd { msg with data := msg.data.map some } = _ := handle_request htype hdata hp'
    rw [if_neg hne, asAdd_of_not_model hno, hhandle]
    simp only [List.map_cons, List.map_map]
    congr 2
    refine List.map_congr_left fun it _ => ?_
    have hitem : (newMsg node msg.type msg it.1 it.2).type.isModel = false := hno
    exact (congrArg Act.push (asAdd_of_not_model hitem)).symm
  · have hmodel : msg.type.isModel = true := by rcases htype with h | h <;> rw [h] <;> rfl
    have hpos : 0 < msg.type := by rcases htype with h | h <;> rw [h] <;> decide
    have hpart : ∀ i, (newMsg node msg.type msg i [node.modelFile file i]).asAdd =
        newMsg node.asAdd .Request_Add msg.asAdd i [none, none] := by
      intro i
      have htype : (newMsg node msg.type msg i [node.modelFile file i]).type = msg.type := rfl
      rw [asAdd_of_model ((congrArg MsgType.isModel htype).trans hmodel), asAdd_of_model hmodel]
      rw [htype, if_pos hpos]
      rfl
    have hadd : msg.asAdd.type = .Request_Add := by rw [asAdd_of_model hmodel]; exact if_pos hpos
    have hdata : msg.asAdd.data = [none, none] := by rw [asAdd_of_model hmodel]
    have hp' : node.asAdd.table.Partition msg.asAdd.data msg.asAdd.type =
        .ok (node.numServers, (List.range node.numServers).map fun i => (i, [none, none])) := by
      rw [hdata]
      rfl
    rw [if_pos htype, handle_request (.inr hadd) (by simp [hdata]) hp', hadd]
    simp only [msgId_asAdd, List.map_map]
    congr 2
    refine List.map_congr_left fun i _ => ?_
    exact (congrArg Act.push (hpart i)).symm
  · have hne : ¬ (msg.type = .Load_Model ∨ msg.type = .Store_Model) := by
      rintro (h | h) <;> exact absurd (h ▸ hneg) (by decide)
    rw [if_neg hne]
    rcases hacts with ⟨hget, rfl⟩ | ⟨hget, rfl⟩
    · have hno : msg.type.isModel = false := by rw [hget]; rfl
      have hget' : msg.asAdd.type = .Reply_Get := by rw [asAdd_of_not_model hno, hget]
      rw [handle, hget']
      rfl
    · refine handle_notify (.inl ?_)
      rcases reply_type ha hneg hget with h | h | h
      · rw [asAdd_of_not_model (by rw [h]; rfl), h]
      all_goals
        rw [asAdd_of_model (by rw [h]; rfl)]
        exact if_neg hneg.not_gt

/-- The call is a Store or a Load. -/
def Models (s : WorkerState β D) (id : ℕ) : Prop := ∃ msg, s.calls[id]? = some msg ∧ msg.type.isModel = true

/-- `z` is `s` with Adds in the place of Stores and Loads, whose waiters and clients need not agree. -/
structure Covers (z : WorkerState (Option β) D) (s : WorkerState β D) : Prop where
  calls : z.calls = s.calls.map Message.asAdd
  mailbox : z.mailbox = s.mailbox.map Message.asAdd
  threads : ∀ i, z.threads i = (s.threads i).map Act.asAdd
  inFlight : z.inFlight = s.inFlight.map Message.asAdd
  replied : z.replied = s.replied.map (Prod.map Message.asAdd Message.asAdd)
  replies : z.replies = s.replies.map Message.asAdd
  stored : z.stored = s.stored.map Message.asAdd
  data : z.data = s.data
  length : z.waitings.length = s.waitings.length
  agree : ∀ id, ¬ Models s id → z.waitings[id]? = s.waitings[id]? ∧ z.phases id = s.phases id
  gets : ∀ i msg, .store msg ∈ s.threads i → msg.type.isModel = false
  crash : z.crash = none

theorem covers_init : Covers (init d) (init d : WorkerState β D) where
  calls := rfl
  mailbox := rfl
  threads _ := rfl
  inFlight := rfl
  replied := rfl
  replies := rfl
  stored := rfl
  data := rfl
  length := rfl
  agree _ _ := ⟨rfl, rfl⟩
  gets _ _ h := nomatch h
  crash := rfl

/-- The moves of a node on which all calls are Gets and Adds. -/
abbrev requestStep (node : WorkerNode β D) := step node [MsgType.Request_Get, .Request_Add]

section Cover

variable {popped : List (Message (Option β))} {i : Fin kWorkerThreadNum} {x : Act β}

variable (node) in
theorem Covers.issue {c : Call β} (h : Covers z s) : requestStep node.asAdd z (.issue c.asAdd) = some { z with
      calls := z.calls ++ [c.asAdd.message node.asAdd.rank z.waitings.length]
      waitings := z.waitings ++ [some 1]
      mailbox := z.mailbox ++ [c.asAdd.message node.asAdd.rank z.waitings.length] } ∧
    Covers { z with
      calls := z.calls ++ [c.asAdd.message node.asAdd.rank z.waitings.length]
      waitings := z.waitings ++ [some 1]
      mailbox := z.mailbox ++ [c.asAdd.message node.asAdd.rank z.waitings.length] } { s with
      calls := s.calls ++ [c.message node.rank s.waitings.length]
      waitings := s.waitings ++ [some 1]
      mailbox := s.mailbox ++ [c.message node.rank s.waitings.length] } := by
  have hmsg : c.asAdd.message node.asAdd.rank z.waitings.length =
      (c.message node.rank s.waitings.length).asAdd := by
    rw [h.length]
    exact message_asAdd c node.rank _
  refine ⟨by simp [step, h.crash, type_asAdd c], { h with
    calls := by simp [h.calls, hmsg]
    mailbox := by simp [h.mailbox, hmsg]
    length := by simp [h.length]
    agree := fun id hno => ?_ }⟩
  have hold : ¬ Models s id := by
    rintro ⟨msg, hget, hmodel⟩
    have hlt := (List.getElem?_eq_some_iff.mp hget).1
    exact hno ⟨msg, (List.getElem?_append_left hlt).trans hget, hmodel⟩
  refine ⟨?_, (h.agree id hold).2⟩
  simp only [List.getElem?_append, h.length, (h.agree id hold).1]

/-- A client of a Get or an Add waits in both. -/
theorem Covers.phase (h : Covers z s) (id : ℕ) (phase : Phase) {waitings : List (Option ℤ)}
    (hw : ∀ id', id' ≠ id → waitings[id']? = s.waitings[id']?) (hlen : waitings.length = s.waitings.length) :
    (Models s id → Covers z { s with waitings := waitings, phases := Function.update s.phases id phase }) ∧
    (¬ Models s id → ∀ zw : List (Option ℤ), zw.length = z.waitings.length →
      (∀ id', id' ≠ id → zw[id']? = z.waitings[id']?) → zw[id]? = waitings[id]? →
      Covers { z with waitings := zw, phases := Function.update z.phases id phase }
        { s with waitings := waitings, phases := Function.update s.phases id phase }) := by
  constructor
  · intro hmodels
    refine { h with length := h.length.trans hlen.symm, agree := fun id' hno => ?_ }
    have hne : id' ≠ id := by
      rintro rfl
      exact hno hmodels
    obtain ⟨h1, h2⟩ := h.agree id' hno
    exact ⟨h1.trans (hw id' hne).symm, h2.trans (Function.update_of_ne hne _ _).symm⟩
  · intro hmodels zw hzlen hzw hself
    refine { h with length := hzlen.trans (h.length.trans hlen.symm), agree := fun id' hno => ?_ }
    obtain ⟨h1, h2⟩ := h.agree id' hno
    by_cases hne : id' = id
    · subst hne
      exact ⟨hself, by simp⟩
    · refine ⟨((hzw id' hne).trans h1).trans (hw id' hne).symm, ?_⟩
      simp only [Function.update_of_ne hne, h2]

theorem Covers.threads_update (h : Covers z s) (j : Fin kWorkerThreadNum) :
    Function.update z.threads i (acts.map Act.asAdd) j = (Function.update s.threads i acts j).map Act.asAdd := by
  by_cases hj : j = i
  · subst hj
    simp only [Function.update_self]
  · simp only [Function.update_of_ne hj, h.threads]

theorem Covers.gets_update (h : Covers z s) (hacts : ∀ msg, .store msg ∈ acts → msg.type.isModel = false)
    (j : Fin kWorkerThreadNum) (msg : Message β) (hmsg : .store msg ∈ Function.update s.threads i acts j) :
    msg.type.isModel = false := by
  by_cases hj : j = i
  · subst hj
    rw [Function.update_self] at hmsg
    exact hacts msg hmsg
  · rw [Function.update_of_ne hj] at hmsg
    exact h.gets j msg hmsg

theorem isModel_eq_of_asAdd {m : Message β} (h : m.asAdd = msg.asAdd) : m.type.isModel = msg.type.isModel := by
  have hdata := congrArg Message.data h
  cases hm : m.type.isModel with
  | true =>
    cases hmsg : msg.type.isModel with
    | true => rfl
    | false =>
      rw [asAdd_of_model hm, asAdd_of_not_model hmsg] at hdata
      cases hd : msg.data <;> simp [hd] at hdata
  | false =>
    cases hmsg : msg.type.isModel with
    | true =>
      rw [asAdd_of_not_model hm, asAdd_of_model hmsg] at hdata
      cases hd : m.data <;> simp [hd] at hdata
    | false => rfl

/-- The id of a checkpoint request in the mailbox is that of a Store or a Load. -/
theorem Covers.models_of_mailbox (h : Covers z s) (hinv : Inv node.asAdd types z popped) (hmsg : msg ∈ s.mailbox)
    (hpos : 0 < msg.asAdd.type) (hmodel : msg.type.isModel = true) : Models s msg.msgId := by
  have hcall : msg.asAdd ∈ z.calls := by
    rw [hinv.calls, h.mailbox]
    exact List.mem_append_right _ (List.mem_filter.mpr ⟨List.mem_map_of_mem hmsg, by simpa using hpos⟩)
  obtain ⟨k, hk⟩ := List.mem_iff_getElem?.mp hcall
  have hid := hinv.msgId k _ hk
  rw [msgId_asAdd] at hid
  rw [h.calls, List.getElem?_map, Option.map_eq_some_iff] at hk
  obtain ⟨m, hm, heq⟩ := hk
  exact ⟨m, hid ▸ hm, (isModel_eq_of_asAdd heq).trans hmodel⟩

theorem not_model_of_store (ha : handle node msg = .ok acts) {m : Message β} (hm : .store m ∈ acts) :
    m.type.isModel = false := by
  rcases handle_cases ha with ⟨-, num, out, -, rfl⟩ | ⟨-, file, data, -, rfl⟩ | ⟨-, ⟨hget, rfl⟩ | ⟨-, rfl⟩⟩
  · simp at hm
  · simp at hm
  · simp only [List.mem_cons, Act.store.injEq, reduceCtorEq, List.not_mem_nil, or_false] at hm
    rw [hm, hget]
    rfl
  · simp at hm

/-- The waiter that a thread sets or counts down is not null. -/
theorem waiter_of_act {x : Act (Option β)} {rest : List (Act (Option β))} (hinv : Inv node.asAdd types z popped)
    (hi : z.threads i = x :: rest) (hx : (∃ num, x = .reset id num) ∨ ∃ msg, x = .notify msg ∧ msg.msgId = id) :
    ∃ v, z.waitings[id]? = some (some v) := by
  have hne := perform_ne_waiter hinv hi
  rcases hx with ⟨num, rfl⟩ | ⟨msg, rfl, rfl⟩
  all_goals
    rw [perform] at hne
    split at hne
    · rename_i v hv
      exact ⟨v, hv⟩
    · exact absurd rfl hne

/-- A checkpoint request is popped as an Add, and its waiter is set at once. -/
theorem Covers.pop {mailbox : List (Message β)} (h : Covers z s)
    (hinv : Inv node.asAdd [MsgType.Request_Get, .Request_Add] z popped) (hi : s.threads i = [])
    (hm : s.mailbox = msg :: mailbox) (ha : handle node msg = .ok acts) :
    ∃ z', Reachable (requestStep node.asAdd) z z' ∧ Covers z' (afterPop s i mailbox acts) := by
  have hi' : z.threads i = [] := by rw [h.threads, hi, List.map_nil]
  have hm' : z.mailbox = msg.asAdd :: mailbox.map Message.asAdd := by rw [h.mailbox, hm, List.map_cons]
  have hhandle := handle_asAdd ha
  have hstep : requestStep node.asAdd z (.pop i) = some (afterPop z i (mailbox.map Message.asAdd)
      (if msg.type = .Load_Model ∨ msg.type = .Store_Model
        then .reset msg.msgId node.numServers :: acts.map Act.asAdd else acts.map Act.asAdd)) := by
    simp [step, h.crash, hi', hm', hhandle, afterPop]
  by_cases htype : msg.type = .Load_Model ∨ msg.type = .Store_Model
  · have hmodel : msg.type.isModel = true := by rcases htype with h | h <;> rw [h] <;> rfl
    have hpos : 0 < msg.asAdd.type := by
      rw [asAdd_of_model hmodel]
      rcases htype with h | h <;> simp only [h] <;> decide
    have hmodels : Models s msg.msgId :=
      h.models_of_mailbox hinv (by rw [hm]; exact List.mem_cons_self) hpos hmodel
    rw [if_pos htype] at hstep
    set y := afterPop z i (mailbox.map Message.asAdd) (.reset msg.msgId node.numServers :: acts.map Act.asAdd) with hy
    obtain ⟨⟨popped', hinv'⟩, -⟩ := inv_step (by simp) hinv hstep
    have hiy : y.threads i = .reset msg.msgId node.numServers :: acts.map Act.asAdd := threads_afterPop_self
    obtain ⟨v, hv⟩ := waiter_of_act hinv' hiy (.inl ⟨_, rfl⟩)
    have hact : requestStep node.asAdd y (.act i) = some { y with
        waitings := y.waitings.set msg.msgId (some (node.numServers : ℤ))
        threads := Function.update y.threads i (acts.map Act.asAdd) } := by
      have hcrash : y.crash = none := h.crash
      simp [step, hcrash, hiy, perform, hv]
    refine ⟨_, (Reachable.refl.tail hstep).tail hact, { h with
      mailbox := rfl
      threads := fun j => ?_
      length := by simp [hy, afterPop, h.length]
      agree := fun id hno => ?_
      gets := h.gets_update fun m hm => not_model_of_store ha hm }⟩
    · simp only [hy, afterPop, Function.update_idem]
      exact h.threads_update j
    · have hne : msg.msgId ≠ id := by
        rintro rfl
        exact hno hmodels
      obtain ⟨h1, h2⟩ := h.agree id hno
      exact ⟨(List.getElem?_set_ne hne).trans h1, h2⟩
  · rw [if_neg htype] at hstep
    refine ⟨_, Reachable.refl.tail hstep, { h with mailbox := rfl, threads := h.threads_update, gets := ?_ }⟩
    exact h.gets_update fun m hm => not_model_of_store ha hm

theorem Covers.act {x : Act β} {r : WorkerState β D} (h : Covers z s)
    (hinv : Inv node.asAdd [MsgType.Request_Get, .Request_Add] z popped) (hi : s.threads i = x :: acts)
    (hr : perform node s x = .ok r) : ∃ z', requestStep node.asAdd z (.act i) = some z' ∧
      Covers z' { r with threads := Function.update r.threads i acts } := by
  have hi' : z.threads i = x.asAdd :: acts.map Act.asAdd := by rw [h.threads, hi, List.map_cons]
  have hgets : ∀ j msg, .store msg ∈ Function.update s.threads i acts j → msg.type.isModel = false :=
    h.gets_update fun m hm => h.gets i m (by rw [hi]; exact List.mem_cons_of_mem _ hm)
  cases x with
  | reset id num =>
    obtain ⟨v, hv⟩ := waiter_of_act hinv hi' (.inl ⟨_, rfl⟩)
    rw [perform] at hr
    split at hr <;> cases hr
    refine ⟨{ z with
      waitings := z.waitings.set id (some (num : ℤ))
      threads := Function.update z.threads i (acts.map Act.asAdd) }, ?_, { h with
        threads := h.threads_update
        length := by simp [h.length]
        agree := fun id' hno => ⟨?_, (h.agree id' hno).2⟩
        gets := hgets }⟩
    · simp [step, h.crash, hi', Act.asAdd, perform, hv]
    · simp only [List.getElem?_set, h.length, (h.agree id' hno).1]
  | notify msg =>
    obtain ⟨v, hv⟩ := waiter_of_act hinv hi' (.inr ⟨_, rfl, msgId_asAdd⟩)
    rw [perform] at hr
    split at hr
    · rename_i num hnum
      cases hr
      refine ⟨{ z with
        waitings := z.waitings.set msg.msgId (some (v - 1))
        threads := Function.update z.threads i (acts.map Act.asAdd) }, ?_, { h with
          threads := h.threads_update
          length := by simp [h.length]
          agree := fun id' hno => ⟨?_, (h.agree id' hno).2⟩
          gets := hgets }⟩
      · simp [step, h.crash, hi', Act.asAdd, perform, hv]
      · by_cases heq : msg.msgId = id'
        · subst heq
          have hsame := (h.agree _ hno).1
          rw [hv, hnum] at hsame
          cases hsame
          simp [List.getElem?_set, h.length]
        · simp only [List.getElem?_set_ne heq, (h.agree id' hno).1]
    · cases hr
  | push msg =>
    cases hr
    refine ⟨{ z with
      sent := z.sent ++ [msg.asAdd]
      inFlight := z.inFlight ++ [msg.asAdd]
      threads := Function.update z.threads i (acts.map Act.asAdd) }, ?_, { h with
        inFlight := by simp [h.inFlight]
        threads := h.threads_update
        gets := hgets }⟩
    simp [step, h.crash, hi', Act.asAdd, perform]
  | store msg =>
    have hno := h.gets i msg (by rw [hi]; exact List.mem_cons_self)
    rw [perform] at hr
    split at hr
    · rename_i e hd
      cases hr
      have hd' : node.asAdd.table.ProcessReplyGet z.data msg.asAdd.data = .ok e := by
        rw [asAdd_of_not_model hno, h.data]
        simpa [WorkerNode.asAdd, WorkerTable.asAdd] using hd
      refine ⟨{ z with
        data := e
        stored := z.stored ++ [msg.asAdd]
        threads := Function.update z.threads i (acts.map Act.asAdd) }, ?_, { h with
          data := rfl
          stored := by simp [h.stored]
          threads := h.threads_update
          gets := hgets }⟩
      simp [step, h.crash, hi', Act.asAdd, perform, hd']
    · cases hr

theorem isModel_neg (type : ℤ) : MsgType.isModel (-type) = MsgType.isModel type := by
  unfold MsgType.isModel
  rw [decide_eq_decide]
  change (-type = 29 ∨ -type = 30 ∨ -type = -29 ∨ -type = -30) ↔ (type = 29 ∨ type = 30 ∨ type = -29 ∨ type = -30)
  omega

theorem addType_neg {type : ℤ} (hne : type ≠ 0) : (if 0 < -type then MsgType.Request_Add else .Reply_Add) =
    -(if 0 < type then MsgType.Request_Add else .Reply_Add) := by
  rcases lt_or_gt_of_ne hne with h | h
  · rw [if_pos (neg_pos.mpr h), if_neg h.not_gt]
    rfl
  · rw [if_neg (by simpa using h.le), if_pos h]
    rfl

theorem asAdd_reply {data : List β} : ({ msg.createReplyMessage with data := data } : Message β).asAdd =
    { msg.asAdd.createReplyMessage with data := if msg.type.isModel then [none, none] else data.map some } := by
  have hneg := isModel_neg msg.type
  cases hm : msg.type.isModel with
  | true =>
    have hne : msg.type ≠ 0 := by
      intro h
      rw [h] at hm
      cases hm
    rw [asAdd_of_model (hneg.trans hm), asAdd_of_model hm]
    exact congrArg (fun type => (⟨msg.dst, msg.src, type, msg.tableId, msg.msgId, [none, none]⟩ : Message (Option β)))
      (addType_neg hne)
  | false =>
    rw [asAdd_of_not_model (hneg.trans hm), asAdd_of_not_model hm]
    rfl

theorem localForward_asAdd (h : localForward msg.type = .worker) : localForward msg.asAdd.type = .worker := by
  cases hm : msg.type.isModel with
  | true =>
    have hneg : ¬ 0 < msg.type := by
      intro hpos
      unfold localForward at h
      split_ifs at h with h1 h2
      exact h2.1.not_gt hpos
    rw [asAdd_of_model hm]
    simp only [if_neg hneg]
    rfl
  | false =>
    rw [asAdd_of_not_model hm]
    exact h

theorem Covers.serve {k : ℕ} {data : List β} (h : Covers z s) (hk : s.inFlight[k]? = some msg) :
    ∃ a z', requestStep node.asAdd z a = some z' ∧ Covers z' { s with
      inFlight := s.inFlight.eraseIdx k
      replied := s.replied ++ [(msg, { msg.createReplyMessage with data := data })]
      replies := s.replies ++ [{ msg.createReplyMessage with data := data }] } := by
  have hk' : z.inFlight[k]? = some msg.asAdd := by rw [h.inFlight, List.getElem?_map, hk, Option.map_some]
  refine ⟨.serve k (if msg.type.isModel then [none, none] else data.map some), { z with
    inFlight := z.inFlight.eraseIdx k
    replied := z.replied ++ [(msg.asAdd, ({ msg.createReplyMessage with data := data } : Message β).asAdd)]
    replies := z.replies ++ [({ msg.createReplyMessage with data := data } : Message β).asAdd] }, ?_, { h with
      inFlight := by simp [h.inFlight, List.eraseIdx_map]
      replied := by simp [h.replied]
      replies := by simp [h.replies] }⟩
  rw [asAdd_reply]
  simp [step, h.crash, hk']

theorem Covers.deliver {k : ℕ} (h : Covers z s) (hk : s.replies[k]? = some msg)
    (hlocal : localForward msg.type = .worker) : ∃ z', requestStep node.asAdd z (.deliver k) = some z' ∧
      Covers z' { s with mailbox := s.mailbox ++ [msg], replies := s.replies.eraseIdx k } := by
  have hk' : z.replies[k]? = some msg.asAdd := by rw [h.replies, List.getElem?_map, hk, Option.map_some]
  refine ⟨{ z with mailbox := z.mailbox ++ [msg.asAdd], replies := z.replies.eraseIdx k }, ?_, { h with
    mailbox := by simp [h.mailbox]
    replies := by simp [h.replies, List.eraseIdx_map] }⟩
  simp [step, h.crash, hk', localForward_asAdd hlocal]

end Cover

/-- Only replies to the worker actor are delivered. -/
theorem local_of_deliver {k : ℕ} (hs : step node types s (.deliver k) = some t) (hk : s.replies[k]? = some msg) :
    localForward msg.type = .worker := by
  unfold step at hs
  split at hs
  · cases hs
  · simp only [hk] at hs
    split at hs
    · assumption
    · cases hs

/-- What the moves of the covering node keep. -/
theorem inv_requests {popped : List (Message (Option β))}
    (hinv : Inv node.asAdd [MsgType.Request_Get, .Request_Add] z popped) (h : Reachable (requestStep node.asAdd) z z') :
    ∃ popped', Inv node.asAdd [MsgType.Request_Get, .Request_Add] z' popped' :=
  h.invariant (P := fun z => ∃ popped, Inv node.asAdd [MsgType.Request_Get, .Request_Add] z popped) ⟨popped, hinv⟩
    fun _ _ _ ⟨_, hx⟩ hs => (inv_step (by simp) hx hs).1

/-- A node with Adds in the place of Stores and Loads, and what its waiters count. -/
def Covered (node : WorkerNode β D) (s : WorkerState β D) : Prop :=
  ∃ z popped, Inv node.asAdd [MsgType.Request_Get, .Request_Add] z popped ∧ Covers z s

theorem covered_init : Covered node (init d) := ⟨init d, [], inv_init, covers_init⟩

/-- Each move is one or two of the covering node, or none. -/
theorem Covered.step (h : Covered node s) (hs : step node types s a = some t) : Covered node t := by
  obtain ⟨z, popped, hinv, h⟩ := h
  obtain ⟨-, ho⟩ := step_outcome hs
  have hnext : ∀ {z'}, Reachable (requestStep node.asAdd) z z' → Covers z' t → Covered node t := by
    intro z' hreach hz'
    obtain ⟨popped', hinv'⟩ := inv_requests hinv hreach
    exact ⟨z', popped', hinv', hz'⟩
  cases ho with
  | issue hc =>
    obtain ⟨hstep, hz'⟩ := h.issue node
    exact hnext (Reachable.refl.tail hstep) hz'
  | @wait id num hp hw =>
    obtain ⟨hyes, hno⟩ := h.phase id .blocked (fun _ _ => rfl) rfl
    by_cases hm : Models s id
    · exact hnext .refl (hyes hm)
    · obtain ⟨h1, h2⟩ := h.agree id hm
      have hstep : requestStep node.asAdd z (.wait id) =
          some { z with phases := Function.update z.phases id .blocked } := by
        simp [Worker.step, h.crash, h2, hp, h1, hw]
      exact hnext (Reachable.refl.tail hstep) (hno hm z.waitings rfl (fun _ _ => rfl) h1)
  | @wake id num hp hw hn =>
    obtain ⟨hyes, hno⟩ := h.phase id .woken (fun _ _ => rfl) rfl
    by_cases hm : Models s id
    · exact hnext .refl (hyes hm)
    · obtain ⟨h1, h2⟩ := h.agree id hm
      have hstep : requestStep node.asAdd z (.wake id) =
          some { z with phases := Function.update z.phases id .woken } := by
        simp [Worker.step, h.crash, h2, hp, h1, hw, hn]
      exact hnext (Reachable.refl.tail hstep) (hno hm z.waitings rfl (fun _ _ => rfl) h1)
  | @finish id hp =>
    obtain ⟨hyes, hno⟩ := h.phase id .returned
      (fun id' hne => List.getElem?_set_ne hne.symm) (List.length_set : (s.waitings.set id none).length = _)
    by_cases hm : Models s id
    · exact hnext .refl (hyes hm)
    · obtain ⟨h1, h2⟩ := h.agree id hm
      have hstep : requestStep node.asAdd z (.finish id) = some { z with
          waitings := z.waitings.set id none, phases := Function.update z.phases id .returned } := by
        simp [Worker.step, h.crash, h2, hp]
      exact hnext (Reachable.refl.tail hstep) (hno hm _ List.length_set (fun id' hne => List.getElem?_set_ne hne.symm)
        (by simp [List.getElem?_set, h.length]))
  | waitNull | popStop | actStop => exact hnext .refl { h with }
  | pop hi hm ha =>
    obtain ⟨z', hreach, hz'⟩ := h.pop hinv hi hm ha
    exact hnext hreach hz'
  | act hi hr =>
    obtain ⟨z', hstep, hz'⟩ := h.act hinv hi hr
    exact hnext (Reachable.refl.tail hstep) hz'
  | serve hk =>
    obtain ⟨a, z', hstep, hz'⟩ := h.serve hk
    exact hnext (Reachable.refl.tail hstep) hz'
  | deliver hk =>
    obtain ⟨z', hstep, hz'⟩ := h.deliver hk (local_of_deliver hs hk)
    exact hnext (Reachable.refl.tail hstep) hz'

theorem Covered.length_calls (h : Covered node s) : s.calls.length = s.waitings.length := by
  obtain ⟨z, popped, hinv, hcov⟩ := h
  have := hinv.length
  rwa [hcov.calls, List.length_map, hcov.length] at this

theorem Covered.with_data (h : Covered node s) (d : D) : Covered node { s with data := d } := by
  obtain ⟨z, popped, hinv, h⟩ := h
  exact ⟨{ z with data := d }, popped, hinv.with_data d, { h with data := rfl, agree := h.agree }⟩

theorem Covered.crashed (h : Covered node s) (e : Option Crash) : Covered node { s with crash := e } := by
  obtain ⟨z, popped, hinv, h⟩ := h
  exact ⟨z, popped, hinv, { h with agree := h.agree }⟩

/-- The message to a server has the type of the call. -/
theorem type_of_push {q : Message β} (ha : handle node msg = .ok acts) (hq : .push q ∈ acts) : q.type = msg.type := by
  rcases handle_cases ha with ⟨-, num, out, -, rfl⟩ | ⟨-, file, data, -, rfl⟩ | ⟨-, ⟨-, rfl⟩ | ⟨-, rfl⟩⟩
  · simp only [List.mem_cons, List.mem_map, reduceCtorEq, false_or] at hq
    obtain ⟨q', ⟨it, -, rfl⟩, hq⟩ := hq
    cases hq
    rfl
  · simp only [List.mem_map] at hq
    obtain ⟨q', ⟨i, -, rfl⟩, hq⟩ := hq
    cases hq
    rfl
  · simp at hq
  · simp at hq

theorem type_of_requests {q : Message β} (hq : q ∈ requests node msg) : q.type = msg.type := by
  obtain ⟨acts, ha, hpush⟩ := push_of_requests hq
  exact type_of_push ha hpush

/-- Whatever else the clients do, a Get that has returned has all its answers stored. -/
theorem stored_of_returned (h : Covered node s) (hret : s.phases id = .returned) (hmsg : s.calls[id]? = some msg)
    (htype : msg.type = .Request_Get) :
    ∀ q ∈ requests node msg, ∃ reply ∈ s.stored, reply.src = q.dst ∧ reply.msgId = id := by
  intro q hq
  obtain ⟨z, popped, hinv, hcov⟩ := h
  have hno : ¬ Models s id := by
    rintro ⟨m, hm, hmodel⟩
    rw [hmsg] at hm
    cases hm
    rw [htype] at hmodel
    cases hmodel
  obtain ⟨acts, ha, hpush⟩ := push_of_requests hq
  have hget := (type_of_push ha hpush).trans htype
  have hcall : z.calls[id]? = some msg.asAdd := by rw [hcov.calls, List.getElem?_map, hmsg, Option.map_some]
  obtain ⟨msg', acts', hmsg', ha', hall⟩ := answered_of_returned hinv ((hcov.agree id hno).2.trans hret)
  rw [hcall] at hmsg'
  cases hmsg'
  have hacts : handle node.asAdd msg.asAdd = .ok (acts.map Act.asAdd) := by
    rw [handle_asAdd ha, if_neg]
    rw [htype]
    decide
  rw [hacts] at ha'
  cases ha'
  obtain ⟨reply, hreplied, hstored⟩ := hall q.asAdd (List.mem_map_of_mem (f := Act.asAdd) hpush)
  have hget' : q.asAdd.type = .Request_Get := by rw [asAdd_of_not_model (by rw [hget]; rfl), hget]
  have hfrom := (hinv.settled _ hreplied).1
  rw [hcov.stored] at hstored
  obtain ⟨r, hr, rfl⟩ := List.mem_map.mp (hstored hget')
  have hsrc := congrArg Message.src hfrom
  have hid := congrArg Message.msgId hfrom
  simp only [src_asAdd, msgId_asAdd, Message.createReplyMessage, dst_asAdd] at hsrc hid
  have hcallId := hinv.msgId id _ hcall
  rw [msgId_asAdd] at hcallId
  exact ⟨r, hr, hsrc, hid.trans ((mem_requests ha hpush).1.trans hcallId)⟩

/-- What was stored so far belongs to calls that were made. -/
theorem stored_past (h : Covered node s) : ∀ reply ∈ s.stored, reply.msgId < s.calls.length := by
  intro reply hreply
  obtain ⟨z, popped, hinv, hcov⟩ := h
  have hpast := hinv.past reply.asAdd (by rw [hcov.stored]; exact List.mem_map_of_mem hreply)
  rwa [msgId_asAdd, ← hinv.length, hcov.calls, List.length_map] at hpast

/-! ### The parts of the calls -/

/-- All calls satisfy `Q`, and what is sent to the servers satisfies `P`. -/
structure Split (Q P : Message β → Prop) (s : WorkerState β D) : Prop where
  calls : ∀ msg ∈ s.calls, Q msg
  mailbox : ∀ msg ∈ s.mailbox, 0 < msg.type → Q msg
  threads : ∀ i q, .push q ∈ s.threads i → P q
  inFlight : ∀ q ∈ s.inFlight, P q

theorem split_init {Q P : Message β → Prop} : Split Q P (init d : WorkerState β D) where
  calls _ h := nomatch h
  mailbox _ h := nomatch h
  threads _ _ h := nomatch h
  inFlight _ h := nomatch h

theorem Split.step {Q P : Message β → Prop} (h : Split Q P s)
    (hparts : ∀ msg, Q msg → ∀ q ∈ requests node msg, P q) (hs : step node types s a = some t)
    (hissue : ∀ c, a = .issue c → ∀ id, Q (c.message node.rank id)) : Split Q P t := by
  obtain ⟨-, ho⟩ := step_outcome hs
  cases ho with
  | wait | waitNull | wake | finish | popStop | actStop => exact { h with }
  | issue hc =>
    have hcall := hissue _ rfl s.waitings.length
    refine { h with calls := fun msg hmsg => ?_, mailbox := fun msg hmsg hpos => ?_ }
    · rcases List.mem_append.mp hmsg with hmsg | hmsg
      · exact h.calls msg hmsg
      · rwa [List.mem_singleton.mp hmsg]
    · rcases List.mem_append.mp hmsg with hmsg | hmsg
      · exact h.mailbox msg hmsg hpos
      · rwa [List.mem_singleton.mp hmsg]
  | @pop i msg mailbox acts hi hm ha =>
    refine { h with
      mailbox := fun q hq => h.mailbox q (by rw [hm]; exact List.mem_cons_of_mem _ hq), threads := fun j q hq => ?_ }
    dsimp only at hq
    by_cases hj : j = i
    · subst hj
      rw [Function.update_self] at hq
      have hmsg := h.mailbox msg (by rw [hm]; exact List.mem_cons_self) (type_pos_of_push ha hq)
      apply hparts msg hmsg
      rw [requests, ha]
      exact List.mem_filterMap.mpr ⟨.push q, hq, rfl⟩
    · rw [Function.update_of_ne hj] at hq
      exact h.threads j q hq
  | @act i x acts r hi hr =>
    have hthreads : ∀ j q, .push q ∈ Function.update s.threads i acts j → P q :=
      fun j q hq => h.threads j q (mem_update_tail hi hq)
    cases x with
    | reset | notify =>
      rw [perform] at hr
      split at hr <;> cases hr
      exact { h with threads := hthreads }
    | store =>
      rw [perform] at hr
      split at hr <;> cases hr
      exact { h with threads := hthreads }
    | push msg =>
      cases hr
      refine { h with threads := hthreads, inFlight := fun q hq => ?_ }
      rcases List.mem_append.mp hq with hq | hq
      · exact h.inFlight q hq
      · rw [List.mem_singleton.mp hq]
        exact h.threads i msg (by rw [hi]; exact List.mem_cons_self)
  | @serve k msg data hk => exact { h with inFlight := fun q hq => h.inFlight q (List.mem_of_mem_eraseIdx hq) }
  | @deliver k msg hk =>
    refine { h with mailbox := fun q hq hpos => ?_ }
    rcases List.mem_append.mp hq with hq | hq
    · exact h.mailbox q hq hpos
    · rw [List.mem_singleton.mp hq] at hpos
      have hlocal := local_of_deliver hs hk
      unfold localForward at hlocal
      split_ifs at hlocal with h1 h2
      exact absurd hpos h2.1.not_gt

end Worker
end Hpps.Frame

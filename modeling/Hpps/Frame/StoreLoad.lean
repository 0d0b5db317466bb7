import Hpps.Frame.Waiting

/-! `WorkerTable::Store` and `WorkerTable::Load`: their waiter counts one reply, whatever the number of
servers. -/
namespace Hpps.Frame.Worker

open TransitionSystem

variable {β D : Type} {node : WorkerNode β D} {types : List MsgType} {s t : WorkerState β D} {d : D}
  {c : Call β} {msg : Message β} {n : ℕ}

/-- A Store or a Load that has returned was answered by every server, and no waiter was null. -/
def Completed (node : WorkerNode β D) (s : WorkerState β D) : Prop :=
  s.crash ≠ some .waiter ∧ ∀ id msg, s.phases id = .returned → s.calls[id]? = some msg →
    msg.type = .Store_Model ∨ msg.type = .Load_Model → ∀ i < node.numServers,
      ∃ q reply, (q, reply) ∈ s.replied ∧ q.msgId = id ∧ q.dst = node.serverIdToRank i

theorem completed_of_one (hone : node.numServers = 1) (h : Reachable (step node types) (init d) s) :
    Completed node s := by
  obtain ⟨⟨popped, hinv⟩, hcrash⟩ := reachable_inv (fun _ _ => .inr (.inr hone)) h
  refine ⟨hcrash, fun id msg hid hget htype i hi => ?_⟩
  obtain ⟨msg', acts, hget', hacts, hall⟩ := answered_of_returned hinv hid
  rw [hget] at hget'
  cases hget'
  rcases handle_cases hacts with ⟨hreq, -⟩ | ⟨-, file, data, -, rfl⟩ | ⟨hneg, -⟩
  · rcases hreq with h | h <;> rcases htype with h' | h' <;> cases h.symm.trans h'
  · have hpart : Act.push (newMsg node msg.type msg i [node.modelFile file i]) ∈
        ((List.range node.numServers).map fun i =>
          newMsg node msg.type msg i [node.modelFile file i]).map Act.push :=
      List.mem_map_of_mem (List.mem_map_of_mem (List.mem_range.mpr hi))
    obtain ⟨reply, hreply, -⟩ := hall _ hpart
    exact ⟨_, reply, hreply, hinv.msgId id msg hget, rfl⟩
  · rcases htype with h | h <;> simp [h, MsgType.Store_Model, MsgType.Load_Model] at hneg

/-- The messages of a checkpoint are not preceded by a Reset. -/
theorem handle_checkpoint {file : β} {data : List β}
    (htype : msg.type = .Store_Model ∨ msg.type = .Load_Model) (hdata : msg.data = file :: data) :
    handle node msg = .ok ((List.range node.numServers).map fun i =>
      .push (newMsg node msg.type msg i [node.modelFile file i])) := by
  rcases htype with h | h <;>
    simp [handle, h, processStoreModel, processLoadModel, processModel, hdata, MsgType.Store_Model,
      MsgType.Load_Model, MsgType.Request_Get, MsgType.Request_Add, MsgType.Reply_Get, MsgType.Reply_Add]

theorem handle_checkpoint_reply
    (htype : msg.type = -.Store_Model ∨ msg.type = -.Load_Model) : handle node msg = .ok [.notify msg] := by
  rcases htype with h | h <;>
    simp [handle, h, processReplyLoadModel, processReplyStoreModel, MsgType.Store_Model,
      MsgType.Load_Model, MsgType.Request_Get, MsgType.Request_Add, MsgType.Reply_Get, MsgType.Reply_Add,
      MsgType.Reply_Store_Model, MsgType.Reply_Load_Model]

/-- With more than one server, Wait can return after the reply of the first. -/
theorem exists_early_return (uri : β) (hc : c = .store uri ∨ c = .load uri) (hmem : c.type ∈ types)
    (hn : node.numServers = n + 2) : ∃ s q reply, Reachable (step node types) (init d) s ∧
      s.phases 0 = .returned ∧ s.calls = [c.message node.rank 0] ∧ s.replied = [(q, reply)] ∧
      q.dst = node.serverIdToRank 0 := by
  have htype : c.type = .Store_Model ∨ c.type = .Load_Model := by
    rcases hc with rfl | rfl
    · exact .inl rfl
    · exact .inr rfl
  have hdata : c.data = [uri] := by rcases hc with rfl | rfl <;> rfl
  set msg := c.message node.rank 0 with hmsg
  have hhandle : handle node msg = .ok ((List.range node.numServers).map fun i =>
      .push (newMsg node msg.type msg i [node.modelFile uri i])) := handle_checkpoint htype hdata
  rw [hn, List.range_succ_eq_map, List.map_cons] at hhandle
  set q := newMsg node msg.type msg 0 [node.modelFile uri 0] with hq
  set reply : Message β := { q.createReplyMessage with data := [] } with hreply
  have hhandle' : handle node reply = .ok [.notify reply] :=
    handle_checkpoint_reply (htype.imp (congrArg Neg.neg) (congrArg Neg.neg))
  have hlocal : localForward reply.type = .worker := by
    have : reply.type = -c.type := rfl
    rcases htype with h | h <;> rw [this, h] <;> rfl
  have hid : reply.msgId = 0 := rfl
  have hrun : ∃ s, exec (step node types) (init d)
      [.issue c, .wait 0, .pop 0, .act 0, .serve 0 [], .deliver 0, .pop 1, .act 1, .wake 0, .finish 0] =
        some s ∧ s.phases 0 = .returned ∧ s.calls = [msg] ∧ s.replied = [(q, reply)] := by
    simp [exec, step, init, hmem, ← hmsg, hhandle, perform, ← hreply, hlocal, hhandle', hid]
  obtain ⟨s, hs, hphase, hcalls, hreplied⟩ := hrun
  exact ⟨s, q, reply, ⟨_, hs⟩, hphase, hcalls, hreplied, rfl⟩

/-- Store and Load are answered by every server before they return if and only if there is one. -/
theorem store_load_completed_iff (uri : β) (d : D) (hn : 1 ≤ node.numServers)
    (ht : .Store_Model ∈ types ∨ .Load_Model ∈ types) :
    (∀ s, Reachable (step node types) (init d) s → Completed node s) ↔ node.numServers = 1 := by
  refine ⟨fun hall => ?_, fun hone s h => completed_of_one hone h⟩
  by_contra hne
  obtain ⟨n, hn⟩ : ∃ n, node.numServers = n + 2 := ⟨node.numServers - 2, by omega⟩
  obtain ⟨c, hc, hmem⟩ : ∃ c : Call β, (c = .store uri ∨ c = .load uri) ∧ c.type ∈ types := by
    rcases ht with h | h
    · exact ⟨.store uri, .inl rfl, h⟩
    · exact ⟨.load uri, .inr rfl, h⟩
  obtain ⟨s, q, reply, hs, hphase, hcalls, hreplied, hdst⟩ := exists_early_return (d := d) uri hc hmem hn
  have htype : (c.message node.rank 0).type = .Store_Model ∨ (c.message node.rank 0).type = .Load_Model := by
    rcases hc with rfl | rfl
    · exact .inl rfl
    · exact .inr rfl
  obtain ⟨q', reply', hmem', -, hdst'⟩ :=
    (hall s hs).2 0 (c.message node.rank 0) hphase (by rw [hcalls]; rfl) htype 1 (by omega)
  rw [hreplied, List.mem_singleton] at hmem'
  cases hmem'
  exact absurd (node.injective (hdst.symm.trans hdst')) (by decide)

open TwoParties in
/-- The second reply arrives when the waiter is deleted. -/
def storeOnTwo : List (WorkerMove (Table.Blob ℤ)) :=
  [.issue (.store (.uri "model")), .wait 0, .pop 0, .act 0, .act 0, .serve 0 [], .serve 0 [],
    .deliver 0, .deliver 0, .pop 0, .act 0, .wake 0, .finish 0, .pop 1, .act 1]

theorem store_on_two_not_completed : arrayOfThree.numServers = 2 ∧
    (∃ s, Reachable (step arrayOfThree [.Store_Model]) (init [0, 0, 0]) s ∧ s.crash = some .waiter) ∧
    ¬ ∀ s, Reachable (step arrayOfThree [.Store_Model]) (init [0, 0, 0]) s → Completed arrayOfThree s := by
  have h : Reachable (step arrayOfThree [.Store_Model]) (init [0, 0, 0])
      ((exec (step arrayOfThree [.Store_Model]) (init [0, 0, 0]) storeOnTwo).getD (init [0, 0, 0])) :=
    ⟨storeOnTwo, rfl⟩
  have hcrash : ((exec (step arrayOfThree [.Store_Model]) (init [0, 0, 0]) storeOnTwo).getD
      (init [0, 0, 0])).crash = some .waiter := by decide +kernel
  exact ⟨rfl, ⟨_, h, hcrash⟩, fun hall => (hall _ h).1 hcrash⟩

theorem store_load_completed_iff_two : arrayOfThree.numServers = 2 ∧
    ((∀ s, Reachable (step arrayOfThree [.Store_Model]) (init [0, 0, 0]) s → Completed arrayOfThree s) ↔
      arrayOfThree.numServers = 1) :=
  ⟨rfl, store_load_completed_iff (.uri "model") [0, 0, 0] (by decide) (.inl (by decide))⟩

end Hpps.Frame.Worker

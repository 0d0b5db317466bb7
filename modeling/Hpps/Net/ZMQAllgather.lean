import Hpps.Net.Allgather
import Hpps.Net.ZMQNet

/-! Allgather over ZMQ: RecvFrom does not look at the rank, and a fast peer can be a round ahead. -/
namespace Hpps.Net

open Blocks Network TransitionSystem

variable {α β : Type} {n : ℕ} {blockStart blockLen : ℕ → ℕ} {allSize : ℕ} {input output : Fin n → List α}

/-- The number of blocks that are sent in round `t`. -/
def blocksOf (n t : ℕ) : ℕ := min (2 ^ t) (n - 2 ^ t)

theorem wrappedSize_pos {len : ℕ → ℕ} {first count : ℕ} :
    0 < wrappedSize len n first count ↔ ∃ d < count, 0 < len ((first + d) % n) := by
  induction count with
  | zero => simp [wrappedSize]
  | succ count ih =>
    rw [wrappedSize_succ]
    constructor
    · intro h
      rcases Nat.eq_zero_or_pos (wrappedSize len n first count) with hz | hp
      · exact ⟨count, Nat.lt_succ_self _, by omega⟩
      · obtain ⟨d, hd, h⟩ := ih.mp hp
        exact ⟨d, hd.trans (Nat.lt_succ_self _), h⟩
    · rintro ⟨d, hd, h⟩
      rcases Nat.lt_succ_iff_lt_or_eq.mp hd with hd | rfl
      · exact Nat.add_pos_left (ih.mpr ⟨d, hd, h⟩) _
      · exact Nat.add_pos_right _ h

/-! ### One sender for each rank -/

/-- Whatever is not empty comes to a rank from its `source`. -/
def OneSender (len : ℕ → ℕ) (source : Fin n → Fin n) : Prop :=
  ∀ t, 2 ^ t < n → ∀ j : Fin n, 0 < wrappedSize len n j (blocksOf n t) → source (behind (2 ^ t) j) = j

theorem confined_lift {source : Fin n → Fin n} {i : Fin n} {post : β → Prop} {x : Except Stop β}
    (h : ∀ b, x = .ok b → post b) : Confined source i post (liftM x : Program n α β) := by
  cases x with
  | ok b => exact .ret (h b rfl)
  | error e => exact .fail

theorem length_fetch {l d : List α} {first len : ℕ} (h : fetch l first len = .ok d) : d.length = len := by
  unfold fetch at h
  split at h
  · rename_i hle
    cases h
    rw [List.length_take, List.length_drop]
    omega
  · cases h

theorem confined_gatherRound {source : Fin n → Fin n} (h : OneSender blockLen source) (r : Fin n) {t : ℕ}
    (ht : 2 ^ t < n) {st : GatherState α} (hst : st.accumulatedBlock = min (2 ^ t) n) :
    Confined source r (fun st => st.accumulatedBlock = min (2 ^ (t + 1)) n) (gatherRound r blockLen st t) := by
  have hacc : st.accumulatedBlock = 2 ^ t := hst.trans (min_eq_left ht.le)
  have hnext : 2 ^ t + blocksOf n t = min (2 ^ (t + 1)) n := by
    rw [blocksOf, pow_succ]
    omega
  have hout : (r + n - 2 ^ t) % n < n := Nat.mod_lt _ r.pos
  have hin : (r + 2 ^ t) % n < n := Nat.mod_lt _ r.pos
  rw [gatherRound, hacc]
  have hfetch : Confined source r (fun d => d.length = wrappedSize blockLen n r (blocksOf n t))
      (liftM (fetch st.output 0 (wrappedSize blockLen n r (blocksOf n t))) : Program n α (List α)) :=
    confined_lift fun d hd => length_fetch hd
  refine hfetch.bind fun data hdata => ?_
  simp only [BruckMap.construct]
  rw [sendRecv_bind hout hin]
  refine .send (fun hne => ?_) (.recv (fun hpos => ?_) fun l => ?_)
  · refine h t ht r ?_
    rw [← hdata]
    exact List.length_pos_of_ne_nil hne
  · have hsource := h t ht (ahead (2 ^ t) r) (by rwa [ahead, wrappedSize_mod])
    rw [behind_ahead ht] at hsource
    exact hsource.symm
  · exact (confined_lift fun _ _ => trivial).bind fun output _ => .ret hnext

theorem confined_allgather {source : Fin n → Fin n} (h : OneSender blockLen source) (r : Fin n)
    (data out : List α) :
    Confined source r (fun _ => True) (allgather r data allSize blockStart blockLen out) := by
  rw [allgather]
  refine (confined_lift fun _ _ => trivial).bind fun mine _ =>
    (confined_lift fun _ _ => trivial).bind fun output _ => ?_
  dsimp only
  rw [List.range_eq_range']
  refine (Confined.foldlM (fun t st => st.accumulatedBlock = min (2 ^ t) n)
    (fun t ht st hst => ?_) ?_).bind fun st _ =>
    (confined_lift fun _ _ => trivial).bind fun _ _ => (confined_lift fun _ _ => trivial).bind fun _ _ =>
      confined_lift fun _ _ => trivial
  · rw [Nat.zero_add] at ht
    exact confined_gatherRound h r (BruckMap.pow_lt_of_lt_k ht) hst
  · exact (min_eq_left r.pos).symm

/-- Two ranks exchange their blocks with each other only. -/
theorem oneSender_two (h : n ≤ 2) : OneSender blockLen (ahead 1 : Fin n → Fin n) := by
  intro t ht j _
  have hone : 2 ^ t = 1 := by
    rcases t with _ | t
    · rfl
    · have := Nat.one_le_two_pow (n := t)
      rw [pow_succ] at ht
      omega
  rw [hone] at ht ⊢
  exact ahead_behind ht j

/-- A single block comes to each rank in one round. -/
theorem oneSender_single {b : ℕ} (hb : ∀ i < n, 0 < blockLen i → i = b) :
    OneSender blockLen fun i : Fin n => ahead (2 ^ Nat.log 2 ((b + n - i) % n)) i := by
  intro t ht j hpos
  obtain ⟨d, hd, hpos⟩ := wrappedSize_pos.mp hpos
  have hd' : d < 2 ^ t ∧ 2 ^ t + d < n := by
    rw [blocksOf] at hd
    omega
  have heq := hb _ (Nat.mod_lt _ j.pos) hpos
  have hdist : (b + n - (behind (2 ^ t) j : ℕ)) % n = 2 ^ t + d := by
    have hj : ((behind (2 ^ t) j : ℕ) + 2 ^ t) % n = j := congrArg Fin.val (ahead_behind ht j)
    have hi := (behind (2 ^ t) j).isLt
    generalize (behind (2 ^ t) j : ℕ) = i at hj hi ⊢
    have hwrap : b = (i + (2 ^ t + d)) % n := by
      rw [← heq, ← hj, Nat.mod_add_mod, Nat.add_assoc]
    have hback : b = i + (2 ^ t + d) ∨ b + n = i + (2 ^ t + d) := by
      rcases lt_or_ge (i + (2 ^ t + d)) n with hlt | hge
      · exact .inl (hwrap.trans (Nat.mod_eq_of_lt hlt))
      · rw [Nat.mod_eq_sub_mod hge, Nat.mod_eq_of_lt (by omega)] at hwrap
        omega
    rcases hback with hb | hb
    · rw [show b + n - i = 2 ^ t + d + n by omega, Nat.add_mod_right, Nat.mod_eq_of_lt hd'.2]
    · rw [show b + n - i = 2 ^ t + d by omega, Nat.mod_eq_of_lt hd'.2]
  have hlog : Nat.log 2 (2 ^ t + d) = t :=
    (Nat.log_eq_iff (.inr ⟨by decide, by have := Nat.one_le_two_pow (n := t); omega⟩)).mpr
      ⟨Nat.le_add_right _ _, by rw [pow_succ]; omega⟩
  dsimp only
  rw [hdist, hlog]
  exact ahead_behind ht j

/-! ### A message that is a round ahead -/

theorem ahead_injective {d e : ℕ} {r : Fin n} (hd : d < n) (he : e < n) (h : ahead d r = ahead e r) : d = e := by
  have hmod : ((r : ℕ) + d) % n = (r + e) % n := congrArg Fin.val h
  have := Nat.ModEq.add_left_cancel' (r : ℕ) hmod
  rwa [Nat.ModEq, Nat.mod_eq_of_lt hd, Nat.mod_eq_of_lt he] at this

/-- In two rounds that follow each other rank `r` is sent a message that is not empty. -/
def Adjacent (len : ℕ → ℕ) (t : ℕ) (r : Fin n) : Prop :=
  2 ^ (t + 1) < n ∧ 0 < wrappedSize len n (r + 2 ^ t) (blocksOf n t) ∧
    0 < wrappedSize len n (r + 2 ^ (t + 1)) (blocksOf n (t + 1))

theorem adjacent_of_window {a e t : ℕ} (ha : a < n) (ht : 2 ^ (t + 1) < n) (hle : 2 ^ t ≤ e)
    (hlt : e - 2 ^ t < blocksOf n (t + 1)) (hpa : 0 < blockLen a) (hpe : 0 < blockLen ((a + e) % n)) :
    ∃ r : Fin n, Adjacent blockLen t r := by
  have hpow : 2 ^ (t + 1) = 2 ^ t * 2 := pow_succ 2 t
  have hone := Nat.one_le_two_pow (n := t)
  have hr : ((behind (2 ^ t) ⟨a, ha⟩ : ℕ) + 2 ^ t) % n = a :=
    congrArg Fin.val (ahead_behind (show 2 ^ t < n by omega) (⟨a, ha⟩ : Fin n))
  refine ⟨behind (2 ^ t) ⟨a, ha⟩, ht, wrappedSize_pos.mpr ⟨0, by rw [blocksOf]; omega, ?_⟩,
    wrappedSize_pos.mpr ⟨e - 2 ^ t, hlt, ?_⟩⟩
  · rwa [Nat.add_zero, hr]
  · have hsum : (behind (2 ^ t) ⟨a, ha⟩ : ℕ) + 2 ^ (t + 1) + (e - 2 ^ t) =
        (behind (2 ^ t) ⟨a, ha⟩ : ℕ) + 2 ^ t + e := by omega
    rwa [hsum, ← Nat.mod_add_mod, hr]

/-- Two blocks that are no more than half the ring apart are sent to some rank in two rounds that follow
each other. -/
theorem adjacent_of_near {a e : ℕ} (ha : a < n) (hn : 2 < n) (he : 0 < e) (hhalf : 2 * e ≤ n)
    (hpa : 0 < blockLen a) (hpe : 0 < blockLen ((a + e) % n)) :
    ∃ t, ∃ r : Fin n, Adjacent blockLen t r := by
  have hle : 2 ^ Nat.log 2 e ≤ e := Nat.pow_log_le_self 2 he.ne'
  have hlt : e < 2 ^ (Nat.log 2 e + 1) := Nat.lt_pow_succ_log_self (by decide) e
  generalize Nat.log 2 e = t at hle hlt
  rw [pow_succ] at hlt
  by_cases hfit : 2 ^ t + e < n
  · refine ⟨t, adjacent_of_window ha (by rw [pow_succ]; omega) hle ?_ hpa hpe⟩
    rw [blocksOf, pow_succ]
    omega
  · obtain ⟨u, rfl⟩ : ∃ u, t = u + 1 := by
      refine Nat.exists_eq_succ_of_ne_zero ?_
      rintro rfl
      omega
    rw [pow_succ] at hle hlt hfit
    have hone := Nat.one_le_two_pow (n := u)
    refine ⟨u, adjacent_of_window ha (by rw [pow_succ]; omega) (by omega) ?_ hpa hpe⟩
    rw [blocksOf, pow_succ]
    omega

theorem exists_adjacent {a b : ℕ} (hn : 2 < n) (ha : a < n) (hb : b < n) (hab : a ≠ b)
    (hpa : 0 < blockLen a) (hpb : 0 < blockLen b) : ∃ t, ∃ r : Fin n, Adjacent blockLen t r := by
  wlog hlt : a < b generalizing a b
  · exact this hb ha hab.symm hpb hpa (by omega)
  rcases le_or_gt (2 * (b - a)) n with hhalf | hhalf
  · refine adjacent_of_near ha hn (by omega : 0 < b - a) hhalf hpa ?_
    rwa [Nat.add_sub_cancel' hlt.le, Nat.mod_eq_of_lt hb]
  · refine adjacent_of_near hb hn (by omega : 0 < n - (b - a)) (by omega) hpb ?_
    rwa [show b + (n - (b - a)) = a + n by omega, Nat.add_mod_right, Nat.mod_eq_of_lt ha]

/-- While rank `r` waits for a message of one round, that of the next round is there already. -/
theorem exists_overtaking (hL : Layout n blockStart blockLen allSize)
    (hin : ∀ r : Fin n, blockLen r ≤ (input r).length) (hout : ∀ r : Fin n, allSize ≤ (output r).length)
    {t : ℕ} {r : Fin n} (h : Adjacent blockLen t r) : ∃ c : Network.Config (.messages α) (Fin n) (List α),
      Reachable step
        (quiet (.messages α) fun r => allgather r (input r) allSize blockStart blockLen (output r)) c ∧
      (∃ len next, c.procs r = .recv (ahead (2 ^ t) r) (len + 1) next) ∧
      ∃ msg, c.chan (ahead (2 ^ (t + 1)) r, r) = [msg] := by
  obtain ⟨ht, hpos, hpos'⟩ := h
  have hpow : 2 ^ (t + 1) = 2 ^ t * 2 := pow_succ 2 t
  have hone := Nat.one_le_two_pow (n := t)
  have ht' : 2 ^ t < n := by omega
  have hlen := length_contribution hin
  have hroom : ∀ r : Fin n, wrappedSize blockLen n r n ≤ (output r).length := fun r => by
    rw [wrappedSize_all r.isLt, ← hL.all]
    exact hout r
  obtain ⟨m, hm⟩ : ∃ m, BruckMap.count n n 0 = t + (m + 2) := by
    have hk : 2 ^ (t + 1) < 2 ^ BruckMap.count n n 0 := ht.trans_le (BruckMap.le_pow_k (r := 0))
    have := (Nat.pow_lt_pow_iff_right (by decide : 1 < 2)).mp hk
    exact ⟨BruckMap.count n n 0 - (t + 2), by omega⟩
  set rest : Fin n → GatherState α → Program n α (List α) := fun r st =>
    (List.range' (t + 1 + 1) m).foldlM (gatherRound r blockLen) st >>= fun st => liftM (do
      let output ← reverse st.output 0 allSize
      let output ← reverse output 0 (blockStart r)
      reverse output (blockStart r) allSize) with hrest
  have hprogram : ∀ r, allgather r (input r) allSize blockStart blockLen (output r) =
      (List.range' 0 t).foldlM (gatherRound r blockLen)
        (gatherAt blockLen (contribution input blockLen) n r 0 (output r)) >>= fun st =>
      gatherRound r blockLen st t >>= fun st => gatherRound r blockLen st (t + 1) >>= rest r := by
    intro r
    have hbind := allgather_bind hL hin hout r .ret
    rw [Proc.bind_ret] at hbind
    rw [hbind, hm, ← List.range'_append_1, List.foldlM_append, bind_assoc, Nat.zero_add]
    simp only [List.range'_succ, List.foldlM_cons, bind_assoc, Proc.bind_ret, hrest]
  have hrounds := reachable_gatherRounds (T := .messages α) hlen hroom (i := 0) (m := t)
    (fun j hj => (Nat.pow_lt_pow_right (by decide) (by omega : j < t + 1)).trans ht)
    fun r st => gatherRound r blockLen st t >>= fun st => gatherRound r blockLen st (t + 1) >>= rest r
  rw [Nat.zero_add] at hrounds
  simp only [hprogram]
  set s := ahead (2 ^ (t + 1)) r with hs
  set u := ahead (2 ^ t) s with hu
  have hsr : r ≠ s := by
    intro heq
    have hzero : ahead 0 r = ahead (2 ^ (t + 1)) r := by
      rw [← hs, ← heq]
      exact Fin.ext (Nat.mod_eq_of_lt r.isLt)
    have := ahead_injective r.pos ht hzero
    omega
  have hdst : behind (2 ^ t) s ≠ r := by
    intro heq
    have hsame : ahead (2 ^ (t + 1)) r = ahead (2 ^ t) r := by
      rw [← hs, ← heq, ahead_behind ht']
    have := ahead_injective ht ht' hsame
    omega
  have hmsg : gathered (contribution input blockLen) n u (blocksOf n t) =
      gathered (contribution input blockLen) n (s + 2 ^ t) (blocksOf n t) := by
    rw [hu, ahead, gathered_mod]
  have hnext := gatherRound_recv hlen s (hroom s) ht' fun st =>
    gatherRound s blockLen st (t + 1) >>= rest s
  rw [gatherRound_bind hlen ht s (rest s), hs, behind_ahead ht, ← hs] at hnext
  have hcnt : wrappedSize blockLen n (s + 2 ^ t) (blocksOf n t) =
      (gathered (contribution input blockLen) n u (blocksOf n t)).length := by
    rw [hmsg, length_gathered r.pos hlen]
  obtain ⟨c, hc, hproc, hchan⟩ := exists_ahead (T := .messages α) (r := r) (s := s) (u := u)
    (p := fun r => gatherRound r blockLen
      (gatherAt blockLen (contribution input blockLen) n r t (output r)) t >>= fun st =>
        gatherRound r blockLen st (t + 1) >>= rest r)
    (fun r => gatherRound_bind hlen ht' r fun st => gatherRound r blockLen st (t + 1) >>= rest r) rfl
    (behind_ahead ht' s) hcnt (by rw [blocksOf] at hmsg; rw [hmsg]; exact hnext) hsr hdst
  obtain ⟨len, hsize⟩ := Nat.exists_eq_succ_of_ne_zero hpos.ne'
  rw [blocksOf] at hsize
  rw [hsize] at hproc
  refine ⟨c, hrounds.trans hc, ⟨len, _, hproc⟩, _, hchan.trans (if_neg ?_)⟩
  rw [List.isEmpty_iff_length_eq_zero, length_gathered r.pos hlen, hs, ahead, wrappedSize_mod]
  exact hpos'.ne'

/-- RecvFrom takes the message that is a round ahead. -/
theorem not_reliable (hL : Layout n blockStart blockLen allSize)
    (hin : ∀ r : Fin n, blockLen r ≤ (input r).length) (hout : ∀ r : Fin n, allSize ≤ (output r).length)
    {t : ℕ} {r : Fin n} (h : Adjacent blockLen t r) {b : Fin n → List α} :
    ¬ ZMQNetWrapper.Reliable (fun r => allgather r (input r) allSize blockStart blockLen (output r)) b := by
  intro hr
  obtain ⟨c, ⟨is, his⟩, ⟨len, next, hproc⟩, msg, hchan⟩ := exists_overtaking hL hin hout h
  obtain ⟨ms, -, hms⟩ := ZMQNetWrapper.exec_of_network his
  obtain ⟨c', hc'⟩ := ZMQNetWrapper.exists_take (c := ZMQNetWrapper.ofNetwork c) hproc hchan
  obtain ⟨len', next', hname⟩ := hr.named _ ⟨ms, hms⟩ r _ c' hc'
  have hsame : ahead (2 ^ t) r = ahead (2 ^ (t + 1)) r := (Proc.recv.inj (hproc.symm.trans hname)).1
  have hlt : 2 ^ t < 2 ^ (t + 1) := Nat.pow_lt_pow_right (by decide) t.lt_succ_self
  exact hlt.ne (ahead_injective (hlt.trans h.1) h.1 hsame)

/-- Every run over ZMQ ends with all blocks in their order, with only messages of the named rank received,
exactly if there are no more than two ranks or no more than one block is not empty. -/
theorem reliable_iff (hL : Layout n blockStart blockLen allSize)
    (hin : ∀ r : Fin n, blockLen r ≤ (input r).length) (hout : ∀ r : Fin n, allSize ≤ (output r).length) :
    ZMQNetWrapper.Reliable (fun r => allgather r (input r) allSize blockStart blockLen (output r))
        (fun r => concat (contribution input blockLen) n ++ (output r).drop allSize) ↔
      n ≤ 2 ∨ ∀ i < n, ∀ j < n, 0 < blockLen i → 0 < blockLen j → i = j := by
  have hcompletes := completes_allgather hL hin hout
  constructor
  · intro h
    by_contra! hmany
    obtain ⟨hn, i, hi, j, hj, hpi, hpj, hij⟩ := hmany
    obtain ⟨t, r, hadj⟩ := exists_adjacent hn hi hj hij hpi hpj
    exact not_reliable hL hin hout hadj h
  · rintro (htwo | hone)
    · exact ZMQNetWrapper.reliable_of_confined hcompletes fun r =>
        confined_allgather (oneSender_two htwo) r (input r) (output r)
    · by_cases hb : ∃ b < n, 0 < blockLen b
      · obtain ⟨b, hb, hpos⟩ := hb
        exact ZMQNetWrapper.reliable_of_confined hcompletes fun r =>
          confined_allgather (oneSender_single fun i hi hp => hone i hi b hb hp hpos) r (input r) (output r)
      · push Not at hb
        refine ZMQNetWrapper.reliable_of_confined hcompletes fun r =>
          confined_allgather (oneSender_single (b := 0) fun i hi hp => ?_) r (input r) (output r)
        have := hb i hi
        omega

/-- Three ranks of which one has a block. -/
theorem reliable_iff_single :
    let len : ℕ → ℕ := fun i => if i = 1 then 2 else 0
    let input : Fin 3 → List ℕ := fun r => List.replicate 2 r
    let output : Fin 3 → List ℕ := fun _ => [9, 9, 9]
    ZMQNetWrapper.Reliable (fun r => allgather r (input r) 2 (offset len) len (output r)) fun _ => [1, 1, 9] := by
  intro len input output
  exact (@reliable_iff ℕ 3 (offset len) len 2 input output ⟨fun _ _ => rfl, rfl⟩ (by decide) (by decide)).mpr
    (.inr (by decide))

/-- Three ranks with one element each. -/
def gatherOfThree (r : Fin 3) : Program 3 ℕ (List ℕ) :=
  allgather r [(r : ℕ)] 3 id (fun _ => 1) [9, 9, 9]

/-- Rank 2 ends its first round before rank 1 begins, and sends to rank 0 first. -/
def fastRank : List (ZMQNetWrapper.Move (Fin 3)) :=
  [.run 0, .run 2, .take 2 0, .run 2, .take 0 2, .run 0, .run 1, .take 0 1, .take 1 2, .run 1, .take 1 0,
    .take 2 1]

theorem allgather_mixes_blocks :
    (∃ c, Reachable ZMQNetWrapper.step (ZMQNetWrapper.start gatherOfThree) c ∧
      c.procs 0 = .ret [0, 2, 1] ∧ c.procs 1 = .ret [0, 1, 2] ∧ c.procs 2 = .ret [0, 1, 2]) ∧
    ¬ ZMQNetWrapper.Reliable gatherOfThree fun _ => [0, 1, 2] := by
  have hrun : ∃ c, exec ZMQNetWrapper.step (ZMQNetWrapper.start gatherOfThree) fastRank = some c ∧
      c.procs 0 = .ret [0, 2, 1] ∧ c.procs 1 = .ret [0, 1, 2] ∧ c.procs 2 = .ret [0, 1, 2] :=
    ⟨_, rfl, rfl, rfl, rfl⟩
  obtain ⟨c, hc, h0, h1, h2⟩ := hrun
  refine ⟨⟨c, ⟨fastRank, hc⟩, h0, h1, h2⟩, fun h => ?_⟩
  have hret : ∀ i, ∃ l, c.procs i = .ret l := by
    intro i
    fin_cases i
    exacts [⟨_, h0⟩, ⟨_, h1⟩, ⟨_, h2⟩]
  have hhalted : Halted ZMQNetWrapper.step c := by
    intro m
    cases m with
    | run i =>
      obtain ⟨l, hl⟩ := hret i
      simp only [ZMQNetWrapper.step, hl]
    | take i src =>
      obtain ⟨l, hl⟩ := hret i
      simp only [ZMQNetWrapper.step, hl]
  rw [h.ends.eq_of_halted ⟨fastRank, hc⟩ hhalted] at h0
  cases h0

end Hpps.Net

import Hpps.Lib.Reduction
import Hpps.Net.Allgather
import Hpps.Net.Groups

/-! ReduceScatter by recursive halving: every rank ends with its own block of the reduction. -/
namespace Hpps.Net

open Blocks Network Reduction RecursiveHalvingMap Rows TransitionSystem

variable {α β : Type} {n : ℕ} {R : Reducer α} {T : Transport α} {first len q m r : ℕ}
  {st : ScatterState α} {msg rest : List α} {input : ℕ → List α} {output : Fin n → List α}
  {inputSize : ℕ} {blockStart blockLen : ℕ → ℕ}

theorem sumFrom_offset : sumFrom blockLen first len = offset blockLen (first + len) - offset blockLen first := by
  rw [offset_add, Nat.add_sub_cancel_left]
  induction len with
  | zero => rfl
  | succ len ih =>
    rw [sumFrom] at ih
    rw [sumFrom, List.range_succ, List.foldl_append, ih, Finset.sum_range_succ]
    rfl

theorem fetch_eq {l : List α} (h : first + len ≤ l.length) :
    fetch l first len = .ok ((l.drop first).take len) := if_pos h

/-- Reducing a message into whole elements of the input. -/
theorem reduceInto_spec (hout : st.output = msg ++ rest) (hfirst : first = q * R.width)
    (hwidth : R.width ∣ msg.length) (hin : first + msg.length ≤ st.input.length) :
    ∃ u, reduceInto R.reduce st first msg.length = .ok u ∧ u.output = st.output ∧
      u.input.length = st.input.length ∧ ∀ e, (e + 1) * R.width ≤ msg.length →
        row R.width u.input (q + e) = R.op (row R.width msg e) (row R.width st.input (q + e)) := by
  have hsrc : fetch st.output 0 msg.length = .ok msg := by
    rw [hout]
    exact fetch_append (l := []) rfl rfl
  have hdst : ((st.input.drop first).take msg.length).length = msg.length := by
    rw [List.length_take, List.length_drop]
    omega
  have hlen := R.length_reduce hdst.symm (hdst.symm ▸ hwidth)
  rw [hdst] at hlen
  refine ⟨⟨overwrite st.input first (R.reduce msg ((st.input.drop first).take msg.length)), st.output⟩,
    ?_, rfl, length_overwrite (by rw [hlen]; exact hin), fun e he => ?_⟩
  · rw [reduceInto, hsrc, ok_bind, fetch_eq hin, ok_bind, memcpy, if_pos (by rw [hlen]; exact hin)]
    rfl
  · subst hfirst
    rw [row_overwrite (by rw [hlen]; exact hin) (by rw [hlen]; exact he),
      R.row_reduce he (by rw [hdst]; exact he), row_take he, row_drop]

/-- What the callers of `ReduceScatter` see to: buffers of the full size, and blocks of whole
elements that make up the input. -/
structure Task (n : ℕ) (R : Reducer α) (input : ℕ → List α) (output : Fin n → List α)
    (inputSize : ℕ) (blockStart blockLen : ℕ → ℕ) : Prop where
  layout : Layout n blockStart blockLen inputSize
  aligned : ∀ j < n, R.width ∣ blockLen j
  length_input : ∀ r < n, (input r).length = inputSize
  length_output : ∀ r, inputSize ≤ (output r).length

/-- The machines whose data group `g` has seen when it agrees on windows of `d` groups. -/
def covered (n d g : ℕ) : Finset ℕ :=
  {r ∈ Finset.range n | groupOf (singles n) r % d = g % d}

/-- The bytes of the window of `d` groups around group `g` start here. -/
def windowStart (n : ℕ) (blockLen : ℕ → ℕ) (g d : ℕ) : ℕ :=
  offset blockLen (groupStart (singles n) (g / d * d))

def windowEnd (n : ℕ) (blockLen : ℕ → ℕ) (g d : ℕ) : ℕ :=
  offset blockLen (groupStart (singles n) (g / d * d + d))

/-- Group `g` holds, in its window of `d` groups, the combination of what it has seen. -/
def Holds (n : ℕ) (R : Reducer α) (input : ℕ → List α) (blockLen : ℕ → ℕ) (d g : ℕ)
    (buf : List α) : Prop :=
  ∀ e, windowStart n blockLen g d ≤ e * R.width → (e + 1) * R.width ≤ windowEnd n blockLen g d →
    Combined R.op (fun r => row R.width (input r) e) (covered n d g) (row R.width buf e)

/-- The buffers of a rank while the groups agree on windows of `d` groups. -/
structure Scattered (n : ℕ) (R : Reducer α) (input : ℕ → List α) (inputSize : ℕ) (blockLen : ℕ → ℕ)
    (d r : ℕ) (st : ScatterState α) : Prop where
  length_input : st.input.length = inputSize
  length_output : inputSize ≤ st.output.length
  holds : typeOf (singles n) r ≠ .other →
    Holds n R input blockLen d (groupOf (singles n) r) st.input

section Windows

variable {d g : ℕ}

theorem groupStart_le (hn : 0 < n) (hg : g ≤ 2 ^ levels n) : groupStart (singles n) g ≤ n := by
  obtain ⟨-, hle, hadd⟩ := singles_spec hn
  unfold groupStart
  omega

theorem groupStart_lt (hn : 0 < n) (hg : g < 2 ^ levels n) : groupStart (singles n) g < n := by
  obtain ⟨-, hle, hadd⟩ := singles_spec hn
  unfold groupStart
  omega

theorem windowStart_le : windowStart n blockLen g d ≤ windowEnd n blockLen g d :=
  offset_mono (groupStart_mono (Nat.le_add_right ..))

theorem windowEnd_le (hn : 0 < n) (hd : 0 < d) (hk : d ∣ 2 ^ levels n) (hg : g < 2 ^ levels n) :
    windowEnd n blockLen g d ≤ offset blockLen n :=
  offset_mono (groupStart_le hn (window_le hd hk hg))

theorem window_mono : windowStart n blockLen g (d * 2) ≤ windowStart n blockLen g d ∧
    windowEnd n blockLen g d ≤ windowEnd n blockLen g (d * 2) :=
  ⟨offset_mono (groupStart_mono window_subset.1), offset_mono (groupStart_mono window_subset.2)⟩

/-- The windows of partners are the two halves of one window. -/
theorem window_partner (hd : 0 < d) :
    windowStart n blockLen (partner g d) (d * 2) = windowStart n blockLen g (d * 2) ∧
      windowEnd n blockLen (partner g d) (d * 2) = windowEnd n blockLen g (d * 2) := by
  simp only [windowStart, windowEnd, partner_div_two hd, and_self]

theorem covered_union (hd : 0 < d) :
    covered n (d * 2) (partner g d) ∪ covered n (d * 2) g = covered n d g := by
  ext r
  simp only [covered, Finset.mem_union, Finset.mem_filter, ← and_or_left, mod_eq_iff hd]
  rw [or_comm]

theorem covered_disjoint (hd : 0 < d) :
    Disjoint (covered n (d * 2) (partner g d)) (covered n (d * 2) g) := by
  rw [Finset.disjoint_left]
  intro r h h'
  rw [covered, Finset.mem_filter] at h h'
  exact mod_partner_ne hd (h.2.symm.trans h'.2)

theorem covered_one : covered n 1 g = Finset.range n := by
  simp [covered, Nat.mod_one]

end Windows

/-- A message is received into the output and reduced into the input. -/
theorem absorb_spec (st : ScatterState α) (msg : List α) (hfirst : first = q * R.width) (hwidth : R.width ∣ msg.length)
    (hin : first + msg.length ≤ st.input.length) (hout : msg.length ≤ st.output.length) :
    ∃ u, (do
        let output ← memcpy st.output 0 msg
        reduceInto R.reduce { st with output } first msg.length) = .ok u ∧
      u.output.length = st.output.length ∧ u.input.length = st.input.length ∧
      ∀ e, (e + 1) * R.width ≤ msg.length →
        row R.width u.input (q + e) = R.op (row R.width msg e) (row R.width st.input (q + e)) := by
  have hcopy : memcpy st.output 0 msg = .ok (msg ++ st.output.drop msg.length) := by
    have := memcpy_append (l := []) (n := 0) rfl hout
    rwa [List.nil_append, List.nil_append] at this
  have houtput : (⟨st.input, msg ++ st.output.drop msg.length⟩ : ScatterState α).output =
      msg ++ st.output.drop msg.length := rfl
  obtain ⟨u, hu, houtput', hinput, hrow⟩ := reduceInto_spec houtput hfirst hwidth hin
  refine ⟨u, ?_, ?_, hinput, hrow⟩
  · rw [hcopy, ok_bind]
    exact hu
  · rw [houtput']
    simp [hout]

/-! ### The groups bring their data together -/

theorem covered_levels (hr : r < n) {r' : ℕ} : r' ∈ covered n (2 ^ levels n) (groupOf (singles n) r) ↔
    r' < n ∧ groupOf (singles n) r' = groupOf (singles n) r := by
  rw [covered, Finset.mem_filter, Finset.mem_range]
  refine and_congr_right fun hr' => ?_
  have hn : 0 < n := r.zero_le.trans_lt hr
  rw [Nat.mod_eq_of_lt (groupOf_lt hn hr), Nat.mod_eq_of_lt (groupOf_lt hn hr')]

theorem covered_normal (hr : r < n) (h : typeOf (singles n) r = .normal) :
    covered n (2 ^ levels n) (groupOf (singles n) r) = {r} := by
  ext r'
  rw [covered_levels hr, eq_of_groupOf_eq h, Finset.mem_singleton]
  exact ⟨And.right, fun heq => ⟨heq ▸ hr, heq⟩⟩

theorem covered_leader (hr : r < n) (h : typeOf (singles n) r = .groupLeader) :
    covered n (2 ^ levels n) (groupOf (singles n) r) = {r + 1} ∪ {r} := by
  have hnext := (next_of_leader hr h).1
  ext r'
  rw [covered_levels hr, groupOf_eq_leader h, Finset.mem_union, Finset.mem_singleton, Finset.mem_singleton]
  constructor
  · exact And.right
  · rintro (rfl | rfl)
    · exact ⟨hnext, .inl rfl⟩
    · exact ⟨hr, .inr rfl⟩

section Collect

variable (ht : Task n R input output inputSize blockStart blockLen)
include ht

theorem Task.dvd_inputSize : R.width ∣ inputSize := by
  rw [ht.layout.all]
  exact dvd_offset ht.aligned

theorem Task.windowEnd_le {d g : ℕ} (hn : 0 < n) (hd : 0 < d) (hk : d ∣ 2 ^ levels n)
    (hg : g < 2 ^ levels n) : windowEnd n blockLen g d ≤ inputSize :=
  (Net.windowEnd_le hn hd hk hg).trans_eq ht.layout.all.symm

/-- The buffers of a rank when its group has brought its data together. -/
theorem collect_spec (r : Fin n) : ∃ u, Scattered n R input inputSize blockLen (2 ^ levels n) r u ∧
    (typeOf (singles n) r = .groupLeader → (do
      let output ← memcpy (output r) 0 (input (r + 1))
      reduceInto R.reduce ⟨input r, output⟩ 0 inputSize) = .ok u) ∧
    (typeOf (singles n) r ≠ .groupLeader → u = ⟨input r, output r⟩) := by
  have hin : (input r).length = inputSize := ht.length_input r r.isLt
  cases htype : typeOf (singles n) r with
  | other =>
    refine ⟨⟨input r, output r⟩, ⟨hin, ht.length_output r, fun h => absurd htype h⟩, (fun h => nomatch h), fun _ => rfl⟩
  | normal =>
    refine ⟨⟨input r, output r⟩, ⟨hin, ht.length_output r, fun _ e _ _ => ?_⟩, (fun h => nomatch h), fun _ => rfl⟩
    rw [covered_normal r.isLt htype]
    exact .single (r : ℕ)
  | groupLeader =>
    have hnext : (input (r + 1)).length = inputSize := ht.length_input _ (next_of_leader r.isLt htype).1
    have hout := ht.length_output r
    obtain ⟨u, hu, houtput, hinput, hrow⟩ := absorb_spec ⟨input r, output r⟩ (input (r + 1))
      (R := R) (Nat.zero_mul _).symm (hnext ▸ ht.dvd_inputSize) (by dsimp only; omega) (by dsimp only; omega)
    rw [hnext] at hu
    refine ⟨u, ⟨hinput.trans hin, hout.trans_eq houtput.symm, fun _ e _ hle => ?_⟩, fun _ => hu,
      fun h => absurd rfl h⟩
    have hend := ht.windowEnd_le r.pos (Nat.two_pow_pos _) (dvd_refl _) (groupOf_lt r.pos r.isLt)
    have he := hrow e (by omega)
    rw [Nat.zero_add] at he
    rw [covered_leader r.isLt htype, he]
    exact (Combined.single (r + 1 : ℕ)).node (.single (r : ℕ)) (by simp)

/-- The other machine of a group, or the machine itself. -/
def neighborOf (n : ℕ) (r : Fin n) : Fin n :=
  match typeOf (singles n) r with
  | .normal => r
  | .groupLeader => if h : r + 1 < n then ⟨r + 1, h⟩ else r
  | .other => ⟨r - 1, (Nat.sub_le _ _).trans_lt r.isLt⟩

omit ht in
theorem neighborOf_leader {r : Fin n} (h : typeOf (singles n) r = .groupLeader) :
    (neighborOf n r : ℕ) = r + 1 ∧ typeOf (singles n) (neighborOf n r) = .other := by
  obtain ⟨hlt, hother⟩ := next_of_leader r.isLt h
  have heq : neighborOf n r = ⟨r + 1, hlt⟩ := by
    unfold neighborOf
    rw [h]
    exact dif_pos hlt
  rw [heq]
  exact ⟨rfl, hother⟩

omit ht in
theorem neighborOf_other {r : Fin n} (h : typeOf (singles n) r = .other) :
    (neighborOf n r : ℕ) = r - 1 ∧ typeOf (singles n) (neighborOf n r) = .groupLeader := by
  have heq : neighborOf n r = ⟨r - 1, (Nat.sub_le _ _).trans_lt r.isLt⟩ := by
    unfold neighborOf
    rw [h]
  rw [heq]
  exact ⟨rfl, (prev_of_other h).2⟩

omit ht in
theorem neighborOf_neighborOf (r : Fin n) : neighborOf n (neighborOf n r) = r := by
  apply Fin.ext
  cases h : typeOf (singles n) r with
  | normal =>
    have heq : neighborOf n r = r := by
      unfold neighborOf
      rw [h]
    rw [heq, heq]
  | groupLeader =>
    obtain ⟨hval, hother⟩ := neighborOf_leader h
    rw [(neighborOf_other hother).1, hval, Nat.add_sub_cancel]
  | other =>
    obtain ⟨hval, hleader⟩ := neighborOf_other h
    have := (prev_of_other h).1
    rw [(neighborOf_leader hleader).1, hval]
    omega

omit ht in
theorem collect_normal {r : Fin n} (h : typeOf (singles n) r = .normal) (K : ScatterState α → Program n α β) :
    collect (construct r n) inputSize R.reduce st >>= K = K st := by
  unfold collect
  rw [(told_construct r.isLt).type, h]
  rfl

omit ht in
theorem collect_other {r : Fin n} (h : typeOf (singles n) r = .other) (hin : st.input.length = inputSize)
    (K : ScatterState α → Program n α β) : collect (construct r n) inputSize R.reduce st >>= K =
      .send (neighborOf n r) st.input (K st) := by
  have htold := told_construct r.isLt
  have hlt : r - 1 < n := (Nat.sub_le _ _).trans_lt r.isLt
  have hneighbor : neighborOf n r = ⟨r - 1, hlt⟩ := Fin.ext (neighborOf_other h).1
  have hfetch : fetch st.input 0 inputSize = .ok st.input := by
    rw [fetch, if_pos (by omega), List.drop_zero, ← hin, List.take_length]
  unfold collect
  rw [htold.type, h]
  simp only [htold.neighbor_other h, hfetch, lift_ok, Proc.ret_bind, sendTo_bind hlt, hneighbor]
  rfl

omit ht in
theorem collect_leader {r : Fin n} (h : typeOf (singles n) r = .groupLeader)
    (K : ScatterState α → Program n α β) : collect (construct r n) inputSize R.reduce st >>= K =
      .recv (neighborOf n r) inputSize fun data => liftM (do
        let output ← memcpy st.output 0 data
        reduceInto R.reduce { st with output } 0 inputSize) >>= K := by
  have htold := told_construct r.isLt
  have hlt : r + 1 < n := (next_of_leader r.isLt h).1
  have hneighbor : neighborOf n r = ⟨r + 1, hlt⟩ := Fin.ext (neighborOf_leader h).1
  unfold collect
  rw [htold.type, h]
  simp only [htold.neighbor_leader h, recvFrom_bind hlt, hneighbor, lift_bind, Proc.recv_bind]

/-- The groups of two bring their data together, all at once. -/
theorem reachable_collect : ∃ st : Fin n → ScatterState α,
    (∀ r : Fin n, Scattered n R input inputSize blockLen (2 ^ levels n) r (st r)) ∧
    ∀ (T : Transport α) (K : Fin n → ScatterState α → Program n α β), Reachable step
      (quiet T fun r => collect (construct r n) inputSize R.reduce ⟨input r, output r⟩ >>= K r)
      (quiet T fun r => K r (st r)) := by
  choose st hst hleader hkeep using collect_spec ht
  refine ⟨st, hst, fun T K => ?_⟩
  set p : Fin n → Program n α β := fun r =>
    collect (construct r n) inputSize R.reduce ⟨input r, output r⟩ >>= K r
  set q : Fin n → Program n α β := fun r =>
    if typeOf (singles n) r = .other then K r ⟨input r, output r⟩ else p r with hq
  have hsend : ∀ r ∈ ({r | typeOf (singles n) r = .other} : Finset (Fin n)),
      p r = .send (neighborOf n r) (input r) (q r) := by
    intro r hr
    rw [Finset.mem_filter_univ] at hr
    rw [hq]
    dsimp only
    rw [if_pos hr]
    exact collect_other hr (ht.length_input r r.isLt) (K r)
  have hrecv : ∀ r ∈ ({r | typeOf (singles n) r = .groupLeader} : Finset (Fin n)),
      q r = .recv (neighborOf n r) inputSize fun data => liftM (do
        let output ← memcpy (output r) 0 data
        reduceInto R.reduce ⟨input r, output⟩ 0 inputSize) >>= K r := by
    intro r hr
    rw [Finset.mem_filter_univ] at hr
    exact (if_neg (by simp [hr])).trans (collect_leader hr (K r))
  refine exchange _ _ hsend (fun r hr => if_neg (by simpa using hr)) hrecv
    (fun r _ => (ht.length_input _ (neighborOf n r).isLt).symm)
    (fun r hr => ⟨?_, neighborOf_neighborOf r⟩) (fun r hr => ⟨?_, neighborOf_neighborOf r⟩)
    (fun r hr => ?_) (fun r hr => ?_)
  · rw [Finset.mem_filter_univ] at hr ⊢
    exact (neighborOf_leader hr).2
  · rw [Finset.mem_filter_univ] at hr ⊢
    exact (neighborOf_other hr).2
  · rw [Finset.mem_filter_univ] at hr
    rw [(neighborOf_leader hr).1, hleader r hr]
    rfl
  · rw [Finset.mem_filter_univ] at hr
    rw [hkeep r hr]
    cases htype : typeOf (singles n) r with
    | other => exact if_pos htype
    | normal => exact (if_neg (by simp [htype])).trans (collect_normal htype (K r))
    | groupLeader => exact absurd htype hr

end Collect

/-! ### The rounds -/

section Rounds

variable {d g i : ℕ} {r : Fin n}

/-- The bytes of a window. -/
def window (n : ℕ) (blockLen : ℕ → ℕ) (g d : ℕ) (l : List α) : List α :=
  (l.drop (windowStart n blockLen g d)).take (windowEnd n blockLen g d - windowStart n blockLen g d)

theorem length_window {l : List α} (h : windowEnd n blockLen g d ≤ l.length) :
    (window n blockLen g d l).length = windowEnd n blockLen g d - windowStart n blockLen g d := by
  rw [window, List.length_take, List.length_drop]
  omega

theorem row_window {l : List α} {w e : ℕ} (hq : windowStart n blockLen g d = q * w)
    (he : (e + 1) * w ≤ windowEnd n blockLen g d - windowStart n blockLen g d) :
    row w (window n blockLen g d l) e = row w l (q + e) := by
  rw [window, row_take he, hq, row_drop]

/-- The leader of the partner group. -/
def partnerOf (n d : ℕ) (r : Fin n) : Fin n :=
  if h : groupStart (singles n) (partner (groupOf (singles n) r) d) < n then ⟨_, h⟩ else r

section Partner

variable (hd : 0 < d) (hk : d * 2 ∣ 2 ^ levels n)
include hd hk

theorem partnerOf_val : (partnerOf n d r : ℕ) = groupStart (singles n) (partner (groupOf (singles n) r) d) := by
  rw [partnerOf, dif_pos (groupStart_lt r.pos (partner_lt hd hk (groupOf_lt r.pos r.isLt)))]

theorem groupOf_partnerOf : groupOf (singles n) (partnerOf n d r) = partner (groupOf (singles n) r) d := by
  rw [partnerOf_val hd hk, groupOf_groupStart]

theorem typeOf_partnerOf : typeOf (singles n) (partnerOf n d r) ≠ .other := by
  rw [partnerOf_val hd hk, typeOf_groupStart]
  split <;> simp

theorem partnerOf_partnerOf (h : typeOf (singles n) r ≠ .other) : partnerOf n d (partnerOf n d r) = r := by
  apply Fin.ext
  rw [partnerOf_val hd hk, groupOf_partnerOf hd hk, partner_partner hd, groupStart_groupOf h]

end Partner

variable (ht : Task n R input output inputSize blockStart blockLen)
include ht

theorem scatterRound_bind (hi : i < levels n) (hdi : d = 2 ^ (levels n - 1 - i))
    (htype : typeOf (singles n) r ≠ .other) (hin : st.input.length = inputSize)
    (K : ScatterState α → Program n α β) :
    scatterRound (construct r n) blockStart blockLen R.reduce st i >>= K =
      .send (partnerOf n d r) (window n blockLen (partner (groupOf (singles n) r) d) d st.input)
        (.recv (partnerOf n d r) (windowEnd n blockLen (groupOf (singles n) r) d -
          windowStart n blockLen (groupOf (singles n) r) d) fun data => liftM (do
            let output ← memcpy st.output 0 data
            reduceInto R.reduce { st with output } (windowStart n blockLen (groupOf (singles n) r) d)
              (windowEnd n blockLen (groupOf (singles n) r) d -
                windowStart n blockLen (groupOf (singles n) r) d)) >>= K) := by
  have htold := told_construct r.isLt
  have hd : 0 < d := hdi ▸ Nat.two_pow_pos _
  have hk : d * 2 ∣ 2 ^ levels n := hdi ▸ dvd_levels hi
  have hg := groupOf_lt r.pos r.isLt
  have hpg := partner_lt hd hk hg
  obtain ⟨hrs, hrl⟩ := htold.recv htype i hi d hdi _ rfl
  obtain ⟨hss, hsl⟩ := htold.send htype i hi d hdi _ rfl
  have hrank : (construct r n).ranks i = partnerOf n d r := by
    rw [htold.ranks htype i hi, ← hdi, partnerOf_val hd hk]
  have hsize : ∀ g, sumFrom blockLen (groupStart (singles n) (g / d * d))
      (groupStart (singles n) (g / d * d + d) - groupStart (singles n) (g / d * d)) =
        windowEnd n blockLen g d - windowStart n blockLen g d := by
    intro g
    rw [sumFrom_offset, Nat.add_sub_cancel' (groupStart_mono (Nat.le_add_right _ _))]
    rfl
  have hstart : ∀ g < 2 ^ levels n,
      blockStart (groupStart (singles n) (g / d * d)) = windowStart n blockLen g d := by
    intro g hg
    exact ht.layout.start _ (groupStart_lt r.pos ((Nat.div_mul_le_self g d).trans_lt hg))
  have hend := ht.windowEnd_le r.pos hd (dvd_of_mul_right_dvd hk) hpg
  have hfetch : fetch st.input (windowStart n blockLen (partner (groupOf (singles n) r) d) d)
      (windowEnd n blockLen (partner (groupOf (singles n) r) d) d -
        windowStart n blockLen (partner (groupOf (singles n) r) d) d) =
      .ok (window n blockLen (partner (groupOf (singles n) r) d) d st.input) := by
    refine fetch_eq ?_
    have hle : windowStart n blockLen (partner (groupOf (singles n) r) d) d ≤
        windowEnd n blockLen (partner (groupOf (singles n) r) d) d := windowStart_le
    omega
  simp only [scatterRound, hrs, hrl, hss, hsl, hsize, hstart _ hg, hstart _ hpg, hfetch, lift_ok, Proc.ret_bind,
    hrank, bind_assoc, sendRecv_bind (partnerOf n d r).isLt (partnerOf n d r).isLt, lift_bind, Proc.send_bind,
    Proc.recv_bind]

theorem Task.dvd_window (hg : g < 2 ^ levels n) (hn : 0 < n) (hd : 0 < d) (hk : d ∣ 2 ^ levels n) :
    R.width ∣ windowStart n blockLen g d ∧ R.width ∣ windowEnd n blockLen g d :=
  ⟨dvd_offset fun j hj => ht.aligned j (hj.trans (groupStart_lt hn ((Nat.div_mul_le_self g d).trans_lt hg))),
    dvd_offset fun j hj => ht.aligned j (hj.trans_le (groupStart_le hn (window_le hd hk hg)))⟩

/-- The buffers of a rank after a round. -/
theorem round_spec {st : Fin n → ScatterState α} (hd : 0 < d) (hk : d * 2 ∣ 2 ^ levels n)
    (h : ∀ r : Fin n, Scattered n R input inputSize blockLen (d * 2) r (st r)) (r : Fin n) :
    ∃ u, Scattered n R input inputSize blockLen d r u ∧
      (typeOf (singles n) r ≠ .other → (do
        let output ← memcpy (st r).output 0
          (window n blockLen (groupOf (singles n) r) d (st (partnerOf n d r)).input)
        reduceInto R.reduce { st r with output } (windowStart n blockLen (groupOf (singles n) r) d)
          (windowEnd n blockLen (groupOf (singles n) r) d -
            windowStart n blockLen (groupOf (singles n) r) d)) = .ok u) ∧
      (typeOf (singles n) r = .other → u = st r) := by
  by_cases htype : typeOf (singles n) r = .other
  · exact ⟨st r, ⟨(h r).length_input, (h r).length_output, fun hne => absurd htype hne⟩,
      fun hne => absurd htype hne, fun _ => rfl⟩
  have hg := groupOf_lt r.pos r.isLt
  have hpg := groupOf_partnerOf (r := r) hd hk
  set g := groupOf (singles n) r with hgdef
  set p := partnerOf n d r with hp
  have hk' : d ∣ 2 ^ levels n := dvd_of_mul_right_dvd hk
  have hend := ht.windowEnd_le r.pos hd hk' hg
  have hle : windowStart n blockLen g d ≤ windowEnd n blockLen g d := windowStart_le
  obtain ⟨hws, hwe⟩ := ht.dvd_window hg r.pos hd hk'
  obtain ⟨q, hq⟩ := hws
  rw [Nat.mul_comm] at hq
  have hlen : (window n blockLen g d (st p).input).length =
      windowEnd n blockLen g d - windowStart n blockLen g d :=
    length_window (hend.trans_eq (h p).length_input.symm)
  obtain ⟨u, hu, houtput, hinput, hrow⟩ := absorb_spec (st r) (window n blockLen g d (st p).input) (R := R) hq
    (hlen ▸ Nat.dvd_sub hwe (hq ▸ Nat.dvd_mul_left _ _)) (by rw [(h r).length_input]; omega)
    (by have := (h r).length_output; omega)
  rw [hlen] at hu hrow
  refine ⟨u, ⟨hinput.trans (h r).length_input, (h r).length_output.trans_eq houtput.symm,
    fun _ e hfirst hlast => ?_⟩, fun _ => hu, fun heq => absurd heq htype⟩
  rw [← hgdef] at hfirst hlast ⊢
  have hqe : q ≤ e := Nat.le_of_mul_le_mul_right (hq ▸ hfirst) R.width_pos
  obtain ⟨f, rfl⟩ := Nat.exists_eq_add_of_le hqe
  have hf : (f + 1) * R.width ≤ windowEnd n blockLen g d - windowStart n blockLen g d := by
    have hsplit : (q + f + 1) * R.width = q * R.width + (f + 1) * R.width := by ring
    omega
  have hmono : windowStart n blockLen g (d * 2) ≤ windowStart n blockLen g d ∧
      windowEnd n blockLen g d ≤ windowEnd n blockLen g (d * 2) := window_mono
  have hhalf : windowStart n blockLen (partner g d) (d * 2) = windowStart n blockLen g (d * 2) ∧
      windowEnd n blockLen (partner g d) (d * 2) = windowEnd n blockLen g (d * 2) := window_partner hd
  have hmine := (h r).holds htype (q + f) (by rw [← hgdef]; omega) (by rw [← hgdef]; omega)
  have htheirs := (h p).holds (typeOf_partnerOf hd hk) (q + f) (by rw [hpg]; omega) (by rw [hpg]; omega)
  rw [← hgdef] at hmine
  rw [hpg] at htheirs
  rw [hrow f hf, row_window hq hf, ← covered_union hd]
  exact htheirs.node hmine (covered_disjoint hd)

/-- A round of all groups at once. -/
theorem reachable_scatterRound {st : Fin n → ScatterState α} (hi : i < levels n)
    (hdi : d = 2 ^ (levels n - 1 - i))
    (h : ∀ r : Fin n, Scattered n R input inputSize blockLen (d * 2) r (st r)) :
    ∃ st' : Fin n → ScatterState α, (∀ r : Fin n, Scattered n R input inputSize blockLen d r (st' r)) ∧
      ∀ (T : Transport α) (K : Fin n → ScatterState α → Program n α β), Reachable step
        (quiet T fun r : Fin n => (if typeOf (singles n) r = .other then pure (st r)
          else scatterRound (construct r n) blockStart blockLen R.reduce (st r) i) >>= K r)
        (quiet T fun r => K r (st' r)) := by
  have hd : 0 < d := hdi ▸ Nat.two_pow_pos _
  have hk : d * 2 ∣ 2 ^ levels n := hdi ▸ dvd_levels hi
  choose st' hst hround hkeep using round_spec ht hd hk h
  refine ⟨st', hst, fun T K => ?_⟩
  have hmsg : ∀ r : Fin n, window n blockLen (partner (groupOf (singles n) (partnerOf n d r)) d) d
      (st (partnerOf n d r)).input =
        window n blockLen (groupOf (singles n) r) d (st (partnerOf n d r)).input := by
    intro r
    rw [groupOf_partnerOf hd hk, partner_partner hd]
  set p : Fin n → Program n α β := fun r : Fin n => (if typeOf (singles n) r = .other then pure (st r)
    else scatterRound (construct r n) blockStart blockLen R.reduce (st r) i) >>= K r
  have hproc : ∀ r ∈ ({r | typeOf (singles n) r ≠ .other} : Finset (Fin n)),
      p r = .send (partnerOf n d r) (window n blockLen (partner (groupOf (singles n) r) d) d (st r).input)
        (.recv (partnerOf n d r) (windowEnd n blockLen (groupOf (singles n) r) d -
          windowStart n blockLen (groupOf (singles n) r) d) fun data => liftM (do
            let output ← memcpy (st r).output 0 data
            reduceInto R.reduce { st r with output } (windowStart n blockLen (groupOf (singles n) r) d)
              (windowEnd n blockLen (groupOf (singles n) r) d -
                windowStart n blockLen (groupOf (singles n) r) d)) >>= K r) := by
    intro r hr
    rw [Finset.mem_filter_univ] at hr
    rw [← scatterRound_bind ht hi hdi hr (h r).length_input (K r)]
    exact congrArg (· >>= K r) (if_neg hr)
  refine exchange_on _ hproc (fun r _ => ?_) (fun r hr => ⟨?_, ?_⟩) (fun r hr => ⟨?_, ?_⟩) (fun r hr => ?_)
    (fun r hr => ?_)
  · rw [hmsg, length_window]
    exact (ht.windowEnd_le r.pos hd (dvd_of_mul_right_dvd hk) (groupOf_lt r.pos r.isLt)).trans_eq
      (h _).length_input.symm
  · exact (Finset.mem_filter_univ _).mpr (typeOf_partnerOf hd hk)
  · exact partnerOf_partnerOf hd hk (by simpa using hr)
  · exact (Finset.mem_filter_univ _).mpr (typeOf_partnerOf hd hk)
  · exact partnerOf_partnerOf hd hk (by simpa using hr)
  · rw [hmsg, hround r (by simpa using hr)]
    rfl
  · have htype : typeOf (singles n) r = .other := by simpa using hr
    rw [hkeep r htype]
    exact congrArg (· >>= K r) (if_pos htype)

/-- The rounds from the `i`-th on. -/
theorem reachable_scatterRounds {m : ℕ} (hm : i + m = levels n) {st : Fin n → ScatterState α}
    (h : ∀ r : Fin n, Scattered n R input inputSize blockLen (2 ^ (levels n - i)) r (st r)) :
    ∃ st' : Fin n → ScatterState α, (∀ r : Fin n, Scattered n R input inputSize blockLen 1 r (st' r)) ∧
      ∀ (T : Transport α) (K : Fin n → ScatterState α → Program n α β), Reachable step
        (quiet T fun r : Fin n => (if typeOf (singles n) r = .other then pure (st r)
          else (List.range' i m).foldlM (scatterRound (construct r n) blockStart blockLen R.reduce) (st r)) >>= K r)
        (quiet T fun r => K r (st' r)) := by
  induction m generalizing i st with
  | zero =>
    rw [← hm, Nat.add_zero, Nat.sub_self, pow_zero] at h
    refine ⟨st, h, fun T K => ?_⟩
    simp only [List.range'_zero, List.foldlM_nil, ite_self, Proc.pure_eq_ret, Proc.ret_bind]
    exact .refl
  | succ m ih =>
    have hdouble : 2 ^ (levels n - i) = 2 ^ (levels n - 1 - i) * 2 := by
      rw [← pow_succ]
      congr 1
      omega
    rw [hdouble] at h
    obtain ⟨st₁, h₁, hround⟩ := reachable_scatterRound (β := β) ht (by omega) rfl h
    have hnext : levels n - 1 - i = levels n - (i + 1) := by omega
    rw [hnext] at h₁
    obtain ⟨st₂, h₂, hrounds⟩ := ih (by omega) h₁
    refine ⟨st₂, h₂, fun T K => ?_⟩
    have hsplit : ∀ r : Fin n, (if typeOf (singles n) r = .other then pure (st r)
        else (List.range' i (m + 1)).foldlM (scatterRound (construct r n) blockStart blockLen R.reduce)
          (st r)) >>= K r =
        (if typeOf (singles n) r = .other then pure (st r)
          else scatterRound (construct r n) blockStart blockLen R.reduce (st r) i) >>= fun st =>
        (if typeOf (singles n) r = .other then pure st
          else (List.range' (i + 1) m).foldlM (scatterRound (construct r n) blockStart blockLen R.reduce)
            st) >>= K r := by
      intro r
      split
      · rfl
      · rw [List.range'_succ, List.foldlM_cons, bind_assoc]
    simp only [hsplit]
    exact (hround T _).trans (hrounds T K)

end Rounds

/-! ### The groups share their results -/

section Deliver

variable {r : Fin n} {j : ℕ}

theorem groupOf_window {m : ℕ} : groupStart m (groupOf m j) ≤ j ∧ j + 1 ≤ groupStart m (groupOf m j + 1) := by
  unfold groupStart groupOf
  split <;> omega

variable (ht : Task n R input output inputSize blockStart blockLen)
include ht

theorem Task.fetch_block {l : List α} (hl : l.length = inputSize) (hj : j < n) :
    fetch l (blockStart j) (blockLen j) = .ok (slice blockLen l j) := by
  have hle : offset blockLen (j + 1) ≤ offset blockLen n := offset_mono hj
  rw [offset_succ, ← ht.layout.all] at hle
  rw [ht.layout.start j hj]
  exact fetch_eq (hle.trans_eq hl.symm)

/-- A group of one window holds the blocks of its machines. -/
theorem block_spec (h : Scattered n R input inputSize blockLen 1 r st) (htype : typeOf (singles n) r ≠ .other)
    (hj : j < n) (hgroup : groupOf (singles n) j = groupOf (singles n) r) :
    slice blockLen st.input j = slice blockLen (R.total input (n - 1)) j := by
  have hpos := r.pos
  have hinput : ∀ r ≤ n - 1, (input r).length = inputSize := fun r hr => ht.length_input r (by omega)
  have htotal : (R.total input (n - 1)).length = inputSize := R.length_total hinput ht.dvd_inputSize
  have hslice : ∀ {l : List α}, l.length = inputSize → (slice blockLen l j).length = blockLen j :=
    fun hl => length_slice (hl.trans ht.layout.all) hj
  obtain ⟨q, hq⟩ := dvd_offset fun i hi => ht.aligned i (hi.trans hj)
  rw [Nat.mul_comm] at hq
  have hle : offset blockLen (j + 1) ≤ offset blockLen n := offset_mono hj
  have hwindow := groupOf_window (j := j) (m := singles n)
  rw [hgroup] at hwindow
  have hstart : windowStart n blockLen (groupOf (singles n) r) 1 ≤ offset blockLen j := by
    rw [windowStart, Nat.div_one, Nat.mul_one]
    exact offset_mono hwindow.1
  have hend : offset blockLen (j + 1) ≤ windowEnd n blockLen (groupOf (singles n) r) 1 := by
    rw [windowEnd, Nat.div_one, Nat.mul_one]
    exact offset_mono hwindow.2
  rw [offset_succ] at hle hend
  refine eq_of_row_eq R.width_pos ((hslice h.length_input).trans (hslice htotal).symm)
    ((hslice htotal).symm ▸ ht.aligned j hj) fun e he => ?_
  rw [hslice htotal] at he
  have hsum : (q + e + 1) * R.width = q * R.width + (e + 1) * R.width := by ring
  have hrow : ∀ l : List α, row R.width (slice blockLen l j) e = row R.width l (q + e) := by
    intro l
    rw [slice, row_take he, hq, row_drop]
  have hfirst : q * R.width ≤ (q + e) * R.width := Nat.mul_le_mul_right _ (Nat.le_add_right q e)
  have hcombined := h.holds htype (q + e) (by omega) (by omega)
  rw [covered_one] at hcombined
  rw [hrow, hrow]
  refine R.eq_row_total hinput ht.dvd_inputSize (by have := ht.layout.all; omega) ?_
  rwa [Nat.sub_add_cancel hpos]

/-- The rank's own block of its input, as it is copied to the output. -/
theorem copyBlock_eq {r : Fin n} (hin : st.input.length = inputSize) (hout : inputSize ≤ st.output.length) :
    copyBlock r blockStart blockLen st = .ok { st with
      output := slice blockLen st.input r ++ st.output.drop (blockLen r) } := by
  have hle : offset blockLen (r + 1) ≤ offset blockLen n := offset_mono r.isLt
  rw [offset_succ, ← ht.layout.all] at hle
  have hlen : (slice blockLen st.input r).length = blockLen r :=
    length_slice (hin.trans ht.layout.all) r.isLt
  have hcopy := memcpy_append (l := []) (n := 0) rfl (show (slice blockLen st.input r).length ≤ st.output.length by omega)
  rw [List.nil_append, List.nil_append, hlen] at hcopy
  rw [copyBlock, ht.fetch_block hin r.isLt, ok_bind, hcopy]
  rfl

omit ht in
theorem deliver_normal (htype : typeOf (singles n) r = .normal) (K : ScatterState α → Program n α β) :
    deliver r (construct r n) blockStart blockLen st >>= K = liftM (copyBlock r blockStart blockLen st) >>= K := by
  unfold deliver
  rw [(told_construct r.isLt).type, htype]

theorem deliver_leader (htype : typeOf (singles n) r = .groupLeader) (hin : st.input.length = inputSize)
    (K : ScatterState α → Program n α β) : deliver r (construct r n) blockStart blockLen st >>= K =
      .send (neighborOf n r) (slice blockLen st.input (neighborOf n r))
        (liftM (copyBlock r blockStart blockLen st) >>= K) := by
  have htold := told_construct r.isLt
  have hlt : r + 1 < n := (next_of_leader r.isLt htype).1
  have hneighbor : neighborOf n r = ⟨r + 1, hlt⟩ := Fin.ext (neighborOf_leader htype).1
  unfold deliver
  rw [htold.type, htype]
  simp only [htold.neighbor_leader htype, ht.fetch_block hin hlt, lift_ok, Proc.ret_bind, sendTo_bind hlt,
    hneighbor]
  rfl

omit ht in
theorem deliver_other (htype : typeOf (singles n) r = .other) (K : ScatterState α → Program n α β) :
    deliver r (construct r n) blockStart blockLen st >>= K =
      .recv (neighborOf n r) (blockLen r) fun data => liftM (memcpy st.output 0 data) >>= fun output =>
        K { st with output } := by
  have htold := told_construct r.isLt
  have hlt : r - 1 < n := (Nat.sub_le _ _).trans_lt r.isLt
  have hneighbor : neighborOf n r = ⟨r - 1, hlt⟩ := Fin.ext (neighborOf_other htype).1
  unfold deliver
  rw [htold.type, htype]
  simp only [htold.neighbor_other htype, recvFrom_bind hlt, hneighbor, Proc.recv_bind, bind_assoc]
  rfl

/-- Every rank gets its block of the reduction. -/
theorem reachable_deliver {st : Fin n → ScatterState α}
    (h : ∀ r : Fin n, Scattered n R input inputSize blockLen 1 r (st r))
    (K : Fin n → ScatterState α → Program n α β) : Reachable step
      (quiet T fun r => deliver r (construct r n) blockStart blockLen (st r) >>= K r)
      (quiet T fun r => K r { st r with
        output := slice blockLen (R.total input (n - 1)) r ++ (st r).output.drop (blockLen r) }) := by
  have hcopy : ∀ r : Fin n, typeOf (singles n) r ≠ .other → liftM (copyBlock r blockStart blockLen (st r)) >>= K r =
      K r { st r with output := slice blockLen (R.total input (n - 1)) r ++ (st r).output.drop (blockLen r) } := by
    intro r hr
    rw [copyBlock_eq ht (h r).length_input (h r).length_output, block_spec ht (h r) hr r.isLt rfl]
    rfl
  set p : Fin n → Program n α β := fun r => deliver r (construct r n) blockStart blockLen (st r) >>= K r
  set q : Fin n → Program n α β := fun r => if typeOf (singles n) r = .groupLeader then
    K r { st r with output := slice blockLen (R.total input (n - 1)) r ++ (st r).output.drop (blockLen r) }
    else p r with hq
  have hsend : ∀ r ∈ ({r | typeOf (singles n) r = .groupLeader} : Finset (Fin n)),
      p r = .send (neighborOf n r) (slice blockLen (st r).input (neighborOf n r)) (q r) := by
    intro r hr
    rw [Finset.mem_filter_univ] at hr
    rw [hq]
    dsimp only
    rw [if_pos hr, ← hcopy r (by simp [hr])]
    exact deliver_leader ht hr (h r).length_input (K r)
  have hrecv : ∀ r ∈ ({r | typeOf (singles n) r = .other} : Finset (Fin n)),
      q r = .recv (neighborOf n r) (blockLen r) fun data => liftM (memcpy (st r).output 0 data) >>= fun output =>
        K r { st r with output } := by
    intro r hr
    rw [Finset.mem_filter_univ] at hr
    exact (if_neg (by simp [hr])).trans (deliver_other hr (K r))
  have hlen : ∀ r : Fin n, (slice blockLen (st (neighborOf n r)).input r).length = blockLen r := fun r =>
    length_slice ((h _).length_input.trans ht.layout.all) r.isLt
  refine exchange _ _ hsend (fun r hr => if_neg (by simpa using hr)) hrecv (fun r _ => ?_)
    (fun r hr => ⟨?_, neighborOf_neighborOf r⟩) (fun r hr => ⟨?_, neighborOf_neighborOf r⟩)
    (fun r hr => ?_) (fun r hr => ?_)
  · rw [neighborOf_neighborOf, hlen]
  · rw [Finset.mem_filter_univ] at hr ⊢
    exact (neighborOf_other hr).2
  · rw [Finset.mem_filter_univ] at hr ⊢
    exact (neighborOf_leader hr).2
  · rw [Finset.mem_filter_univ] at hr
    obtain ⟨hval, hleader⟩ := neighborOf_other hr
    have hpos := (prev_of_other hr).1
    have hgroup : groupOf (singles n) r = groupOf (singles n) (neighborOf n r) :=
      (groupOf_eq_leader hleader).mpr (.inl (by omega))
    have hle : offset blockLen (r + 1) ≤ offset blockLen n := offset_mono r.isLt
    rw [offset_succ, ← ht.layout.all] at hle
    have hroom : (slice blockLen (st (neighborOf n r)).input r).length ≤ (st r).output.length := by
      have := (h r).length_output
      rw [hlen]
      omega
    have hmem := memcpy_append (l := []) (n := 0) rfl hroom
    rw [List.nil_append, List.nil_append, hlen] at hmem
    dsimp only
    rw [neighborOf_neighborOf, hmem, block_spec ht (h _) (by simp [hleader]) r.isLt hgroup]
    rfl
  · rw [Finset.mem_filter_univ] at hr
    cases htype : typeOf (singles n) r with
    | other => exact absurd htype hr
    | normal => exact ((if_neg (by simp [htype])).trans (deliver_normal htype (K r))).trans (hcopy r (by simp [htype]))
    | groupLeader => exact if_pos htype

end Deliver

section Main

variable (ht : Task n R input output inputSize blockStart blockLen)
include ht

omit ht in
/-- The test for a power of two only leaves out what does nothing then. -/
theorem reduceScatter_bind {r : Fin n} {data out : List α} (K : ScatterState α → Program n α β) :
    reduceScatter r data inputSize blockStart blockLen out R.reduce >>= K =
      collect (construct r n) inputSize R.reduce ⟨data, out⟩ >>= fun st =>
      (if typeOf (singles n) r = .other then pure st
        else (List.range' 0 (levels n)).foldlM (scatterRound (construct r n) blockStart blockLen R.reduce) st) >>=
      fun st => deliver r (construct r n) blockStart blockLen st >>= K := by
  have htold := told_construct r.isLt
  by_cases hpow : n &&& (n - 1) = 0
  · have hnormal : typeOf (singles n) r = .normal := by
      rw [singles_of_and_eq_zero r.pos hpow]
      exact if_pos r.isLt
    simp only [collect_normal hnormal, deliver_normal hnormal]
    simp only [reduceScatter, hpow, if_true, htold.type, htold.k_eq, hnormal, bind_assoc, Proc.pure_eq_ret,
      Proc.ret_bind, List.range_eq_range', reduceCtorEq, if_false]
  · simp only [reduceScatter, hpow, if_false, htold.type, htold.k_eq, bind_assoc, List.range_eq_range']
    refine congrArg _ (funext fun st => ?_)
    split
    · rfl
    · rw [bind_assoc]

/-- All ranks together run ReduceScatter to its end. -/
theorem reachable_reduceScatter : ∃ st : Fin n → ScatterState α,
    (∀ r : Fin n, inputSize ≤ (st r).output.length ∧
      (st r).output.take (blockLen r) = slice blockLen (R.total input (n - 1)) r) ∧
    ∀ (T : Transport α) (K : Fin n → ScatterState α → Program n α β), Reachable step
      (quiet T fun r => reduceScatter r (input r) inputSize blockStart blockLen (output r) R.reduce >>= K r)
      (quiet T fun r => K r (st r)) := by
  obtain ⟨st₁, h₁, hcollect⟩ := reachable_collect (β := β) ht
  obtain ⟨st₂, h₂, hrounds⟩ := reachable_scatterRounds (β := β) ht (Nat.zero_add (levels n)) h₁
  refine ⟨fun r => { st₂ r with
    output := slice blockLen (R.total input (n - 1)) r ++ (st₂ r).output.drop (blockLen r) }, fun r => ?_,
    fun T K => ?_⟩
  · have hpos := r.pos
    have hinput : ∀ r ≤ n - 1, (input r).length = inputSize := fun i hi => ht.length_input i (by omega)
    have htotal := R.length_total hinput ht.dvd_inputSize
    have hlen := length_slice (htotal.trans ht.layout.all) r.isLt
    have hle : offset blockLen (r + 1) ≤ offset blockLen n := offset_mono r.isLt
    rw [offset_succ, ← ht.layout.all] at hle
    have hout := (h₂ r).length_output
    dsimp only
    refine ⟨?_, List.take_left' hlen⟩
    rw [List.length_append, List.length_drop, hlen]
    omega
  · simp only [reduceScatter_bind]
    exact (hcollect T _).trans ((hrounds T _).trans (reachable_deliver ht h₂ K))

omit ht in
/-- Whatever the transport and the order of the steps, every rank ends with its block of the reduction of
all inputs, and every message has the size its receiver waits for. -/
theorem reduceScatter_block {count : ℕ → ℕ} (hL : Layout n blockStart (fun j => count j * R.width) inputSize)
    (hin : ∀ r < n, (input r).length = inputSize) (hout : ∀ r, inputSize ≤ (output r).length) :
    ∃ st : Fin n → ScatterState α,
      Completes (fun r => reduceScatter r (input r) inputSize blockStart (fun j => count j * R.width) (output r)
        R.reduce) st ∧
      (∀ r : Fin n, (st r).output.take (count r * R.width) =
        slice (fun j => count j * R.width) (R.total input (n - 1)) r) ∧
      ∀ c, Reachable step (quiet (.packets α) fun r => reduceScatter r (input r) inputSize blockStart
        (fun j => count j * R.width) (output r) R.reduce) c → Matched c := by
  have ht : Task n R input output inputSize blockStart fun j => count j * R.width :=
    ⟨hL, fun j _ => Nat.dvd_mul_left _ _, hin, hout⟩
  obtain ⟨st, hst, hreach⟩ := reachable_reduceScatter (β := ScatterState α) ht
  have hcompletes : Completes (fun r => reduceScatter r (input r) inputSize blockStart
      (fun j => count j * R.width) (output r) R.reduce) st := by
    apply completes_of_reachable
    intro T
    have := hreach T fun _ => .ret
    simpa only [Proc.bind_ret] using this
  exact ⟨st, hcompletes, fun r => (hst r).2, fun c hc => hcompletes.matched hc⟩

end Main

/-- The sum of numbers. -/
def sumReducer : Reducer ℕ where
  width := 1
  width_pos := Nat.one_pos
  op a b := List.zipWith (· + ·) a b
  length_op a b ha hb := by rw [List.length_zipWith, ha, hb]; rfl
  comm a b _ _ := List.zipWith_comm_of_comm Nat.add_comm
  assoc a b c ha hb hc := by
    obtain ⟨x, rfl⟩ := List.length_eq_one_iff.mp ha
    obtain ⟨y, rfl⟩ := List.length_eq_one_iff.mp hb
    obtain ⟨z, rfl⟩ := List.length_eq_one_iff.mp hc
    simp [Nat.add_assoc]

/-- Three ranks, of which the last two form a group and one has an empty block. -/
theorem reduceScatter_block_three :
    let count : ℕ → ℕ := fun i => if i = 0 then 1 else if i = 1 then 0 else 2
    let len : ℕ → ℕ := fun i => count i * sumReducer.width
    let input : ℕ → List ℕ := fun r => [r, r + 1, r + 2]
    let program := fun r : Fin 3 => reduceScatter r (input r) 3 (offset len) len [9, 9, 9] sumReducer.reduce
    ∃ st : Fin 3 → ScatterState ℕ, Completes program st ∧ (st 0).output.take 1 = [3] ∧
      (st 1).output.take 0 = [] ∧ (st 2).output.take 2 = [6, 9] := by
  intro count len input program
  obtain ⟨st, hst, hblock, -⟩ := @reduceScatter_block ℕ 3 sumReducer input (fun _ => [9, 9, 9]) 3 (offset len)
    count ⟨fun _ _ => rfl, rfl⟩ (fun _ _ => rfl) (fun _ => le_rfl)
  have htotal : ∀ r : Fin 3, slice len (sumReducer.total input 2) r =
      [[3], [], [6, 9]].getD r [] := by decide +kernel
  exact ⟨st, hst, (hblock 0).trans (htotal 0), (hblock 1).trans (htotal 1), (hblock 2).trans (htotal 2)⟩

end Hpps.Net

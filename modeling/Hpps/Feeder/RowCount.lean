import Hpps.Feeder.Assemble

/-! Whether the rows that the writer of a record counts are the rows that the feeder finds. -/
namespace Hpps.Feeder

open Bytes Split RecordIo Reader TransitionSystem Chunks

variable {g : ℕ → ℕ} {limit batchSize : ℕ} {buf : List UInt8} {items tensorMeta : List (Name × ItemConfig)}
  {samples : List Sample} {w r : RecordIo} {t t' : Task Reader}

/-- The task of a record whose header was read. -/
def newTask (r : RecordIo) : Task Reader := ⟨0, 0, r.sampleCount, ⟨r, []⟩⟩

/-- A call of ProduceBatch with the task. The task is gone when there is no full batch left. -/
def produceBatch (g : ℕ → ℕ) (batchSize : ℕ) (task : Task Reader) (_ : Unit) : Option (Task Reader) :=
  if task.curr + batchSize ≤ task.sampleCount then
    (readBatchTensor g batchSize task.recordIo).toOption.map fun p =>
      { task with curr := task.curr + batchSize, recordIo := p.2 }
  else none

/-- ReadBatchTensor returns just the rows of one batch in each primary column. -/
def ReadsFullBatch (g : ℕ → ℕ) (batchSize : ℕ) (r : Reader) : Prop :=
  ∃ batchTensor r', readBatchTensor g batchSize r = .ok (batchTensor, r') ∧
    ∀ i : Primary (r.recordIo.items.map Prod.snd), (batchTensor.map fun tensors => dims tensors i).sum = batchSize

/-- There is a primary column, and wherever a batch ends by the writer's count, all primary columns have come to the
same place of the file: the end of a sample, or the same row of a sample that can be cut there. The samples up to there
are read as they were written. -/
structure CountedAlike (tensorMeta : List (Name × ItemConfig)) (batchSize : ℕ) (samples : List Sample) : Prop where
  count : tensorMeta.length < 2 ^ 16
  primary : ∃ item ∈ tensorMeta, IsPrimary item.2 = true
  boundaries : ∃ read unread items, samples = read ++ unread ∧ (∀ sample ∈ read, FitSample tensorMeta sample) ∧
    read.mapM (columnsOf tensorMeta) = .ok items ∧
    ∀ k, 0 < k → k * batchSize ≤ totalRows tensorMeta samples % 2 ^ 64 →
      Reaches (dims : List Column → Primary (tensorMeta.map Prod.snd) → ℕ) CutsAt items fun _ => k * batchSize

/-- All batches that are still to come end where the batches in the file can be cut. -/
structure Counted (items : List (Name × ItemConfig)) (batchSize : ℕ) (t : Task Reader) : Prop where
  reader : ∃ xs, Holds items xs t.recordIo ∧ (∀ x ∈ xs, Fit (items.map Prod.snd) x) ∧
    ∀ k, 0 < k → t.curr + k * batchSize ≤ t.sampleCount →
      Reaches (dims : List Column → Primary (items.map Prod.snd) → ℕ) CutsAt xs fun _ => k * batchSize

theorem Counted.reads (h : Counted items batchSize t) (hp : ∃ config ∈ items.map Prod.snd, IsPrimary config = true)
    (hfull : t.curr + batchSize ≤ t.sampleCount) : ∃ batchTensor r',
      readBatchTensor g batchSize t.recordIo = .ok (batchTensor, r') ∧
      (∀ i : Primary (items.map Prod.snd), (batchTensor.map fun tensors => dims tensors i).sum = batchSize) ∧
      Counted items batchSize { t with curr := t.curr + batchSize, recordIo := r' } := by
  obtain ⟨xs, hr, hxs, hreach⟩ := h.reader
  obtain ⟨ys, last, rest, ht⟩ := hreach 1 one_pos (by omega)
  rw [one_mul] at ht
  obtain ⟨out, r', xs', hread, hr', hreturns⟩ := readBatchTensor_takes (g := g) hp ht hxs hr
  obtain ⟨hsum, hleft, hxs'⟩ := hreturns.rows ht hxs
  refine ⟨out, r', hread, hsum, xs', hr', hxs', fun k hk hle => ?_⟩
  have : Nonempty (Primary (items.map Prod.snd)) := ⟨firstPrimary hp⟩
  dsimp only at hle
  have hnext := hreach (k + 1) (Nat.succ_pos k) (by rw [Nat.succ_mul]; omega)
  simp only [Nat.succ_mul, Nat.add_comm (k * batchSize)] at hnext
  exact ht.reaches (fun x hx i => Fit.dims_pos (hxs x hx) i) hnext hleft

theorem Counted.step (h : Counted items batchSize t) (hp : ∃ config ∈ items.map Prod.snd, IsPrimary config = true)
    (hs : produceBatch g batchSize t () = some t') : Counted items batchSize t' := by
  unfold produceBatch at hs
  split at hs
  · rename_i hfull
    obtain ⟨batchTensor, r', hread, -, hnext⟩ := h.reads (g := g) hp hfull
    rw [hread] at hs
    cases hs
    exact hnext
  · cases hs

/-- What is known of the task of a record when its header was read. -/
theorem counted_newTask (hbuf : buf.length = kTensorNameLen) (hw : record limit buf tensorMeta samples = .ok w)
    (h : CountedAlike tensorMeta batchSize samples) : ∃ r, readHeader (opened w.stream.buf) = .ok r ∧
      r.items.map Prod.snd = tensorMeta.map Prod.snd ∧ Counted r.items batchSize (newTask r) := by
  obtain ⟨read, unread, xs, rfl, hfit, hxs, hreach⟩ := h.boundaries
  obtain ⟨r, hr, hitems, hcount, hprovides, hxs⟩ := record_provides hbuf hw h.count hfit hxs
  refine ⟨r, hr, hitems, xs, ⟨rfl, Nat.zero_le _, xs, hprovides, rfl⟩, fun x hx => ?_, fun k hk hle => ?_⟩
  · rw [hitems]
    exact hxs x hx
  · rw [newTask, Nat.zero_add, hcount] at hle
    rw [hitems]
    exact hreach k hk hle

/-- Whenever sample_count says that a full batch is left, ReadBatchTensor finds it. -/
theorem full_batches_found (hbuf : buf.length = kTensorNameLen) (hw : record limit buf tensorMeta samples = .ok w)
    (h : batchSize ≤ totalRows tensorMeta samples % 2 ^ 64 → CountedAlike tensorMeta batchSize samples) :
    ∃ r, readHeader (opened w.stream.buf) = .ok r ∧ ∀ t, Reachable (produceBatch g batchSize) (newTask r) t →
      t.curr + batchSize ≤ t.sampleCount → ReadsFullBatch g batchSize t.recordIo := by
  by_cases hfull : batchSize ≤ totalRows tensorMeta samples % 2 ^ 64
  · obtain ⟨r, hr, hitems, hcounted⟩ := counted_newTask hbuf hw (h hfull)
    obtain ⟨item, hitem, hprimary⟩ := (h hfull).primary
    have hp : ∃ config ∈ r.items.map Prod.snd, IsPrimary config = true := by
      rw [hitems]
      exact ⟨item.2, List.mem_map_of_mem hitem, hprimary⟩
    refine ⟨r, hr, fun t ht hle => ?_⟩
    have hinv := ht.invariant (P := fun t => Counted r.items batchSize t) hcounted fun t a t' ht hs => ht.step hp hs
    obtain ⟨batchTensor, r', hread, hsum, -⟩ := hinv.reads (g := g) hp hle
    obtain ⟨xs, hholds, -⟩ := hinv.reader
    refine ⟨batchTensor, r', hread, ?_⟩
    rw [hholds.same]
    exact hsum
  · obtain ⟨-, items, -, hshort, hbytes⟩ := record_stored hbuf hw
    obtain ⟨r, hr, hcount, -⟩ := readHeader_take (samplesImage tensorMeta samples) hbuf
      (show totalRows tensorMeta samples % 2 ^ 64 < 2 ^ 64 from Nat.mod_lt _ (by norm_num)) hshort
    rw [← hbytes] at hr
    refine ⟨r, hr, fun t ht hle => ?_⟩
    have hinv := ht.invariant (P := fun t => t.sampleCount < batchSize) (show r.sampleCount < batchSize by omega)
      fun t a t' hlt hs => by
        have hlt : t.sampleCount < batchSize := hlt
        rw [produceBatch, if_neg (by omega)] at hs
        cases hs
    omega

/-- Batches of one row, of a sample of two rows. -/
theorem countedAlike_twoFloats : CountedAlike oneItem 1 [twoFloats] := by
  have hfit : FitSample oneItem twoFloats := fun item hitem => by
    obtain ⟨t, ht, hgood⟩ := goodSample_twoFloats item hitem
    exact ⟨t, ht, hgood.fits⟩
  obtain ⟨item, hcolumns, hlen, hspec⟩ := columnsOf_spec hfit
  obtain ⟨c, rfl⟩ := List.length_eq_one_iff.mp hlen
  obtain ⟨hconfig, -, hshape, hsize, hblob, hpos, -⟩ := hspec 0 _ c rfl rfl
  have hrows : HasRows 2 c.tensor := ⟨⟨[1], hshape⟩, hpos, hsize, by rw [hsize, hblob]⟩
  refine ⟨by decide, ⟨_, List.mem_singleton_self _, by decide⟩, [twoFloats], [], [[c]], rfl, ?_, ?_, fun k hk hle => ?_⟩
  · simpa using hfit
  · rw [List.mapM_cons, hcolumns]
    rfl
  · have htotal : totalRows oneItem [twoFloats] % 2 ^ 64 = 2 := by decide
    rw [htotal, mul_one] at hle
    rw [mul_one]
    refine reaches_of_uniform (m := fun _ => 2) ?_ ?_ hle
    · rw [List.forall_mem_singleton]
      rintro ⟨i, config, hi, hp⟩
      obtain rfl : i = 0 := by
        have := (List.getElem?_eq_some_iff.mp hi).1
        rw [List.length_map] at this
        exact Nat.lt_one_iff.mp this
      exact dim_of_hasRows rfl hrows
    · rw [List.forall_mem_singleton]
      intro x hx hlt
      refine ⟨.inl ?_, ?_⟩
      · rw [List.forall_mem_singleton, hconfig]
        exact ⟨by decide, rfl⟩
      · rw [List.forall_mem_singleton, hconfig]
        exact fun _ => ⟨2, hrows, .inl ⟨rfl, hlt⟩⟩

theorem full_batches_found_two : ∃ w r, record 1000 (List.replicate 32 7) oneItem [twoFloats] = .ok w ∧
    readHeader (opened w.stream.buf) = .ok r ∧ ∀ t, Reachable (produceBatch id 1) (newTask r) t →
      t.curr + 1 ≤ t.sampleCount → ReadsFullBatch id 1 t.recordIo := by
  have hbuf : (List.replicate 32 (7 : UInt8)).length = kTensorNameLen := List.length_replicate
  have hnames : ∀ item ∈ oneItem, GoodName item.1 := by
    intro item hitem
    obtain rfl := List.mem_singleton.mp hitem
    exact ⟨by decide, by decide, by decide⟩
  have hsamples : ∀ sample ∈ [twoFloats], GoodSample oneItem sample := by simp [goodSample_twoFloats]
  have hw := @record_eq 1000 _ _ _ hbuf hnames fun sample hsample => (hsamples sample hsample).complete
  rw [length_recordImage_eq hbuf hnames, if_pos (by decide)] at hw
  obtain ⟨r, hr, hfull⟩ := full_batches_found (g := id) hbuf hw fun _ => countedAlike_twoFloats
  exact ⟨_, r, hw, hr, hfull⟩

/-- Two primary columns. -/
def twoPrimaries : List (Name × ItemConfig) := [([120], ⟨0, 0, 0⟩), ([121], ⟨0, 0, 0⟩)]

/-- One row of `x` and two of `y`. -/
def unequalSample : Sample := fun name =>
  if name = [120] then some ⟨0, [1], [7, 0, 0, 0]⟩ else some ⟨0, [2], [8, 0, 0, 0, 9, 0, 0, 0]⟩

theorem goodSample_unequal : GoodSample twoPrimaries unequalSample := by
  intro item hitem
  rcases List.mem_pair.mp hitem with rfl | rfl
  · exact ⟨_, rfl, rfl, by decide, by decide, by decide, rfl⟩
  · exact ⟨_, rfl, rfl, by decide, by decide, by decide, rfl⟩

/-- The writer counts two rows, by the second column, and the reader finds one, in the first. -/
theorem rows_counted_apart : ¬ ∀ (g : ℕ → ℕ) (limit batchSize : ℕ) (buf : List UInt8)
    (tensorMeta : List (Name × ItemConfig)) (samples : List Sample) (w : RecordIo), 0 < batchSize →
    buf.length = kTensorNameLen → record limit buf tensorMeta samples = .ok w →
    ∃ r, readHeader (opened w.stream.buf) = .ok r ∧ ∀ t, Reachable (produceBatch g batchSize) (newTask r) t →
      t.curr + batchSize ≤ t.sampleCount → ReadsFullBatch g batchSize t.recordIo := by
  intro hall
  have hbuf : (List.replicate 32 (7 : UInt8)).length = kTensorNameLen := List.length_replicate
  have hnames : ∀ item ∈ twoPrimaries, GoodName item.1 := by
    intro item hitem
    rcases List.mem_pair.mp hitem with rfl | rfl <;> exact ⟨by decide, by decide, by decide⟩
  have hsamples : ∀ sample ∈ [unequalSample], GoodSample twoPrimaries sample := by
    simp [goodSample_unequal]
  have hw := @record_eq 1000 _ _ _ hbuf hnames fun sample hsample => (hsamples sample hsample).complete
  rw [length_recordImage_eq hbuf hnames, if_pos (by decide)] at hw
  obtain ⟨r, hr, hfull⟩ := hall id 1000 2 _ _ _ _ two_pos hbuf hw
  rw [recordImage, reads_header _ hbuf (by decide) (by decide) hnames] at hr
  cases hr
  obtain ⟨batchTensor, r', hread, -⟩ := hfull _ .refl (by decide)
  have hfit : FitSample twoPrimaries unequalSample := fun item hitem => by
    obtain ⟨t, ht, hgood⟩ := goodSample_unequal item hitem
    exact ⟨t, ht, hgood.fits⟩
  obtain ⟨item, hcolumns, hlen, hspec⟩ := columnsOf_spec hfit
  have hone : currBatchSize item = .ok 1 := by
    obtain ⟨x, y, rfl⟩ := List.length_eq_two.mp hlen
    obtain ⟨hconfig, -, hshape, -⟩ := hspec 0 _ x rfl rfl
    rw [currBatchSize, List.find?_cons_of_pos (by rw [hconfig]; rfl)]
    dsimp only
    rw [hshape]
    rfl
  have hreads := reads_columns (rfl : twoPrimaries.map Prod.snd = _) (by decide) hfit hcolumns
    (headerImage (List.replicate 32 7) twoPrimaries 2) []
  rw [List.append_nil] at hreads
  have hout : ∀ rounds, collectItems rounds 2 ⟨⟨⟨headerImage (List.replicate 32 7) twoPrimaries 2 ++
      sampleImage twoPrimaries unequalSample, (headerImage (List.replicate 32 7) twoPrimaries 2).length⟩, 2, twoPrimaries,
      ⟨UInt32.ofNat HPPS_VERSION⟩⟩, []⟩ = .error .memory :=
    collectItems_runsOut (f := fun _ => 1) (.cons hreads (.nil (readColumns_end (by simp)))) (by simpa using hone)
      (by simp) rfl rfl rfl
  have himage : samplesImage twoPrimaries [unequalSample] = sampleImage twoPrimaries unequalSample := by
    rw [samplesImage, List.flatMap_singleton]
  have htotal : totalRows twoPrimaries [unequalSample] % 2 ^ 64 = 2 := by decide
  simp only [newTask, himage, htotal] at hread
  rw [readBatchTensor, hout] at hread
  cases hread

end Hpps.Feeder

import Hpps.Feeder.RecordIo

/-! `Batch`: the tensors of a record's columns, addressed by the names that its header was read with. -/
namespace Hpps.Feeder

open Bytes

/-- `index_`, `tensors_` and `names_`. -/
structure Batch (τ : Type) where
  index : Name → Option ℤ
  tensors : List (Option τ)
  names : List Name

namespace Batch

variable {τ : Type} {names : List Name} {name : Name} {i : ℕ} {k : ℤ} {t : τ}

/-- A name that stands in the list twice has the place of the last. -/
def new (names : List Name) : Batch τ where
  index := names.zipIdx.foldl (fun index p => Function.update index p.1 (some (p.2 : ℤ))) fun _ => none
  tensors := List.replicate names.length none
  names := names

/-- `Get(int)`. -/
def getAt (b : Batch τ) (index : ℤ) : Except Stop (Option τ) :=
  if 0 ≤ index ∧ index < b.tensors.length then .ok (b.tensors.getD index.toNat none) else .error .check

/-- `Get(const std::string&)`, a null pointer for a key that is not found. -/
def get (b : Batch τ) (key : Name) : Except Stop (Option τ) :=
  match b.index key with
  | none => .ok none
  | some index => b.getAt index

def set (b : Batch τ) (index : ℤ) (tensor : Option τ) : Except Stop (Batch τ) :=
  if 0 ≤ index ∧ index < b.tensors.length then .ok { b with tensors := b.tensors.set index.toNat tensor }
  else .error .check

theorem getAt_set {b b' : Batch τ} {u : Option τ} {j : ℕ} (h : b.set i u = .ok b') :
    b'.getAt i = .ok u ∧ (j ≠ i → b'.getAt j = b.getAt j) := by
  unfold set at h
  split at h
  · rename_i hi
    cases h
    constructor
    · rw [getAt, List.length_set, if_pos hi, Int.toNat_natCast, List.getD_eq_getElem?_getD,
        List.getElem?_set_self (by omega), Option.getD_some]
    · intro hne
      rw [getAt, getAt, List.length_set, Int.toNat_natCast, Int.toNat_natCast, List.getD_eq_getElem?_getD,
        List.getElem?_set_ne hne.symm, List.getD_eq_getElem?_getD]
  · cases h

theorem index_new_append : (new (names ++ [name]) : Batch τ).index =
    Function.update (new names : Batch τ).index name (some (names.length : ℤ)) := by
  simp [new, List.zipIdx_append]

theorem index_new_eq_some (h : (new names : Batch τ).index name = some k) :
    ∃ i : ℕ, k = i ∧ names[i]? = some name := by
  induction names using List.reverseRecOn generalizing k with
  | nil => cases h
  | append_singleton names a ih =>
    rw [index_new_append] at h
    by_cases ha : name = a
    · subst ha
      rw [Function.update_self] at h
      cases h
      exact ⟨names.length, rfl, by simp⟩
    · rw [Function.update_of_ne ha] at h
      obtain ⟨i, hk, hi⟩ := ih h
      exact ⟨i, hk, List.getElem?_append_left (List.getElem?_eq_some_iff.mp hi).1 ▸ hi⟩

theorem index_new_of_mem (h : name ∈ names) : ∃ k, (new names : Batch τ).index name = some k := by
  induction names using List.reverseRecOn with
  | nil => cases h
  | append_singleton names a ih =>
    rw [index_new_append]
    by_cases ha : name = a
    · exact ⟨names.length, by rw [ha, Function.update_self]⟩
    · rw [Function.update_of_ne ha]
      exact ih ((List.mem_append.mp h).resolve_right fun hmem => ha (List.mem_singleton.mp hmem))

/-- A tensor that is put into a column is found under a name. -/
def Addressed (names : List Name) (i : ℕ) : Prop :=
  ∀ t : τ, ∃ key b, (new names : Batch τ).set i (some t) = .ok b ∧ b.get key = .ok (some t)

/-- Each column has a name if the names are different. -/
theorem addressed_of_nodup (h : names.Nodup) (hi : i < names.length) : Addressed (τ := τ) names i := by
  intro t
  obtain ⟨k, hk⟩ := index_new_of_mem (τ := τ) (List.getElem_mem hi)
  obtain ⟨j, rfl, hj⟩ := index_new_eq_some hk
  obtain ⟨hj, heq⟩ := List.getElem?_eq_some_iff.mp hj
  obtain rfl : j = i := (h.getElem_inj_iff).mp heq
  have hset : (0 : ℤ) ≤ j ∧ (j : ℤ) < (new names : Batch τ).tensors.length := by
    rw [new, List.length_replicate]
    omega
  refine ⟨names[j], _, if_pos hset, ?_⟩
  have hat : (0 : ℤ) ≤ j ∧ (j : ℤ) < ((new names : Batch τ).tensors.set (j : ℤ).toNat (some t)).length := by
    rwa [List.length_set]
  rw [get]
  dsimp only
  rw [hk]
  dsimp only
  rw [getAt, if_pos hat, List.getD_eq_getElem?_getD, List.getElem?_set_self (by omega), Option.getD_some]

end Batch
namespace RecordIo

variable {limit : ℕ} {buf : List UInt8} {items tensorMeta : List (Name × ItemConfig)} {name text : Name}
  {w : RecordIo}

/-! ### What becomes of a name -/

theorem printed_spec (h : printed name = some text) : text.length ≤ name.length ∧
    (text.length = name.length → 37 ∉ name) ∧ (0 ∉ name → 0 ∉ text) := by
  induction name using printed.induct generalizing text with
  | case1 =>
    cases h
    simp
  | case2 format ih =>
    unfold printed at h
    simp only [if_true, Option.map_eq_some_iff] at h
    obtain ⟨rest, hrest, rfl⟩ := h
    obtain ⟨hle, -, hnul⟩ := ih hrest
    refine ⟨by simp; omega, fun heq => ?_, fun hno => ?_⟩
    · simp only [List.length_cons] at heq
      omega
    · simp only [List.mem_cons, not_or] at hno ⊢
      exact ⟨by decide, hnul hno.2.2⟩
  | case3 format hne =>
    unfold printed at h
    rw [if_pos rfl] at h
    split at h
    · exact absurd rfl (hne _)
    · cases h
  | case4 c format hc ih =>
    unfold printed at h
    rw [if_neg hc, Option.map_eq_some_iff] at h
    obtain ⟨rest, hrest, rfl⟩ := h
    obtain ⟨hle, hpercent, hnul⟩ := ih hrest
    refine ⟨by simp; omega, fun heq => ?_, fun hno => ?_⟩
    · simp only [List.mem_cons, not_or]
      exact ⟨Ne.symm hc, hpercent (by simpa using heq)⟩
    · simp only [List.mem_cons, not_or] at hno ⊢
      exact ⟨hno.1, hnul hno.2⟩

/-- The name that a reader of the header finds: what `snprintf` prints, cut after 31 characters. -/
def shown (name : Name) : Name := ((printed name).getD []).take (kTensorNameLen - 1)

def shownItem (item : Name × ItemConfig) : Name × ItemConfig := (shown item.1, item.2)

theorem length_shown_le (h : (printed name).isSome) : (shown name).length ≤ name.length := by
  obtain ⟨text, ht⟩ := Option.isSome_iff_exists.mp h
  have := (printed_spec ht).1
  rw [shown, ht, Option.getD_some, List.length_take]
  omega

/-- A name keeps its length only if nothing happens to it. -/
theorem good_of_length_shown (h : (printed name).isSome) (hnul : 0 ∉ name)
    (hlen : (shown name).length = name.length) : GoodName name := by
  obtain ⟨text, ht⟩ := Option.isSome_iff_exists.mp h
  obtain ⟨hle, hpercent, -⟩ := printed_spec ht
  rw [shown, ht, Option.getD_some, List.length_take, kTensorNameLen] at hlen
  exact ⟨by rw [kTensorNameLen]; omega, hnul, hpercent (by omega)⟩

theorem shown_of_good (h : GoodName name) : shown name = name := by
  have hlen := h.length_lt
  rw [shown, printed_eq_self h.no_percent, Option.getD_some, List.take_of_length_le (by omega)]

theorem short_shown (h : (printed name).isSome) (hnul : 0 ∉ name) : ShortName (shown name) := by
  obtain ⟨text, ht⟩ := Option.isSome_iff_exists.mp h
  rw [shown, ht, Option.getD_some]
  refine ⟨?_, fun hmem => (printed_spec ht).2.2 hnul (List.mem_of_mem_take hmem)⟩
  rw [List.length_take, kTensorNameLen]
  omega

theorem snprintf_shown (h : (printed name).isSome) (hnul : 0 ∉ name) (hbuf : buf.length = kTensorNameLen) :
    snprintf buf name = .ok (Rows.overwrite buf 0 (shown name ++ [0])) := by
  obtain ⟨text, ht⟩ := Option.isSome_iff_exists.mp h
  rw [snprintf, takeWhile_ne_zero hnul, ht, shown, ht, Option.getD_some, hbuf]

/-! ### What becomes of a header -/

theorem writes_shown (hbuf : buf.length = kTensorNameLen)
    (h : ∀ item ∈ items, 0 ∉ item.1 ∧ (printed item.1).isSome) :
    Writes .fatal limit (writeItems limit buf items) (itemsImage buf (items.map shownItem)) () := by
  induction items generalizing buf with
  | nil => exact .pure
  | cons item items ih =>
    obtain ⟨name, config⟩ := item
    simp only [List.forall_mem_cons] at h
    simp only [List.map_cons, shownItem, itemsImage, List.append_assoc]
    refine .lift (snprintf_shown h.1.2 h.1.1 hbuf) ?_
    refine .bind .write (.bind .write (.bind .write (.bind .write ?_)))
    exact ih (length_overwrite_name (short_shown h.1.2 h.1.1) hbuf) h.2

/-- A directive in a name ends the process. -/
theorem printed_of_writeItems {c c' : Cursor} (h : writeItems limit buf items c = .ok ((), c'))
    (hnul : ∀ item ∈ items, 0 ∉ item.1) : ∀ item ∈ items, (printed item.1).isSome := by
  induction items generalizing buf c with
  | nil => simp
  | cons item items ih =>
    obtain ⟨name, config⟩ := item
    rw [List.forall_mem_cons] at hnul ⊢
    cases hs : printed name with
    | none =>
      have hfail : snprintf buf name = .error .memory := by rw [snprintf, takeWhile_ne_zero hnul.1, hs]
      have : writeItems limit buf ((name, config) :: items) c = .error .memory := by
        simp only [writeItems, hfail]
        rfl
      rw [this] at h
      cases h
    | some text =>
      refine ⟨rfl, ?_⟩
      have hok : snprintf buf name = .ok (Rows.overwrite buf 0 (text.take (buf.length - 1) ++ [0])) := by
        rw [snprintf, takeWhile_ne_zero hnul.1, hs]
      simp only [writeItems, hok] at h
      obtain ⟨⟨_, c1⟩, -, h⟩ := bind_eq_ok.mp h
      obtain ⟨⟨_, c2⟩, -, h⟩ := bind_eq_ok.mp h
      obtain ⟨⟨_, c3⟩, -, h⟩ := bind_eq_ok.mp h
      obtain ⟨⟨_, c4⟩, -, h⟩ := bind_eq_ok.mp h
      exact ih h hnul.2

theorem itemsImage_append (items more : List (Name × ItemConfig)) (buf : List UInt8) :
    ∃ rest, itemsImage buf (items ++ more) = itemsImage buf items ++ rest := by
  induction items generalizing buf with
  | nil => exact ⟨itemsImage buf more, rfl⟩
  | cons item items ih =>
    obtain ⟨name, config⟩ := item
    obtain ⟨rest, hrest⟩ := ih (Rows.overwrite buf 0 (name ++ [0]))
    refine ⟨rest, ?_⟩
    simp only [List.cons_append, itemsImage, hrest, List.append_assoc]

/-- A name as `c_str()` shows it. -/
def cItem (item : Name × ItemConfig) : Name × ItemConfig := (item.1.takeWhile (· ≠ 0), item.2)

theorem no_nul_cItem (item : Name × ItemConfig) : 0 ∉ (cItem item).1 := fun hmem => by
  simpa using List.mem_takeWhile_imp hmem

theorem writeItems_cItem : writeItems limit buf (items.map cItem) = writeItems limit buf items := by
  induction items generalizing buf with
  | nil => rfl
  | cons item items ih =>
    obtain ⟨name, config⟩ := item
    have hname : snprintf buf (name.takeWhile (· ≠ 0)) = snprintf buf name := by
      simp only [snprintf, List.takeWhile_takeWhile, decide_eq_true_eq, and_self]
    simp only [List.map_cons, cItem, writeItems, hname, ← ih]

/-- What was written when WriteHeader returns. -/
theorem writeHeader_shown (hbuf : buf.length = kTensorNameLen)
    (hw : writeHeader limit buf tensorMeta (opened []) = .ok w) :
    (∀ item ∈ tensorMeta, (printed (cItem item).1).isSome) ∧
      (headerImage buf ((tensorMeta.map cItem).map shownItem) 0).length ≤ limit ∧
      w = ⟨atEnd (headerImage buf ((tensorMeta.map cItem).map shownItem) 0), 0, tensorMeta,
        ⟨UInt32.ofNat HPPS_VERSION⟩⟩ := by
  obtain ⟨⟨⟨⟩, stream⟩, hwrite, hw⟩ := bind_eq_ok.mp hw
  cases hw
  have hnul : ∀ item ∈ tensorMeta.map cItem, 0 ∉ item.1 := by
    intro item hitem
    obtain ⟨item, -, rfl⟩ := List.mem_map.mp hitem
    exact no_nul_cItem item
  have hprinted : ∀ item ∈ tensorMeta.map cItem, (printed item.1).isSome := by
    obtain ⟨⟨_, c1⟩, -, hitems⟩ := bind_eq_ok.mp hwrite
    obtain ⟨⟨_, c2⟩, -, hitems⟩ := bind_eq_ok.mp hitems
    obtain ⟨⟨_, c3⟩, -, hitems⟩ := bind_eq_ok.mp hitems
    have hitems : writeItems limit buf (tensorMeta.map cItem) c3 = .ok ((), stream) := by
      rw [writeItems_cItem]
      exact hitems
    exact printed_of_writeItems hitems hnul
  have hwrites : Writes .fatal limit (do
      put limit (encode 4 HPPS_VERSION)
      put limit (encode 8 0)
      put limit (encode 2 tensorMeta.length)
      writeItems limit buf tensorMeta) (headerImage buf ((tensorMeta.map cItem).map shownItem) 0) () := by
    rw [headerImage, List.length_map, List.length_map, ← writeItems_cItem]
    exact .bind .write (.bind .write (.bind .write
      (writes_shown hbuf fun item hitem => ⟨hnul item hitem, hprinted item hitem⟩)))
  refine ⟨fun item hitem => hprinted _ (List.mem_map_of_mem hitem), ?_⟩
  have hat := hwrites [] (Nat.zero_le _)
  rw [List.nil_append, List.length_nil, Nat.zero_add] at hat
  rw [show atEnd [] = (opened []).stream from rfl] at hat
  have heq := hat.symm.trans hwrite
  split at heq
  · rename_i hle
    cases heq
    exact ⟨hle, rfl⟩
  · cases heq

/-- As many names are read as the count in the header says. -/
theorem readHeader_take {count : ℕ} (rest : List UInt8) (hbuf : buf.length = kTensorNameLen) (hcount : count < 2 ^ 64)
    (h : ∀ item ∈ items, ShortName item.1) : ∃ r, readHeader (opened (headerImage buf items count ++ rest)) = .ok r ∧
      r.sampleCount = count ∧ r.items = items.take (items.length % 2 ^ 16) := by
  obtain ⟨more, hmore⟩ := itemsImage_append (items.take (items.length % 2 ^ 16)) (items.drop (items.length % 2 ^ 16)) buf
  rw [List.take_append_drop] at hmore
  have hlen : (items.take (items.length % 2 ^ 16)).length = items.length % 2 ^ 16 := by
    rw [List.length_take, min_eq_left (Nat.mod_le ..)]
  have hread := reads_header_of (more ++ rest) hbuf hlen hcount fun item hitem => h item (List.mem_of_mem_take hitem)
  have hbytes : headerImage buf items count ++ rest =
      encode 4 HPPS_VERSION ++ (encode 8 count ++ (encode 2 items.length ++
        itemsImage buf (items.take (items.length % 2 ^ 16)))) ++ (more ++ rest) := by
    rw [headerImage, hmore]
    simp only [List.append_assoc]
  exact ⟨_, hbytes ▸ hread, rfl, rfl⟩

/-- The header is read back with the names as they are shown. -/
theorem readHeader_shown (hbuf : buf.length = kTensorNameLen) (hnul : ∀ item ∈ tensorMeta, 0 ∉ item.1)
    (hw : writeHeader limit buf tensorMeta (opened []) = .ok w) :
    (∀ item ∈ tensorMeta, (printed item.1).isSome) ∧ ∃ r, readHeader (opened w.stream.buf) = .ok r ∧
      r.items = (tensorMeta.map shownItem).take (tensorMeta.length % 2 ^ 16) := by
  have hid : ∀ item ∈ tensorMeta, cItem item = item := fun item hitem => by
    rw [cItem, takeWhile_ne_zero (hnul item hitem)]
  obtain ⟨hprinted, -, rfl⟩ := writeHeader_shown hbuf hw
  have hprinted : ∀ item ∈ tensorMeta, (printed item.1).isSome := fun item hitem => by
    have := hprinted item hitem
    rwa [hid item hitem] at this
  refine ⟨hprinted, ?_⟩
  rw [List.map_congr_left hid, List.map_id']
  have hshort : ∀ item ∈ tensorMeta.map shownItem, ShortName item.1 := by
    intro item hitem
    obtain ⟨item, hmem, rfl⟩ := List.mem_map.mp hitem
    exact short_shown (hprinted item hmem) (hnul item hmem)
  obtain ⟨r, hr, -, hitems⟩ := readHeader_take [] hbuf (show 0 < 2 ^ 64 by norm_num) hshort
  rw [List.append_nil] at hr
  rw [List.length_map] at hitems
  exact ⟨r, hr, hitems⟩

/-- The header is read with the columns it was written for, and a Batch of their names finds each of them. -/
structure ColumnsSurvive (tensorMeta : List (Name × ItemConfig)) (r : RecordIo) : Prop where
  columns : r.items.Perm tensorMeta
  distinct : r.names.Nodup
  addressed : ∀ i < r.names.length, Batch.Addressed (τ := RawTensor) r.names i

/-- The columns survive if and only if their names are shorter than 32 bytes and without `%`, and there are
fewer than 65536. -/
theorem columns_survive_iff (hbuf : buf.length = kTensorNameLen) (hdistinct : (tensorMeta.map Prod.fst).Nodup)
    (hnul : ∀ item ∈ tensorMeta, 0 ∉ item.1) (hw : writeHeader limit buf tensorMeta (opened []) = .ok w) :
    (∃ r, readHeader (opened w.stream.buf) = .ok r ∧ ColumnsSurvive tensorMeta r) ↔
      (∀ item ∈ tensorMeta, item.1.length < 32 ∧ 37 ∉ item.1) ∧ tensorMeta.length < 2 ^ 16 := by
  obtain ⟨hprinted, r, hr, hitems⟩ := readHeader_shown hbuf hnul hw
  constructor
  · rintro ⟨r', hr', hsurvive⟩
    cases hr.symm.trans hr'
    have hperm := hsurvive.columns
    rw [hitems] at hperm
    have hcount : tensorMeta.length < 2 ^ 16 := by
      have hlen := hperm.length_eq
      rw [List.length_take, List.length_map, min_eq_left (Nat.mod_le ..)] at hlen
      rw [← hlen]
      exact Nat.mod_lt _ (by norm_num)
    refine ⟨fun item hitem => ?_, hcount⟩
    rw [Nat.mod_eq_of_lt hcount, List.take_of_length_le (List.length_map ..).le] at hperm
    -- shorter names would leave fewer characters in the whole header
    have hsum : (tensorMeta.map fun item => (shown item.1).length).sum =
        (tensorMeta.map fun item => item.1.length).sum := by
      have := (hperm.map fun item => item.1.length).sum_eq
      rwa [List.map_map] at this
    have hlen : (shown item.1).length = item.1.length := by
      by_contra hne
      have hle : ∀ item ∈ tensorMeta, (shown item.1).length ≤ item.1.length :=
        fun item hitem => length_shown_le (hprinted item hitem)
      have hlt := List.sum_lt_sum _ _ hle ⟨item, hitem, lt_of_le_of_ne (hle item hitem) hne⟩
      omega
    have hgood := good_of_length_shown (hprinted item hitem) (hnul item hitem) hlen
    exact ⟨hgood.length_lt, hgood.no_percent⟩
  · rintro ⟨hgood, hcount⟩
    have hsame : r.items = tensorMeta := by
      rw [hitems, Nat.mod_eq_of_lt hcount, List.take_of_length_le (List.length_map ..).le]
      refine (List.map_congr_left (g := id) fun item hitem => ?_).trans (List.map_id _)
      have hname : GoodName item.1 := ⟨(hgood item hitem).1, hnul item hitem, (hgood item hitem).2⟩
      rw [shownItem, shown_of_good hname, id]
    have hnames : r.names.Nodup := by rwa [names, hsame]
    exact ⟨r, hr, hsame ▸ .refl _, hnames, fun i hi => Batch.addressed_of_nodup hnames hi⟩

/-- The columns `id` and `x`. -/
def twoColumns : List (Name × ItemConfig) := [([105, 100], ⟨2, 0, 0⟩), ([120], ⟨0, 1, 0⟩)]

theorem columns_survive_iff_two : ∃ w, writeHeader 1000 (List.replicate 32 7) twoColumns (opened []) = .ok w ∧
    ((∃ r, readHeader (opened w.stream.buf) = .ok r ∧ ColumnsSurvive twoColumns r) ↔
      (∀ item ∈ twoColumns, item.1.length < 32 ∧ 37 ∉ item.1) ∧ twoColumns.length < 2 ^ 16) := by
  have hname : ∀ item ∈ twoColumns, GoodName item.1 := by
    intro item hitem
    rcases List.mem_pair.mp hitem with rfl | rfl <;> exact ⟨by decide, by decide, by decide⟩
  have hbuf : (List.replicate 32 (7 : UInt8)).length = kTensorNameLen := List.length_replicate
  have hw : writeHeader 1000 (List.replicate 32 7) twoColumns (opened []) =
      .ok ⟨atEnd (headerImage (List.replicate 32 7) twoColumns 0), 0, twoColumns, ⟨UInt32.ofNat HPPS_VERSION⟩⟩ := by
    rw [writeHeader_eq hbuf hname, if_pos (by decide)]
  exact ⟨_, hw, columns_survive_iff hbuf (by decide) (fun item hitem => (hname item hitem).no_nul) hw⟩

/-- A column with the name `a%%`. -/
def percentColumn : List (Name × ItemConfig) := [([97, 37, 37], ⟨2, 0, 0⟩)]

/-- The column `a%%` is read as `a%`. -/
theorem percent_column_renamed : ¬ ∀ (limit : ℕ) (buf : List UInt8) (tensorMeta : List (Name × ItemConfig)) (w : RecordIo),
    buf.length = kTensorNameLen → (tensorMeta.map Prod.fst).Nodup → (∀ item ∈ tensorMeta, 0 ∉ item.1) →
    writeHeader limit buf tensorMeta (opened []) = .ok w →
    ∃ r, readHeader (opened w.stream.buf) = .ok r ∧ ColumnsSurvive tensorMeta r := by
  intro hall
  have hbuf : (List.replicate 32 (7 : UInt8)).length = kTensorNameLen := List.length_replicate
  have hwrite : ∃ w, writeHeader 1000 (List.replicate 32 7) percentColumn (opened []) = .ok w := ⟨_, rfl⟩
  obtain ⟨w, hw⟩ := hwrite
  obtain ⟨r, hr, hsurvive⟩ := hall 1000 _ percentColumn w hbuf (by decide) (by decide) hw
  obtain ⟨-, r', hr', hitems⟩ := readHeader_shown hbuf (by decide) hw
  cases hr.symm.trans hr'
  have hmem := hsurvive.columns.mem_iff.mpr (List.mem_singleton.mpr rfl : ([97, 37, 37], ⟨2, 0, 0⟩) ∈ percentColumn)
  rw [hitems] at hmem
  exact absurd hmem (by decide)

end RecordIo
end Hpps.Feeder

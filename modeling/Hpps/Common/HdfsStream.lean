import Hpps.Common.Stop

/-! A stream over a file of the distributed file system, which moves its bytes piece by piece. -/
namespace Hpps

/-- The client library on one open file. The buffer is what the pointer points to; a read returns its result, what it
put into the buffer, and whether errno is EINTR. -/
structure Hdfs (σ : Type) where
  hdfsWrite : σ → List UInt8 → ℤ → ℤ × σ
  hdfsRead : σ → ℤ → (ℤ × List UInt8 × Bool) × σ

/-- A size that is passed as a `tSize`. -/
def toTSize (size : ℕ) : ℤ := Int.bmod size (2 ^ 32)

/-- `numeric_limits<tSize>::max()` -/
def nmax : ℕ := 2 ^ 31 - 1

/-- What the library says of its functions. `busy` bounds how often in a row data can be unavailable. -/
structure Documented {σ : Type} (fs : Hdfs σ) where
  contents : σ → List UInt8
  pos : σ → ℕ
  busy : σ → ℕ
  write : ∀ s buf len, (fs.hdfsWrite s buf len).1 = -1 ∨ 0 ≤ (fs.hdfsWrite s buf len).1 ∧
    (fs.hdfsWrite s buf len).1 ≤ len ∧
      contents (fs.hdfsWrite s buf len).2 = contents s ++ buf.take (fs.hdfsWrite s buf len).1.toNat
  read : ∀ s len ret bytes eintr s', 0 < len → fs.hdfsRead s len = ((ret, bytes, eintr), s') →
    contents s' = contents s ∧
      (0 < ret ∧ ret ≤ len ∧ pos s + ret.toNat ≤ (contents s).length ∧
          bytes = ((contents s).drop (pos s)).take ret.toNat ∧ pos s' = pos s + ret.toNat ∨
        ret = 0 ∧ (contents s).length ≤ pos s ∧ pos s' = pos s ∨
        ret = -1 ∧ pos s' = pos s ∧ (eintr = true → busy s' < busy s))

namespace HDFSStream

variable {σ : Type} (fs : Hdfs σ)

/-- `none` when `fuel` rounds of the loop do not end it. -/
def Write : ℕ → σ → List UInt8 → Option (Except Stop σ)
  | 0, _, _ => none
  | fuel + 1, s, buf =>
    if buf.isEmpty then some (.ok s)
    else
      let (nwrite, s) := fs.hdfsWrite s buf (toTSize buf.length)
      if nwrite = -1 then some (.error .fatal) else Write fuel s (buf.drop nwrite.toNat)

/-- `size` is what is left to read; the result is what was put into the buffer. -/
def Read : ℕ → σ → ℕ → Option (Except Stop (List UInt8 × σ))
  | 0, _, _ => none
  | fuel + 1, s, size =>
    if size = 0 then some (.ok ([], s))
    else
      match fs.hdfsRead s (toTSize (min size nmax)) with
      | ((ret, bytes, eintr), s) =>
        if 0 < ret then (Read fuel s (size - ret.toNat)).map fun r => r.map fun p => (bytes ++ p.1, p.2)
        else if ret = 0 then some (.ok ([], s))
        else if eintr then Read fuel s size
        else some (.error .fatal)

variable {fs} {s s' t : σ} {buf bytes : List UInt8} {fuel size : ℕ}

/-- A size is kept up to a multiple of 2^32. -/
theorem toTSize_cases (size : ℕ) : size % 2 ^ 32 < 2 ^ 31 ∧ toTSize size = (size % 2 ^ 32 : ℕ) ∨
    2 ^ 31 ≤ size % 2 ^ 32 ∧ toTSize size < 0 := by
  unfold toTSize
  simp only [Int.bmod_def]
  split <;> omega

theorem toTSize_of_lt (h : size < 2 ^ 31) : toTSize size = size := by
  rcases toTSize_cases size with ⟨-, heq⟩ | ⟨hge, -⟩ <;> omega

/-- A size that is not negative as a `tSize` lost a multiple of 2^32. -/
theorem exists_of_toTSize (h : 0 ≤ toTSize size) : ∃ k, size = k * 2 ^ 32 + (toTSize size).toNat ∧
    (toTSize size).toNat < 2 ^ 31 := by
  refine ⟨size / 2 ^ 32, ?_⟩
  rcases toTSize_cases size with ⟨hlt, heq⟩ | ⟨-, hneg⟩ <;> omega

/-! ### Write -/

/-- Whenever Write returns, it has appended the buffer. -/
theorem contents_of_write (doc : Documented fs) (h : Write fs fuel s buf = some (.ok s')) :
    doc.contents s' = doc.contents s ++ buf := by
  induction fuel generalizing s buf with
  | zero => cases h
  | succ fuel ih =>
    rw [Write] at h
    split at h
    · rename_i hempty
      cases h
      rw [List.isEmpty_iff.mp hempty, List.append_nil]
    · dsimp only at h
      split at h
      · cases h
      · rename_i hfail
        obtain hfail' | ⟨-, -, hcontents⟩ := doc.write s buf (toTSize buf.length)
        · exact absurd hfail' hfail
        · rw [ih h, hcontents, List.append_assoc, List.take_append_drop]

/-- The last multiple of 2^32 is never written. -/
theorem write_ne_ok (doc : Documented fs) (hlen : 2 ^ 31 ≤ buf.length) : Write fs fuel s buf ≠ some (.ok s') := by
  induction fuel generalizing s buf with
  | zero => exact nofun
  | succ fuel ih =>
    have hne : buf.isEmpty = false := by
      cases buf with
      | nil => simp at hlen
      | cons b buf => rfl
    rw [Write, hne]
    simp only [Bool.false_eq_true, if_false]
    split
    · exact nofun
    · rename_i hfail
      obtain hfail' | ⟨hpos, hle, -⟩ := doc.write s buf (toTSize buf.length)
      · exact absurd hfail' hfail
      · obtain ⟨k, hk, hlt⟩ := exists_of_toTSize (hpos.trans hle)
        refine ih ?_
        have hr : (fs.hdfsWrite s buf (toTSize buf.length)).1.toNat ≤ (toTSize buf.length).toNat :=
          Int.toNat_le_toNat hle
        rw [List.length_drop]
        generalize (fs.hdfsWrite s buf (toTSize buf.length)).1.toNat = r at hr
        omega

theorem write_ok (hok : ∀ s buf len, 0 < len → 0 < (fs.hdfsWrite s buf len).1)
    (hlen : buf.length < 2 ^ 31) (hfuel : buf.length < fuel) : ∃ s', Write fs fuel s buf = some (.ok s') := by
  induction fuel generalizing s buf with
  | zero => omega
  | succ fuel ih =>
    rw [Write]
    cases buf with
    | nil => exact ⟨s, rfl⟩
    | cons b buf =>
      have hpos := hok s (b :: buf) (toTSize (b :: buf).length) (by
        rw [toTSize_of_lt hlen]
        simp)
      have hfail : (fs.hdfsWrite s (b :: buf) (toTSize (b :: buf).length)).1 ≠ -1 := by omega
      simp only [List.isEmpty_cons, Bool.false_eq_true, if_false]
      rw [if_neg hfail]
      apply ih
      · rw [List.length_drop]
        omega
      · have hr : 0 < (fs.hdfsWrite s (b :: buf) (toTSize (b :: buf).length)).1.toNat := Int.pos_iff_toNat_pos.mp hpos
        have hlen' : 0 < (b :: buf).length := Nat.succ_pos _
        rw [List.length_drop]
        generalize (fs.hdfsWrite s (b :: buf) (toTSize (b :: buf).length)).1.toNat = r at hr
        omega

/-- Write passes the size as a `tSize`. With a library that always writes something of a positive size it returns just
when the size is less than 2^31, and then it has appended the buffer, whatever the pieces were. -/
theorem write_returns_iff (doc : Documented fs) (hok : ∀ s buf len, 0 < len → 0 < (fs.hdfsWrite s buf len).1) (s : σ)
    (buf : List UInt8) : ((∃ fuel s', Write fs fuel s buf = some (.ok s')) ↔ buf.length < 2 ^ 31) ∧
      ∀ fuel s', Write fs fuel s buf = some (.ok s') → doc.contents s' = doc.contents s ++ buf := by
  refine ⟨⟨fun ⟨fuel, s', h⟩ => ?_, fun hlen => ⟨buf.length + 1, write_ok hok hlen (Nat.lt_succ_self _)⟩⟩,
    fun fuel s' h => contents_of_write doc h⟩
  by_contra hlen
  exact write_ne_ok doc (not_lt.mp hlen) h

/-! ### Read -/

/-- What Read returns when it does: the next bytes of the file. -/
structure NextBytes (doc : Documented fs) (s : σ) (size : ℕ) (bytes : List UInt8) (s' : σ) : Prop where
  next : bytes = ((doc.contents s).drop (doc.pos s)).take size
  contents : doc.contents s' = doc.contents s
  pos : doc.pos s' = doc.pos s + bytes.length

theorem NextBytes.none (doc : Documented fs) (hend : size = 0 ∨ (doc.contents s).length ≤ doc.pos s)
    (hcontents : doc.contents s' = doc.contents s) (hpos : doc.pos s' = doc.pos s) :
    NextBytes doc s size [] s' where
  next := by
    rcases hend with rfl | hend
    · rfl
    · rw [List.drop_eq_nil_of_le hend, List.take_nil]
  contents := hcontents
  pos := hpos

/-- A piece and what follows it. -/
theorem NextBytes.append {doc : Documented fs} {n : ℕ} (hle : n ≤ size) (hcontents : doc.contents t = doc.contents s)
    (hroom : doc.pos s + n ≤ (doc.contents s).length) (hpos : doc.pos t = doc.pos s + n)
    (h : NextBytes doc t (size - n) bytes s') :
    NextBytes doc s size (((doc.contents s).drop (doc.pos s)).take n ++ bytes) s' where
  next := by
    rw [h.next, hcontents, hpos, ← List.drop_drop, ← List.take_add, Nat.add_sub_cancel' hle]
  contents := h.contents.trans hcontents
  pos := by
    rw [h.pos, hpos, List.length_append, List.length_take, List.length_drop]
    omega

theorem piece_pos (h : size ≠ 0) : 0 < toTSize (min size nmax) ∧ (toTSize (min size nmax)).toNat ≤ size := by
  have hlt : min size nmax < 2 ^ 31 := (min_le_right _ _).trans_lt (Nat.sub_one_lt (by norm_num))
  have hpos : 0 < min size nmax := lt_min (Nat.pos_of_ne_zero h) (Nat.sub_pos_of_lt (by norm_num))
  rw [toTSize_of_lt hlt]
  exact ⟨by exact_mod_cast hpos, by rw [Int.toNat_natCast]; exact min_le_left _ _⟩

theorem nextBytes_of_read (doc : Documented fs) (h : Read fs fuel s size = some (.ok (bytes, s'))) :
    NextBytes doc s size bytes s' := by
  induction fuel generalizing s size bytes with
  | zero => cases h
  | succ fuel ih =>
    rw [Read] at h
    split at h
    · rename_i hzero
      cases h
      exact .none doc (.inl hzero) rfl rfl
    · rename_i hsize
      obtain ⟨hlen, hle⟩ := piece_pos hsize
      split at h
      rename_i ret piece eintr t hr
      obtain ⟨hcontents, ⟨hret, hretle, hroom, rfl, hpos⟩ | ⟨rfl, hend, hpos⟩ | ⟨rfl, hpos, -⟩⟩ :=
        doc.read s _ ret piece eintr t hlen hr
      · rw [if_pos hret] at h
        obtain ⟨r, hread, hmap⟩ := Option.map_eq_some_iff.mp h
        cases r with
        | error e => cases hmap
        | ok p =>
          cases hmap
          exact .append ((Int.toNat_le_toNat hretle).trans hle) hcontents hroom hpos (ih hread)
      · cases h
        exact .none doc (.inr hend) hcontents hpos
      · rw [if_neg (by decide), if_neg (by decide)] at h
        split at h
        · have hnext := ih h
          exact ⟨by rw [hnext.next, hcontents, hpos], hnext.contents.trans hcontents, by rw [hnext.pos, hpos]⟩
        · cases h

/-- Read returns when data is not unavailable forever and there is no other error. -/
theorem read_returns (doc : Documented fs)
    (hok : ∀ s len, (fs.hdfsRead s len).1.1 = -1 → (fs.hdfsRead s len).1.2.2 = true) (s : σ) (size : ℕ) :
    ∃ fuel bytes s', Read fs fuel s size = some (.ok (bytes, s')) := by
  induction size using Nat.strong_induction_on generalizing s with
  | _ size ihsize =>
    induction hbusy : doc.busy s using Nat.strong_induction_on generalizing s with
    | _ busy ihbusy =>
      by_cases hsize : size = 0
      · exact ⟨1, [], s, if_pos hsize⟩
      · obtain ⟨hlen, hle⟩ := piece_pos hsize
        cases hr : fs.hdfsRead s (toTSize (min size nmax)) with
        | mk answer t =>
          obtain ⟨ret, piece, eintr⟩ := answer
          obtain ⟨-, ⟨hret, -⟩ | ⟨rfl, -⟩ | ⟨rfl, -, hless⟩⟩ := doc.read s _ ret piece eintr t hlen hr
          · have hpos : 0 < ret.toNat := Int.pos_iff_toNat_pos.mp hret
            obtain ⟨fuel, bytes, s', hread⟩ := ihsize (size - ret.toNat) (by omega) t
            refine ⟨fuel + 1, piece ++ bytes, s', ?_⟩
            rw [Read, if_neg hsize, hr]
            dsimp only
            rw [if_pos hret, hread]
            rfl
          · refine ⟨1, [], t, ?_⟩
            rw [Read, if_neg hsize, hr]
            rfl
          · have heintr : eintr = true := by
              have := hok s (toTSize (min size nmax))
              rw [hr] at this
              exact this rfl
            subst heintr
            obtain ⟨fuel, bytes, s', hread⟩ := ihbusy (doc.busy t) (hbusy ▸ hless rfl) t rfl
            refine ⟨fuel + 1, bytes, s', ?_⟩
            rw [Read, if_neg hsize, hr]
            exact hread

/-! ### A file that is written and read back -/

/-- The buffers are written one after the other. -/
inductive Writes (fs : Hdfs σ) : σ → List (List UInt8) → σ → Prop
  | nil {s : σ} : Writes fs s [] s
  | cons {s t s' : σ} {fuel : ℕ} {buf : List UInt8} {bufs : List (List UInt8)}
      (h : Write fs fuel s buf = some (.ok t)) (hrest : Writes fs t bufs s') : Writes fs s (buf :: bufs) s'

/-- Buffers of the given sizes are read one after the other. -/
inductive Reads (fs : Hdfs σ) : σ → List ℕ → List (List UInt8) → σ → Prop
  | nil {s : σ} : Reads fs s [] [] s
  | cons {s t s' : σ} {fuel size : ℕ} {sizes : List ℕ} {buf : List UInt8} {bufs : List (List UInt8)}
      (h : Read fs fuel s size = some (.ok (buf, t))) (hrest : Reads fs t sizes bufs s') :
      Reads fs s (size :: sizes) (buf :: bufs) s'

theorem contents_of_writes (doc : Documented fs) {bufs : List (List UInt8)} (h : Writes fs s bufs s') :
    doc.contents s' = doc.contents s ++ bufs.flatten := by
  induction h with
  | nil => rw [List.flatten_nil, List.append_nil]
  | cons h _ ih => rw [ih, contents_of_write doc h, List.flatten_cons, List.append_assoc]

theorem reads_eq (doc : Documented fs) {bufs out : List (List UInt8)}
    (hrest : (doc.contents s).drop (doc.pos s) = bufs.flatten) (h : Reads fs s (bufs.map List.length) out s') :
    out = bufs := by
  induction bufs generalizing s out with
  | nil =>
    cases h
    rfl
  | cons buf bufs ih =>
    cases h with
    | cons h hreads =>
      obtain ⟨hnext, hcontents, hpos⟩ := nextBytes_of_read doc h
      rw [hrest, List.flatten_cons, List.take_left' rfl] at hnext
      subst hnext
      rw [ih ?_ hreads]
      rw [hcontents, hpos, ← List.drop_drop, hrest, List.flatten_cons, List.drop_left' rfl]

theorem exists_reads (doc : Documented fs)
    (hok : ∀ s len, (fs.hdfsRead s len).1.1 = -1 → (fs.hdfsRead s len).1.2.2 = true) (s : σ) (sizes : List ℕ) :
    ∃ out s', Reads fs s sizes out s' := by
  induction sizes generalizing s with
  | nil => exact ⟨[], s, .nil⟩
  | cons size sizes ih =>
    obtain ⟨fuel, buf, t, h⟩ := read_returns doc hok s size
    obtain ⟨out, s', hreads⟩ := ih t
    exact ⟨buf :: out, s', .cons h hreads⟩

/-- What Writes put into a new file is what Reads of the same sizes take out of it when it is opened again, whatever
the pieces were and however often data was unavailable; and the Reads all return. -/
theorem read_back (doc : Documented fs)
    (hok : ∀ s len, (fs.hdfsRead s len).1.1 = -1 → (fs.hdfsRead s len).1.2.2 = true) {bufs : List (List UInt8)}
    (hnew : doc.contents s = []) (hwrites : Writes fs s bufs s') (hopen : doc.contents t = doc.contents s')
    (hpos : doc.pos t = 0) :
    (∃ out t', Reads fs t (bufs.map List.length) out t') ∧
      ∀ out t', Reads fs t (bufs.map List.length) out t' → out = bufs := by
  refine ⟨exists_reads doc hok t _, fun out t' h => reads_eq doc ?_ h⟩
  rw [hopen, hpos, List.drop_zero, contents_of_writes doc hwrites, hnew, List.nil_append]

end HDFSStream

/-- A library that moves a byte at a time, and that has no data at every other read. The state is the file, the
position, and how often it will have no data. -/
def byteByByte : Hdfs (List UInt8 × ℕ × ℕ) where
  hdfsWrite s buf len :=
    if 0 < len then (1, s.1 ++ buf.take 1, s.2) else if len = 0 then (0, s) else (-1, s)
  hdfsRead s _ :=
    match s with
    | (file, pos, busy + 1) => ((-1, [], true), file, pos, busy)
    | (file, pos, 0) =>
      if pos < file.length then ((1, (file.drop pos).take 1, false), file, pos + 1, 1) else ((0, [], false), file, pos, 0)

def byteByByteDocumented : Documented byteByByte where
  contents s := s.1
  pos s := s.2.1
  busy s := s.2.2
  write s buf len := by
    simp only [byteByByte]
    split
    · exact .inr ⟨by norm_num, by omega, rfl⟩
    · split
      · rename_i hzero
        exact .inr ⟨le_rfl, hzero.ge, by simp⟩
      · exact .inl rfl
  read s len ret bytes eintr s' hlen h := by
    obtain ⟨file, pos, busy⟩ := s
    cases busy with
    | succ busy =>
      cases h
      exact ⟨rfl, .inr (.inr ⟨rfl, rfl, fun _ => Nat.lt_succ_self _⟩)⟩
    | zero =>
      simp only [byteByByte] at h
      split at h
      · rename_i hlt
        cases h
        exact ⟨rfl, .inl ⟨one_pos, hlen, hlt, rfl, rfl⟩⟩
      · rename_i hge
        cases h
        exact ⟨rfl, .inr (.inl ⟨rfl, not_lt.mp hge, rfl⟩)⟩

namespace HDFSStream

theorem write_returns_iff_three : (∃ fuel s', Write byteByByte fuel ([], 0, 0) [1, 2, 3] = some (.ok s')) ∧
    ∀ fuel s', Write byteByByte fuel ([], 0, 0) [1, 2, 3] = some (.ok s') → s'.1 = [1, 2, 3] := by
  obtain ⟨hiff, hcontents⟩ := write_returns_iff byteByByteDocumented (fun s buf len hlen => by
    simp only [byteByByte]
    rw [if_pos hlen]
    exact one_pos) ([], 0, 0) [1, 2, 3]
  exact ⟨hiff.mpr (by norm_num), hcontents⟩

theorem read_back_two : (∃ out t', Reads byteByByte ([1, 2, 3], 0, 1) [1, 2] out t') ∧
    ∀ out t', Reads byteByByte ([1, 2, 3], 0, 1) [1, 2] out t' → out = [[1], [2, 3]] := by
  have hwrites : Writes byteByByte ([], 0, 0) [[1], [2, 3]] ([1, 2, 3], 0, 0) :=
    .cons (show Write byteByByte 2 _ _ = _ from rfl) (.cons (show Write byteByByte 3 _ _ = _ from rfl) .nil)
  refine read_back byteByByteDocumented (fun s len h => ?_) rfl hwrites rfl rfl
  obtain ⟨file, pos, busy⟩ := s
  cases busy with
  | succ busy => rfl
  | zero =>
    simp only [byteByByte] at h ⊢
    split at h <;> cases h

end HDFSStream
end Hpps

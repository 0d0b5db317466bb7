import Mathlib

/-! Numbers as little-endian bytes, and readers and writers that walk through a buffer. -/
namespace Bytes

variable {ε α β : Type} {e : ε} {w n limit : ℕ}

/-- The `w` low bytes of `n`. -/
def encode : ℕ → ℕ → List UInt8
  | 0, _ => []
  | w + 1, n => UInt8.ofNat n :: encode w (n / 256)

def decode : List UInt8 → ℕ
  | [] => 0
  | b :: bs => b.toNat + 256 * decode bs

@[simp] theorem length_encode : (encode w n).length = w := by
  induction w generalizing n with
  | zero => rfl
  | succ w ih => rw [encode, List.length_cons, ih]

theorem decode_encode : decode (encode w n) = n % 256 ^ w := by
  induction w generalizing n with
  | zero => rw [encode, decode, pow_zero, Nat.mod_one]
  | succ w ih =>
    have hb : (UInt8.ofNat n).toNat = n % 256 := UInt8.toNat_ofNat'
    rw [encode, decode, ih, hb, pow_succ', Nat.mod_mul]

theorem decode_lt {bs : List UInt8} : decode bs < 256 ^ bs.length := by
  induction bs with
  | nil => exact Nat.one_pos
  | cons b bs ih =>
    have hb : b.toNat < 256 := b.toNat_lt
    rw [decode, List.length_cons, pow_succ']
    omega

theorem decode_encode_of_lt (h : n < 256 ^ w) : decode (encode w n) = n := by
  rw [decode_encode, Nat.mod_eq_of_lt h]

/-- A buffer and the position of the next byte. -/
structure Cursor where
  buf : List UInt8
  pos : ℕ
  deriving DecidableEq, Repr

/-- Takes values from the buffer, or puts them into it. -/
abbrev Serial (ε α : Type) := StateT Cursor (Except ε) α

/-- The next `n` bytes, `e` if the buffer ends before. -/
def next (e : ε) (n : ℕ) : Serial ε (List UInt8) := fun c =>
  if c.pos + n ≤ c.buf.length then .ok ((c.buf.drop c.pos).take n, ⟨c.buf, c.pos + n⟩) else .error e

/-- The next `w` bytes as a number. -/
def number (e : ε) (w : ℕ) : Serial ε ℕ := decode <$> next e w

/-- The same reader, as often as the list is long. -/
def repeated (r : α → Serial ε β) : List α → Serial ε (List β)
  | [] => pure []
  | a :: as => do
    let b ← r a
    let bs ← repeated r as
    return b :: bs

theorem repeated_congr_length {γ : Type} {r : Serial ε β} {as : List α} {cs : List γ}
    (h : as.length = cs.length) : repeated (fun _ => r) as = repeated (fun _ => r) cs := by
  induction as generalizing cs with
  | nil =>
    rw [List.length_nil, eq_comm, List.length_eq_zero_iff] at h
    rw [h]
    rfl
  | cons a as ih =>
    cases cs with
    | nil => cases h
    | cons c cs =>
      rw [List.length_cons, List.length_cons, Nat.add_right_cancel_iff] at h
      rw [repeated, repeated, ih h]

theorem repeated_map {γ : Type} {r : β → Serial ε γ} {f : α → β} {as : List α} :
    repeated (fun a => r (f a)) as = repeated r (as.map f) := by
  induction as with
  | nil => rfl
  | cons a as ih => rw [repeated, List.map_cons, repeated, ih]

/-- Wherever the bytes stand in a buffer, `r` takes them and returns `a`. -/
def Reads (r : Serial ε α) (bytes : List UInt8) (a : α) : Prop :=
  ∀ pre post, r ⟨pre ++ bytes ++ post, pre.length⟩ =
    .ok (a, ⟨pre ++ bytes ++ post, pre.length + bytes.length⟩)

namespace Reads

variable {r : Serial ε α} {f : α → Serial ε β} {bytes bytes' : List UInt8} {a : α} {b : β}

theorem pure : Reads (Pure.pure a : Serial ε α) [] a := fun _ _ => rfl

theorem bind (hr : Reads r bytes a) (hf : Reads (f a) bytes' b) :
    Reads (r >>= f) (bytes ++ bytes') b := by
  intro pre post
  have h := hr pre (bytes' ++ post)
  have h' := hf (pre ++ bytes) post
  simp only [List.append_assoc, List.length_append] at h h' ⊢
  change (r _ >>= fun p => f p.1 p.2) = _
  rw [h, ← Nat.add_assoc]
  exact h'

/-- A reader whose last bytes are all taken. -/
theorem bind_pure (hr : Reads r bytes a) (hf : Reads (f a) [] b) : Reads (r >>= f) bytes b := by
  have h := hr.bind hf
  rwa [List.append_nil] at h

theorem lift {x : Except ε α} (hx : x = .ok a) (hf : Reads (f a) bytes b) :
    Reads ((liftM x : Serial ε α) >>= f) bytes b := by
  subst hx
  exact hf

theorem liftM {x : Except ε α} (hx : x = .ok a) : Reads (MonadLiftT.monadLift x : Serial ε α) [] a := by
  subst hx
  exact .pure

theorem map {g : α → β} (hr : Reads r bytes a) : Reads (g <$> r) bytes (g a) := by
  rw [map_eq_pure_bind]
  exact hr.bind_pure .pure

theorem next (h : bytes.length = n) : Reads (next e n) bytes bytes := by
  subst h
  intro pre post
  unfold Bytes.next
  rw [if_pos (by simp)]
  simp

theorem number_mod : Reads (number e w) (encode w n) (n % 256 ^ w) := by
  have hr : Reads (Bytes.next e w) (encode w n) (encode w n) := next length_encode
  have := hr.map (g := decode)
  rwa [decode_encode] at this

theorem number (h : n < 256 ^ w) : Reads (number e w) (encode w n) n := by
  have := number_mod (e := e) (w := w) (n := n)
  rwa [Nat.mod_eq_of_lt h] at this

theorem repeated {r : α → Serial ε β} {image : α → List UInt8} {g : α → β} {as : List α}
    (h : ∀ a ∈ as, Reads (r a) (image a) (g a)) :
    Reads (Bytes.repeated r as) (as.flatMap image) (as.map g) := by
  induction as with
  | nil => exact .pure
  | cons a as ih =>
    simp only [List.forall_mem_cons] at h
    exact h.1.bind ((ih h.2).bind_pure .pure)

/-- Reading as often as the list is long, for values that are not known before. -/
theorem repeated_const {r : Serial ε β} {image : α → List UInt8} {g : α → β} {as : List α}
    (h : ∀ a ∈ as, Reads r (image a) (g a)) :
    Reads (Bytes.repeated (fun _ => r) (List.range as.length)) (as.flatMap image) (as.map g) := by
  rw [repeated_congr_length (List.length_range (n := as.length))]
  exact repeated h

end Reads

/-- What `r` returns, if it does, satisfies `P`. -/
def Returns (r : Serial ε α) (P : α → Prop) : Prop := ∀ c a c', r c = .ok (a, c') → P a

namespace Returns

variable {r : Serial ε α} {f : α → Serial ε β} {P : α → Prop} {Q : β → Prop} {a : α}

theorem any : Returns r fun _ => True := fun _ _ _ _ => trivial

theorem pure (h : P a) : Returns (Pure.pure a : Serial ε α) P := by
  intro c b c' hb
  cases hb
  exact h

theorem bind (hr : Returns r P) (hf : ∀ a, P a → Returns (f a) Q) : Returns (r >>= f) Q := by
  intro c b c' hb
  change (r c >>= fun p => f p.1 p.2) = _ at hb
  cases hc : r c with
  | error e =>
    rw [hc] at hb
    cases hb
  | ok p =>
    rw [hc] at hb
    exact hf p.1 (hr c p.1 p.2 hc) p.2 b c' hb

theorem mono {P' : α → Prop} (hr : Returns r P) (h : ∀ a, P a → P' a) : Returns r P' :=
  fun c a c' hc => h a (hr c a c' hc)

theorem lift {x : Except ε α} (hf : ∀ a, x = .ok a → Returns (f a) Q) :
    Returns ((liftM x : Serial ε α) >>= f) Q := by
  cases x with
  | error e =>
    intro c b c' hb
    cases hb
  | ok a => exact hf a rfl

theorem number : Returns (Bytes.number e w) fun n => n < 256 ^ w := by
  have hnext : Returns (Bytes.next e w) fun bytes => bytes.length = w := by
    intro c bytes c' h
    unfold Bytes.next at h
    split at h
    · cases h
      rw [List.length_take, List.length_drop]
      omega
    · cases h
  unfold Bytes.number
  rw [map_eq_pure_bind]
  refine hnext.bind fun bytes hlen => .pure ?_
  rw [← hlen]
  exact decode_lt

/-- One result for each element of the list. -/
theorem repeated {r : α → Serial ε β} {as : List α} (h : ∀ a ∈ as, Returns (r a) Q) :
    Returns (Bytes.repeated r as) fun bs => bs.length = as.length ∧ ∀ b ∈ bs, Q b := by
  induction as with
  | nil => exact .pure ⟨rfl, by simp⟩
  | cons a as ih =>
    rw [List.forall_mem_cons] at h
    refine h.1.bind fun b hb => (ih h.2).bind fun bs hbs => .pure ⟨?_, List.forall_mem_cons.mpr ⟨hb, hbs.2⟩⟩
    rw [List.length_cons, List.length_cons, hbs.1]

end Returns

/-- Run again and again, `r` returns these values, and each time it moves on in the buffer. -/
inductive Provides (r : Serial ε α) : Cursor → List α → Prop
  | nil {c : Cursor} : Provides r c []
  | cons {c c' : Cursor} {a : α} {as : List α} (h : r c = .ok (a, c')) (hbuf : c'.buf = c.buf)
      (hlt : c.pos < c'.pos) (hle : c'.pos ≤ c.buf.length) (htail : Provides r c' as) : Provides r c (a :: as)

theorem Provides.length_le {r : Serial ε α} {c : Cursor} {as : List α} (h : Provides r c as) :
    as.length ≤ c.buf.length - c.pos := by
  induction h with
  | nil => exact Nat.zero_le _
  | cons h hbuf hlt hle htail ih =>
    rw [hbuf] at ih
    rw [List.length_cons]
    omega

theorem Reads.provides {r : Serial ε α} {image : β → List UInt8} {f : β → α} {l : List β}
    (h : ∀ b ∈ l, Reads r (image b) (f b) ∧ image b ≠ []) (pre post : List UInt8) :
    Provides r ⟨pre ++ l.flatMap image ++ post, pre.length⟩ (l.map f) := by
  induction l generalizing pre with
  | nil => exact .nil
  | cons b l ih =>
    rw [List.forall_mem_cons] at h
    have hb := h.1.1 pre (l.flatMap image ++ post)
    have hpos := List.length_pos_of_ne_nil h.1.2
    have htail := ih h.2 (pre ++ image b)
    simp only [List.append_assoc, List.length_append, List.flatMap_cons] at hb htail ⊢
    exact .cons hb rfl (by dsimp only; omega) (by simp only [List.length_append]; omega) htail

/-- Run again and again, `r` returns these values and then fails. -/
inductive RunsOut (r : Serial ε α) (e : ε) : Cursor → List α → Prop
  | nil {c : Cursor} (h : r c = .error e) : RunsOut r e c []
  | cons {c c' : Cursor} {a : α} {as : List α} (h : r c = .ok (a, c')) (htail : RunsOut r e c' as) :
      RunsOut r e c (a :: as)

theorem number_error {c : Cursor} (h : c.buf.length < c.pos + w) : number e w c = .error e := by
  have hnext : next e w c = .error e := if_neg (Nat.not_le_of_lt h)
  change (next e w c >>= fun p => pure (decode p.1, p.2)) = _
  rw [hnext]
  rfl

/-! ### Writing -/

/-- Writes at the position; `e` if the buffer would grow beyond the limit. -/
def write (e : ε) (limit : ℕ) (bytes : List UInt8) : Serial ε Unit := fun c =>
  if c.pos + bytes.length ≤ limit then
    .ok ((), ⟨c.buf.take c.pos ++ bytes ++ c.buf.drop (c.pos + bytes.length), c.pos + bytes.length⟩)
  else .error e

def seek (pos : ℕ) : Serial ε Unit := fun c => .ok ((), ⟨c.buf, pos⟩)

/-- The end of what was written. -/
def atEnd (buf : List UInt8) : Cursor := ⟨buf, buf.length⟩

/-- At the end of a buffer `r` adds the bytes and returns `a`, unless they do not fit. -/
def Writes (e : ε) (limit : ℕ) (r : Serial ε α) (bytes : List UInt8) (a : α) : Prop :=
  ∀ buf, buf.length ≤ limit → r (atEnd buf) =
    if buf.length + bytes.length ≤ limit then .ok (a, atEnd (buf ++ bytes)) else .error e

namespace Writes

variable {r : Serial ε α} {f : α → Serial ε β} {bytes bytes' : List UInt8} {a : α} {b : β}

theorem pure : Writes e limit (Pure.pure a : Serial ε α) [] a := by
  intro buf hbuf
  rw [List.length_nil, Nat.add_zero, if_pos hbuf, List.append_nil]
  rfl

theorem write : Writes e limit (Bytes.write e limit bytes) bytes () := by
  intro buf _
  have hd : buf.drop (buf.length + bytes.length) = [] := List.drop_eq_nil_of_le (Nat.le_add_right ..)
  simp [Bytes.write, atEnd, hd]

theorem bind (hr : Writes e limit r bytes a) (hf : Writes e limit (f a) bytes' b) :
    Writes e limit (r >>= f) (bytes ++ bytes') b := by
  intro buf hbuf
  change (r _ >>= fun p => f p.1 p.2) = _
  rw [hr buf hbuf, List.length_append]
  by_cases h : buf.length + bytes.length ≤ limit
  · rw [if_pos h]
    have hf' := hf (buf ++ bytes) (by rwa [List.length_append])
    rw [List.length_append, Nat.add_assoc, List.append_assoc] at hf'
    exact hf'
  · rw [if_neg h, if_neg (by omega)]
    rfl

theorem lift {x : Except ε α} (hx : x = .ok a) (hf : Writes e limit (f a) bytes b) :
    Writes e limit ((liftM x : Serial ε α) >>= f) bytes b := by
  subst hx
  exact hf

theorem bind_pure (hr : Writes e limit r bytes a) (hf : Writes e limit (f a) [] b) :
    Writes e limit (r >>= f) bytes b := by
  have h := hr.bind hf
  rwa [List.append_nil] at h

theorem repeated {r : α → Serial ε β} {image : α → List UInt8} {g : α → β} {as : List α}
    (h : ∀ a ∈ as, Writes e limit (r a) (image a) (g a)) :
    Writes e limit (Bytes.repeated r as) (as.flatMap image) (as.map g) := by
  induction as with
  | nil => exact .pure
  | cons a as ih =>
    simp only [List.forall_mem_cons] at h
    exact h.1.bind ((ih h.2).bind_pure .pure)

end Writes

/-- Overwriting bytes in the middle of the buffer. -/
theorem write_middle {pre mid mid' post : List UInt8} {c : Cursor}
    (hc : c = ⟨pre ++ mid ++ post, pre.length⟩) (hlen : mid'.length = mid.length)
    (hfit : (pre ++ mid ++ post).length ≤ limit) :
    write e limit mid' c = .ok ((), ⟨pre ++ mid' ++ post, pre.length + mid.length⟩) := by
  subst hc
  simp only [List.length_append] at hfit
  unfold write
  rw [if_pos (by dsimp only; omega)]
  simp [hlen]

end Bytes

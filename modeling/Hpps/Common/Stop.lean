import Hpps.Lib.Rows

/-! The ways in which the process ends early, and copies that stay inside allocated memory. -/
namespace Hpps

/-- What ends the process: the LOG_FATAL of a full table, a failed CHECK, or undefined behaviour, which is an
access outside the memory that was allocated or an `int` that overflows. -/
inductive Stop
  | fatal
  | check
  | memory
  deriving DecidableEq, Repr

variable {α β : Type}

theorem bind_eq_ok {x : Except Stop α} {f : α → Except Stop β} {b : β} :
    (x >>= f) = .ok b ↔ ∃ a, x = .ok a ∧ f a = .ok b := by
  cases x with
  | error e => exact ⟨fun h => (nomatch h), fun ⟨_, h, _⟩ => (nomatch h)⟩
  | ok a => exact ⟨fun h => ⟨a, rfl, h⟩, fun ⟨_, h, hf⟩ => by cases h; exact hf⟩

theorem bind_eq_error {x : Except Stop α} {f : α → Except Stop β} {e : Stop} :
    (x >>= f) = .error e ↔ x = .error e ∨ ∃ a, x = .ok a ∧ f a = .error e := by
  cases x with
  | error e' => exact ⟨fun h => .inl (by cases h; rfl), fun h => by rcases h with h | ⟨_, h, _⟩ <;> cases h; rfl⟩
  | ok a => exact ⟨fun h => .inr ⟨a, rfl, h⟩, fun h => by rcases h with h | ⟨_, h, hf⟩ <;> cases h; exact hf⟩

@[simp] theorem ok_bind {f : α → Except Stop β} {a : α} : (Except.ok a >>= f) = f a := rfl

theorem toOption_eq_some {x : Except Stop α} {a : α} : x.toOption = some a ↔ x = .ok a := by
  cases x <;> simp [Except.toOption]

/-- What each round of a loop keeps, the loop keeps. -/
theorem foldlM_induct {f : α → β → Except Stop α} {l : List β} {Q : α → Prop} {a b : α}
    (hround : ∀ a, ∀ x ∈ l, ∀ b, Q a → f a x = .ok b → Q b) (ha : Q a) (h : l.foldlM f a = .ok b) : Q b := by
  induction l generalizing a with
  | nil =>
    cases h
    exact ha
  | cons x l ih =>
    rw [List.foldlM_cons] at h
    obtain ⟨c, hc, h⟩ := bind_eq_ok.mp h
    exact ih (fun a y hy => hround a y (List.mem_cons_of_mem x hy)) (hround a x List.mem_cons_self c ha hc) h

/-- A loop that gets a result from each element. -/
theorem mapM_eq_ok {f : α → Except Stop β} {Q : α → β → Prop} {l : List α} (h : ∀ a ∈ l, ∃ b, f a = .ok b ∧ Q a b) :
    ∃ bs, l.mapM f = .ok bs ∧ bs.length = l.length ∧
      ∀ (i : ℕ) (a : α) (b : β), l[i]? = some a → bs[i]? = some b → Q a b := by
  induction l with
  | nil => exact ⟨[], rfl, rfl, by simp⟩
  | cons a l ih =>
    rw [List.forall_mem_cons] at h
    obtain ⟨⟨b, hb, hq⟩, h⟩ := h
    obtain ⟨bs, hbs, hlen, hall⟩ := ih h
    refine ⟨b :: bs, ?_, by simp [hlen], fun i a' b' ha' hb' => ?_⟩
    · rw [List.mapM_cons, hb, hbs]
      rfl
    · cases i with
      | zero =>
        cases ha'
        cases hb'
        exact hq
      | succ i => exact hall i a' b' ha' hb'

theorem mapM_map {f : α → Except Stop β} {h : α → β} {l : List α} (hf : ∀ a ∈ l, f a = .ok (h a)) :
    l.mapM f = .ok (l.map h) := by
  induction l with
  | nil => rfl
  | cons a l ih =>
    rw [List.forall_mem_cons] at hf
    rw [List.mapM_cons, hf.1, ok_bind, ih hf.2]
    rfl

/-- `++i` of an `int`. -/
def incr (i : ℕ) : Except Stop ℕ := if i + 1 < 2 ^ 31 then .ok (i + 1) else .error .memory

theorem incr_eq {i : ℕ} (h : i + 1 < 2 ^ 31) : incr i = .ok (i + 1) := if_pos h

theorem incr_eq_ok_iff {i j : ℕ} : incr i = .ok j ↔ i + 1 < 2 ^ 31 ∧ j = i + 1 := by
  unfold incr
  by_cases h : i + 1 < 2 ^ 31
  · rw [if_pos h, Except.ok.injEq]
    exact ⟨fun heq => ⟨h, heq.symm⟩, fun heq => heq.2.symm⟩
  · rw [if_neg h]
    exact ⟨by simp, fun heq => absurd heq.1 h⟩

/-- A loop over the elements of a list with an `int` index, which stands at `i`. -/
def forInt (f : α → ℕ → β → Except Stop α) : ℕ → α → List β → Except Stop α
  | _, a, [] => .ok a
  | i, a, x :: l => do
    let a ← f a i x
    let i ← incr i
    forInt f i a l

section ForInt

variable {f g : α → ℕ → β → Except Stop α} {i : ℕ} {a b : α} {l : List β}

/-- Below `2 ^ 31` rounds it is a loop over the elements and their positions. -/
theorem forInt_eq (h : i + l.length < 2 ^ 31) :
    forInt f i a l = (l.zipIdx i).foldlM (fun a p => f a p.2 p.1) a := by
  induction l generalizing i a with
  | nil => rfl
  | cons x l ih =>
    rw [List.length_cons] at h
    rw [forInt, List.zipIdx_cons, List.foldlM_cons]
    congr 1
    funext b
    rw [incr_eq (by omega), ok_bind, ih (by omega)]

/-- Rounds that cannot fail below `2 ^ 31`, as the invariant `Q` says. -/
theorem forInt_pure {h : α → ℕ → β → α} {Q : ℕ → α → Prop}
    (hround : ∀ i a x, Q i a → i + 1 < 2 ^ 31 → f a i x = .ok (h a i x) ∧ Q (i + 1) (h a i x)) (ha : Q i a)
    (hlt : i + l.length < 2 ^ 31) : forInt f i a l = .ok ((l.zipIdx i).foldl (fun a p => h a p.2 p.1) a) := by
  induction l generalizing i a with
  | nil => rfl
  | cons x l ih =>
    rw [List.length_cons] at hlt
    obtain ⟨hok, hnext⟩ := hround i a x ha (by omega)
    rw [forInt, hok, ok_bind, incr_eq (by omega), ok_bind, ih hnext (by omega), List.zipIdx_cons, List.foldl_cons]

/-- A loop that ends has had fewer than `2 ^ 31` rounds. -/
theorem lt_of_forInt (h : forInt f i a l = .ok b) (hi : i < 2 ^ 31) : i + l.length < 2 ^ 31 := by
  induction l generalizing i a with
  | nil => simpa using hi
  | cons x l ih =>
    obtain ⟨c, -, h⟩ := bind_eq_ok.mp h
    obtain ⟨j, hj, h⟩ := bind_eq_ok.mp h
    obtain ⟨hlt, rfl⟩ := incr_eq_ok_iff.mp hj
    have := ih h hlt
    rw [List.length_cons]
    omega

/-- What each round keeps, the loop keeps. -/
theorem forInt_induct {Q : α → Prop} (hround : ∀ a i, ∀ x ∈ l, ∀ b, Q a → f a i x = .ok b → Q b) (ha : Q a)
    (h : forInt f i a l = .ok b) : Q b := by
  induction l generalizing i a with
  | nil =>
    cases h
    exact ha
  | cons x l ih =>
    obtain ⟨c, hc, h⟩ := bind_eq_ok.mp h
    obtain ⟨j, -, h⟩ := bind_eq_ok.mp h
    exact ih (fun a i y hy => hround a i y (List.mem_cons_of_mem x hy)) (hround a i x List.mem_cons_self c ha hc) h

end ForInt

/-- A lookup that hits LOG_FATAL ends the process. -/
def orFatal (x : Option α) : Except Stop α := x.elim (.error .fatal) .ok

theorem orFatal_eq_ok_iff {x : Option α} {a : α} : orFatal x = .ok a ↔ x = some a := by
  cases x <;> simp [orFatal]

/-- `x` ends with a result that satisfies `P`, unless it hits LOG_FATAL. -/
def Yields (x : Except Stop α) (P : α → Prop) : Prop := x = .error .fatal ∨ ∃ a, x = .ok a ∧ P a

namespace Yields

variable {x : Except Stop α} {f : α → Except Stop β} {P Q : α → Prop} {R : β → Prop} {a : α}

theorem ok (h : P a) : Yields (.ok a) P := .inr ⟨a, rfl, h⟩

theorem bind (hx : Yields x P) (hf : ∀ a, P a → Yields (f a) R) : Yields (x >>= f) R := by
  rcases hx with rfl | ⟨a, rfl, ha⟩
  · exact .inl rfl
  · exact hf a ha

theorem mono (hx : Yields x P) (h : ∀ a, P a → Q a) : Yields x Q :=
  hx.imp_right fun ⟨a, ha, hp⟩ => ⟨a, ha, h a hp⟩

theorem self (hx : Yields x P) : Yields x fun a => x = .ok a ∧ P a :=
  hx.imp_right fun ⟨a, ha, hp⟩ => ⟨a, ha, ha, hp⟩

theorem orFatal (o : Option α) : Yields (orFatal o) fun a => o = some a := by
  cases o with
  | none => exact .inl rfl
  | some a => exact .ok rfl

end Yields

/-- `x` does not hit LOG_FATAL, and its result satisfies `P`. -/
def Survives (x : Except Stop α) (P : α → Prop) : Prop := x ≠ .error .fatal ∧ ∀ a, x = .ok a → P a

namespace Survives

variable {x : Except Stop α} {f : α → Except Stop β} {P Q : α → Prop} {R : β → Prop} {a : α} {e : Stop}

theorem ok (h : P a) : Survives (.ok a) P := ⟨by simp, fun b hb => by cases hb; exact h⟩

theorem self (h : x ≠ .error .fatal) : Survives x fun a => x = .ok a := ⟨h, fun _ ha => ha⟩

theorem stop (h : e ≠ .fatal) : Survives (.error e) P := ⟨by simpa using h, fun a ha => by cases ha⟩

theorem bind (hx : Survives x P) (hf : ∀ a, P a → Survives (f a) R) : Survives (x >>= f) R := by
  cases x with
  | error e => exact stop fun h => hx.1 (by rw [h])
  | ok a => exact hf a (hx.2 a rfl)

theorem incr {i : ℕ} : Survives (incr i) fun _ => True := by
  unfold Hpps.incr
  split
  · exact ok trivial
  · exact stop (by simp)

theorem forInt {f : α → ℕ → β → Except Stop α} {l : List β} {i : ℕ}
    (hround : ∀ a i, ∀ b ∈ l, P a → Survives (f a i b) P) (ha : P a) : Survives (forInt f i a l) P := by
  induction l generalizing a i with
  | nil => exact ok ha
  | cons b l ih =>
    exact (hround a i b List.mem_cons_self ha).bind fun c hc => incr.bind fun j _ =>
      ih (fun a i b hb => hround a i b (List.mem_cons_of_mem _ hb)) hc

end Survives

/-- `memcpy` into allocated memory. -/
def memcpy (dst : List α) (n : ℕ) (src : List α) : Except Stop (List α) :=
  if n + src.length ≤ dst.length then .ok (Rows.overwrite dst n src) else .error .memory

/-- Reads `len` values of allocated memory. -/
def fetch (src : List α) (n len : ℕ) : Except Stop (List α) :=
  if n + len ≤ src.length then .ok ((src.drop n).take len) else .error .memory

theorem fetch_append {l m r : List α} {n len : ℕ} (hn : l.length = n) (hlen : m.length = len) :
    fetch (l ++ m ++ r) n len = .ok m := by
  subst hn hlen
  unfold fetch
  rw [if_pos (by simp)]
  simp

theorem memcpy_ne_fatal {dst src : List α} {n : ℕ} : memcpy dst n src ≠ .error .fatal := by
  unfold memcpy
  split <;> simp

theorem survives_memcpy {dst src : List α} {n : ℕ} : Survives (memcpy dst n src) fun _ => True :=
  ⟨memcpy_ne_fatal, fun _ _ => trivial⟩

theorem survives_fetch {src : List α} {n len : ℕ} : Survives (fetch src n len) fun _ => True := by
  unfold fetch
  split
  · exact .ok trivial
  · exact .stop (by simp)

theorem memcpy_eq_ok_iff {dst src r : List α} {n : ℕ} :
    memcpy dst n src = .ok r ↔ n + src.length ≤ dst.length ∧ Rows.overwrite dst n src = r := by
  unfold memcpy
  split <;> simp [*]

theorem length_memcpy {dst src r : List α} {n : ℕ} (h : memcpy dst n src = .ok r) : r.length = dst.length := by
  obtain ⟨hle, rfl⟩ := memcpy_eq_ok_iff.mp h
  exact Rows.length_overwrite hle

/-- Filling an array from the left: what was not filled yet is overwritten. -/
theorem memcpy_append {l m src : List α} {n : ℕ} (hn : l.length = n) (hs : src.length ≤ m.length) :
    memcpy (l ++ m) n src = .ok (l ++ src ++ m.drop src.length) := by
  rw [memcpy_eq_ok_iff, Rows.overwrite_append hn, List.length_append]
  exact ⟨by omega, rfl⟩

end Hpps

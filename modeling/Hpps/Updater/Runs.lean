import Hpps.Updater.Updater

/-! Sequences of calls of one updater. -/
namespace Hpps

open Rows

/-- The arguments of `Update` but for the data. -/
structure UpdateCall (T : Type) where
  option : AddOption T
  numElement : ℕ
  delta : List T
  offset : ℕ

namespace UpdateCall

variable {T : Type} (c : UpdateCall T) (i : ℕ)

/-- Whether the call updates the data at index `i`. -/
def covers : Bool := c.offset ≤ i ∧ i < c.offset + c.numElement

/-- The delta for the data at index `i`. -/
def deltaAt [Zero T] : T := c.delta.getD (i - c.offset) 0

/-- The call stays within the data and within its own deltas. -/
def Fits (size : ℕ) : Prop := c.offset + c.numElement ≤ size ∧ c.numElement ≤ c.delta.length

theorem covers_iff : c.covers i = true ↔ c.offset ≤ i ∧ i < c.offset + c.numElement := by simp [covers]

end UpdateCall

variable {T : Type} [Field T] {n offset i : ℕ} {xs ds : List T}

theorem getD_zipWith (f : T → T → T) {k : ℕ} (hx : k < xs.length) (hd : k < ds.length) :
    (List.zipWith f xs ds).getD k 0 = f (xs.getD k 0) (ds.getD k 0) := by
  rw [List.getD_eq_getElem?_getD, List.getD_eq_getElem?_getD, List.getD_eq_getElem?_getD, List.getElem?_zipWith,
    List.getElem?_eq_getElem hx, List.getElem?_eq_getElem hd]
  rfl

theorem fetch_at (xs : List T) (h : offset + n ≤ xs.length) :
    ∃ l, fetch xs offset n = .ok l ∧ l.length = n ∧ ∀ k < n, l.getD k 0 = xs.getD (offset + k) 0 := by
  refine ⟨_, if_pos h, by rw [List.length_take, List.length_drop]; omega, fun k hk => ?_⟩
  rw [List.getD_eq_getElem?_getD, List.getD_eq_getElem?_getD, List.getElem?_take_of_lt hk, List.getElem?_drop]

/-- The loop changes what it covers, and nothing else. -/
theorem eachWith_at (f : T → T → T) (xs ds : List T) (hx : offset + n ≤ xs.length) (hd : n ≤ ds.length) :
    ∃ r, eachWith f n offset xs ds = .ok r ∧ r.length = xs.length ∧ ∀ i, r.getD i 0 =
      if offset ≤ i ∧ i < offset + n then f (xs.getD i 0) (ds.getD (i - offset) 0) else xs.getD i 0 := by
  obtain ⟨x, hxe, hxl, hxat⟩ := fetch_at xs hx
  obtain ⟨d, hde, hdl, hdat⟩ := fetch_at ds (show 0 + n ≤ ds.length by omega)
  have hz : (List.zipWith f x d).length = n := by rw [List.length_zipWith, hxl, hdl, min_self]
  have hroom : offset + (List.zipWith f x d).length ≤ xs.length := by omega
  refine ⟨overwrite xs offset (List.zipWith f x d), ?_, length_overwrite hroom, fun i => ?_⟩
  · rw [eachWith, hxe, ok_bind, hde, ok_bind, memcpy_eq_ok_iff]
    exact ⟨hroom, rfl⟩
  · rw [List.getD_eq_getElem?_getD, getElem?_overwrite hroom, hz]
    split
    · rename_i hi
      have hk : i - offset < n := by omega
      have hfx := hxat (i - offset) hk
      have hfd := hdat (i - offset) hk
      rw [Nat.add_sub_cancel' hi.1] at hfx
      rw [Nat.zero_add] at hfd
      rw [← hfx, ← hfd, ← getD_zipWith f (hxl.symm ▸ hk) (hdl.symm ▸ hk), List.getD_eq_getElem?_getD]
    · rw [List.getD_eq_getElem?_getD]

namespace Updater

variable (numWorkers : ℕ) (sqrt : T → T)

def apply (st : Updater T × List T) (c : UpdateCall T) : Except Stop (Updater T × List T) :=
  st.1.update numWorkers sqrt c.numElement st.2 c.delta c.option c.offset

def run (st : Updater T × List T) (cs : List (UpdateCall T)) : Except Stop (Updater T × List T) :=
  cs.foldlM (apply numWorkers sqrt) st

variable {numWorkers sqrt} {st : Updater T × List T} {c : UpdateCall T} {cs : List (UpdateCall T)}

theorem run_concat : run numWorkers sqrt st (cs ++ [c]) = run numWorkers sqrt st cs >>= fun st => apply numWorkers sqrt st c := by
  simp [run]

end Updater
end Hpps

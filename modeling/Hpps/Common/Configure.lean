import Hpps.Common.Stop
import Hpps.Lib.Compaction

/-! `ParseCMDFlags`: the flags of the command line. -/
namespace Hpps.Configure

open Compaction

abbrev Text := List Char

/-! ### `atoi` and `strtod` -/

def isSpace (c : Char) : Bool := c ∈ [' ', '\t', '\n', '\x0b', '\x0c', '\r']

def sign : Text → Bool × Text
  | '-' :: t => (true, t)
  | '+' :: t => (false, t)
  | t => (false, t)

def digit (base : ℕ) (c : Char) : Option ℕ :=
  let d := if '0' ≤ c ∧ c ≤ '9' then c.toNat - '0'.toNat
    else if 'a' ≤ c.toLower ∧ c.toLower ≤ 'f' then c.toLower.toNat - 'a'.toNat + 10 else base
  if d < base then some d else none

/-- The digits at the beginning of a text, and what follows them. -/
def digits (base : ℕ) : Text → List ℕ × Text
  | [] => ([], [])
  | c :: t =>
    match digit base c with
    | some d => (d :: (digits base t).1, (digits base t).2)
    | none => ([], c :: t)

def ofDigits (base : ℕ) (ds : List ℕ) : ℕ := ds.foldl (fun n d => n * base + d) 0

def signed (neg : Bool) (n : ℕ) : ℤ := if neg then -n else n

/-- The decimal number at the beginning of a text; 0 if there is none. -/
def decimal (t : Text) : ℤ :=
  let (neg, t) := sign (t.dropWhile isSpace)
  signed neg (ofDigits 10 (digits 10 t).1)

/-- A number beyond a `long` becomes the last one there is. -/
def strtol (t : Text) : ℤ := max (-2 ^ 63) (min (decimal t) (2 ^ 63 - 1))

/-- `atoi` converts the `long` to an `int`. -/
def atoi (t : Text) : Int32 := .ofInt (strtol t)

/-- What `strtod` rounds to a double. -/
inductive Number
  | nan
  | inf (neg : Bool)
  | finite (neg : Bool) (abs : ℚ)
  deriving DecidableEq

/-- The exponent, if one follows. -/
def exponent (mark : Char) : Text → ℤ
  | c :: t => if c.toLower = mark then signed (sign t).1 (ofDigits 10 (digits 10 (sign t).2).1) else 0
  | [] => 0

/-- Digits with a point somewhere, scaled by an exponent. A digit after the point divides by `base`. -/
def magnitude (base expBase : ℕ) (mark : Char) (t : Text) : Option ℚ :=
  let (whole, t) := digits base t
  let (fraction, t) := match t with
    | '.' :: t => digits base t
    | t => ([], t)
  if whole = [] ∧ fraction = [] then none
  else some (ofDigits base (whole ++ fraction) / base ^ fraction.length * (expBase : ℚ) ^ exponent mark t)

def startsWith (word t : Text) : Bool := word.isPrefixOf (t.map Char.toLower)

/-- The number at the beginning of a text; 0 if there is none. -/
def strtod (t : Text) : Number :=
  let (neg, t) := sign (t.dropWhile isSpace)
  if startsWith ['i', 'n', 'f'] t then .inf neg
  else if startsWith ['n', 'a', 'n'] t then .nan
  else
    match if startsWith ['0', 'x'] t then magnitude 16 2 'p' (t.drop 2) else none with
    | some abs => .finite neg abs
    | none => (magnitude 10 10 'e' t).elim (.finite false 0) (.finite neg)

/-! ### The registers -/

/-- Used to register and keep flags. -/
structure FlagRegister (T : Type) where
  commands : Text → Option T

namespace FlagRegister

variable {T : Type} (r : FlagRegister T) (key : Text) (value : T)

def RegisterFlag : FlagRegister T := ⟨Function.update r.commands key (some value)⟩

/-- Sets the value of a flag if it is in the list. -/
def SetFlagIfFound : Option (FlagRegister T) :=
  if (r.commands key).isSome then some ⟨Function.update r.commands key (some value)⟩ else none

end FlagRegister

/-- `D` are the doubles. -/
structure Flags (D : Type) where
  string : FlagRegister Text
  int : FlagRegister Int32
  double : FlagRegister D
  bool : FlagRegister Bool

/-- The arguments, how many of them are not consumed so far, and the flags. -/
structure State (D : Type) where
  argv : List Text
  unused : ℕ
  flags : Flags D

variable {D : Type} (round : Number → D) (flags : Flags D) (line : Text)

/-- `line.substr(1, pos - 1)`, which goes to the end of the line when `pos` is 0. -/
def keyOf : Text :=
  let pos := line.idxOf '='
  if pos = 0 then line.drop 1 else (line.drop 1).take (pos - 1)

/-- `line.substr(pos + 1)`. -/
def valueOf : Text := line.drop (line.idxOf '=' + 1)

def isTrue (value : Text) : Bool := value.map Char.toLower = ['t', 'r', 'u', 'e']

/-- The four registers are tried in order. `strtod` is given the line, not the value. -/
def setFlag (key value : Text) : Option (Flags D) :=
  match flags.string.SetFlagIfFound key value with
  | some r => some { flags with string := r }
  | none =>
    match flags.int.SetFlagIfFound key (atoi value) with
    | some r => some { flags with int := r }
    | none =>
      match flags.double.SetFlagIfFound key (round (strtod line)) with
      | some r => some { flags with double := r }
      | none => (flags.bool.SetFlagIfFound key (isTrue value)).map fun r => { flags with bool := r }

/-- The flags after the line, if it is consumed. -/
def parseLine : Except Stop (Option (Flags D)) :=
  if '-' ∈ line then
    if '=' ∈ line then .ok (setFlag round flags line (keyOf line) (valueOf line))
    else .error .check
  else .ok none

/-- One round of the loop. -/
def parseOne (st : State D) (i : ℕ) : Except Stop (State D) :=
  match st.argv[i]? with
  | none => .error .memory
  | some line =>
    match parseLine round st.flags line with
    | .error e => .error e
    | .ok (some flags) => .ok { st with flags := flags }
    | .ok none => .ok { st with argv := swap st.argv st.unused i, unused := st.unused + 1 }

/-- `*argc` becomes `unused`. -/
def ParseCMDFlags (argv : List Text) : Except Stop (State D) :=
  (List.range argv.length).foldlM (parseOne round) ⟨argv, 0, flags⟩

/-! ### What the caller expects -/

/-- An argument of the form `-key=value`, with the first `=`. -/
def cut : Text → Option (Text × Text)
  | '-' :: t => if '=' ∈ t then some (t.take (t.idxOf '='), t.drop (t.idxOf '=' + 1)) else none
  | _ => none

def registered (key : Text) : Bool :=
  (flags.string.commands key).isSome || (flags.int.commands key).isSome || (flags.double.commands key).isSome ||
    (flags.bool.commands key).isSome

/-- The argument sets a registered flag. -/
def isFlag : Bool := (cut line).any fun kv => registered flags kv.1

/-- The text after the first `=` in the last argument that has this key. -/
def lastValue (argv : List Text) (key : Text) : Option Text :=
  (argv.filterMap fun line => (cut line).bind fun kv => if kv.1 = key then some kv.2 else none).getLast?

/-- The flags with new values for some keys. A key that two registers have stands for the first of them. -/
def assign (string : Text → Option Text) (int : Text → Option Int32) (double : Text → Option D) (bool : Text → Option Bool) :
    Flags D where
  string := ⟨fun key => (flags.string.commands key).map fun old => (string key).getD old⟩
  int := ⟨fun key => (flags.int.commands key).map fun old =>
    if (flags.string.commands key).isSome then old else (int key).getD old⟩
  double := ⟨fun key => (flags.double.commands key).map fun old =>
    if (flags.string.commands key).isSome ∨ (flags.int.commands key).isSome then old else (double key).getD old⟩
  bool := ⟨fun key => (flags.bool.commands key).map fun old =>
    if (flags.string.commands key).isSome ∨ (flags.int.commands key).isSome ∨ (flags.double.commands key).isSome
    then old else (bool key).getD old⟩

/-- The flags after the arguments, each with the value of the last argument that names it. -/
def taken (argv : List Text) : Flags D :=
  assign flags (lastValue argv) (fun key => (lastValue argv key).map atoi)
    (fun key => (lastValue argv key).map fun value => round (strtod value))
    (fun key => (lastValue argv key).map isTrue)

/-- A flag that is an int, and no string. -/
def isInt (key : Text) : Bool := (flags.int.commands key).isSome && !(flags.string.commands key).isSome

/-- The flags are taken out of the arguments, and nothing else. An int is the number that its value begins with. -/
def TakesFlags (argv : List Text) : Prop :=
  ∃ st, ParseCMDFlags round flags argv = .ok st ∧ st.argv.Perm argv ∧
    st.unused = (argv.filter fun line => !isFlag flags line).length ∧
    st.argv.take st.unused = (argv.filter fun line => !isFlag flags line) ∧ st.flags = taken round flags argv ∧
    ∀ key value, isInt flags key → lastValue argv key = some value →
      (st.flags.int.commands key).map Int32.toInt = some (decimal value)

/-- A flag that is a double, and no string or int. -/
def isDouble (key : Text) : Bool :=
  (flags.double.commands key).isSome && !(flags.string.commands key).isSome && !(flags.int.commands key).isSome

structure Parseable (argv : List Text) : Prop where
  assigned : ∀ line ∈ argv, '-' ∈ line → '=' ∈ line
  dashed : ∀ line ∈ argv, '-' ∈ line → '=' ∈ line → registered flags (keyOf line) → line.head? = some '-'
  double : ∀ key value, isDouble flags key → lastValue argv key = some value →
    round (strtod ('-' :: (key ++ '=' :: value))) = round (strtod value)
  int : ∀ key value, isInt flags key → lastValue argv key = some value →
    -2 ^ 31 ≤ decimal value ∧ decimal value < 2 ^ 31

variable {round flags line} {argv : List Text} {key value : Text}

theorem toInt_atoi_iff : (atoi value).toInt = decimal value ↔ -2 ^ 31 ≤ decimal value ∧ decimal value < 2 ^ 31 := by
  constructor
  · intro h
    rw [← h]
    exact ⟨Int32.le_toInt _, Int32.toInt_lt _⟩
  · rintro ⟨hle, hlt⟩
    have hlong : strtol value = decimal value := by
      unfold strtol
      omega
    rw [atoi, hlong]
    exact Int32.toInt_ofInt_of_le hle hlt

theorem idxOf_append_cons {l r : Text} {c : Char} (h : c ∉ l) : (l ++ c :: r).idxOf c = l.length := by
  rw [List.idxOf_append_of_notMem h, List.idxOf_cons_self, Nat.add_zero]

theorem cut_eq_some : cut line = some (key, value) ↔ line = '-' :: (key ++ '=' :: value) ∧ '=' ∉ key := by
  constructor
  · intro h
    unfold cut at h
    split at h
    · rename_i t
      split at h
      · rename_i hmem
        cases h
        obtain ⟨l, r, rfl, hl⟩ := List.eq_append_cons_of_mem hmem
        rw [idxOf_append_cons hl]
        simp [hl]
      · cases h
    · cases h
  · rintro ⟨rfl, hkey⟩
    simp [cut, idxOf_append_cons hkey]

/-- The code cuts an argument of this form in the same way. -/
theorem keyOf_cut (h : '=' ∉ key) :
    keyOf ('-' :: (key ++ '=' :: value)) = key ∧ valueOf ('-' :: (key ++ '=' :: value)) = value := by
  have hidx : ('-' :: (key ++ '=' :: value)).idxOf '=' = key.length + 1 := by
    rw [List.idxOf_cons_ne _ (by decide), idxOf_append_cons h]
  rw [keyOf, valueOf, hidx]
  simp

/-! ### What the loop does -/

theorem registered_assign {string : Text → Option Text} {int : Text → Option Int32} {double : Text → Option D}
    {bool : Text → Option Bool} : registered (assign flags string int double bool) key = registered flags key := by
  simp [registered, assign]

theorem getD_or {T : Type} {x y : Option T} {old : T} : (x.or y).getD old = x.getD (y.getD old) := by
  cases x <;> rfl

/-- Later values replace earlier ones. -/
theorem assign_assign {string string' : Text → Option Text} {int int' : Text → Option Int32}
    {double double' : Text → Option D} {bool bool' : Text → Option Bool} :
    assign (assign flags string int double bool) string' int' double' bool' =
      assign flags (fun key => (string' key).or (string key)) (fun key => (int' key).or (int key))
        (fun key => (double' key).or (double key)) fun key => (bool' key).or (bool key) := by
  simp only [assign, Option.map_map, Option.isSome_map, getD_or, Function.comp_def]
  congr 3 <;> funext key <;> congr 1 <;> funext old <;> split <;> rfl

/-- Only the values of registered keys matter. -/
theorem assign_congr {string string' : Text → Option Text} {int int' : Text → Option Int32}
    {double double' : Text → Option D} {bool bool' : Text → Option Bool}
    (h1 : ∀ key, (flags.string.commands key).isSome → string key = string' key)
    (h2 : ∀ key, (flags.int.commands key).isSome → int key = int' key)
    (h3 : ∀ key, isDouble flags key → double key = double' key)
    (h4 : ∀ key, (flags.bool.commands key).isSome → bool key = bool' key) :
    assign flags string int double bool = assign flags string' int' double' bool' := by
  unfold assign
  congr 2
  · funext key
    cases h : flags.string.commands key with
    | none => rfl
    | some old => simp [h1 key (by simp [h])]
  · funext key
    cases h : flags.int.commands key with
    | none => rfl
    | some old => simp [h2 key (by simp [h])]
  · funext key
    cases h : flags.double.commands key with
    | none => rfl
    | some old =>
      by_cases hmore : (flags.string.commands key).isSome ∨ (flags.int.commands key).isSome
      · simp [hmore]
      · have hdouble : isDouble flags key = true := by simpa [isDouble, h] using hmore
        simp [hmore, h3 key hdouble]
  · funext key
    cases h : flags.bool.commands key with
    | none => rfl
    | some old => simp [h4 key (by simp [h])]

/-- One key gets a value. -/
def only {T : Type} (key : Text) (value : T) (k : Text) : Option T := if k = key then some value else none

/-- A register that an earlier one shadows, or that does not have the key, is not changed. -/
theorem unchanged {T : Type} (r : FlagRegister T) (value : T) (c : Text → Prop) [DecidablePred c]
    (hc : (r.commands key).isSome → c key) :
    r = ⟨fun k => (r.commands k).map fun old => if c k then old else (only key value k).getD old⟩ := by
  refine congrArg FlagRegister.mk (funext fun k => ?_)
  cases h : r.commands k with
  | none => rfl
  | some old =>
    by_cases hk : k = key
    · subst hk
      simp [hc (by simp [h])]
    · simp [only, hk]

theorem changed {T : Type} {r : FlagRegister T} (value : T) (c : Text → Prop) [DecidablePred c]
    (h : (r.commands key).isSome) (hc : ¬ c key) :
    (⟨Function.update r.commands key (some value)⟩ : FlagRegister T) =
      ⟨fun k => (r.commands k).map fun old => if c k then old else (only key value k).getD old⟩ := by
  refine congrArg FlagRegister.mk (funext fun k => ?_)
  by_cases hk : k = key
  · subst hk
    obtain ⟨old, hold⟩ := Option.isSome_iff_exists.mp h
    simp [only, hold, hc]
  · simp [only, hk]

/-- A key is set in the first register that has it. -/
theorem setFlag_eq : setFlag round flags line key value =
    if registered flags key then some (assign flags (only key value) (only key (atoi value))
      (only key (round (strtod line))) (only key (isTrue value)))
    else none := by
  have hstring : (flags.string.commands key).isSome = false → flags.string =
      ⟨fun k => (flags.string.commands k).map fun old => (only key value k).getD old⟩ := by
    intro h
    simpa using unchanged flags.string value (fun _ => False) (by simp [h])
  unfold setFlag FlagRegister.SetFlagIfFound registered assign
  by_cases h1 : (flags.string.commands key).isSome
  · simp only [h1, if_true, Bool.true_or]
    congr 2
    · simpa using changed value (fun _ => False) h1 (by simp)
    · exact unchanged _ _ _ fun _ => h1
    · exact unchanged _ _ _ fun _ => .inl h1
    · exact unchanged _ _ _ fun _ => .inl h1
  · by_cases h2 : (flags.int.commands key).isSome
    · simp only [h1, h2, Bool.false_eq_true, if_false, if_true, Bool.true_or, Bool.or_true]
      congr 2
      · exact hstring (by simpa using h1)
      · exact changed _ _ h2 h1
      · exact unchanged _ _ _ fun _ => .inr h2
      · exact unchanged _ _ _ fun _ => .inr (.inl h2)
    · by_cases h3 : (flags.double.commands key).isSome
      · simp only [h1, h2, h3, Bool.false_eq_true, if_false, if_true, Bool.true_or, Bool.or_true]
        congr 2
        · exact hstring (by simpa using h1)
        · exact unchanged _ _ _ fun h => absurd h h2
        · exact changed _ _ h3 (by simp [h1, h2])
        · exact unchanged _ _ _ fun _ => .inr (.inr h3)
      · by_cases h4 : (flags.bool.commands key).isSome
        · simp only [h1, h2, h3, h4, Bool.false_eq_true, if_false, if_true, Bool.or_true, Option.map_some]
          congr 2
          · exact hstring (by simpa using h1)
          · exact unchanged _ _ _ fun h => absurd h h2
          · exact unchanged _ _ _ fun h => absurd h h3
          · exact changed _ _ h4 (by simp [h1, h2, h3])
        · simp [h1, h2, h3, h4]

/-- The code finds this key in the line. -/
def names (line key : Text) : Bool := '-' ∈ line ∧ '=' ∈ line ∧ keyOf line = key

/-- The line does not stay in the arguments. -/
def consumed (flags : Flags D) (line : Text) : Bool := '-' ∈ line ∧ '=' ∈ line ∧ registered flags (keyOf line)

def lastLine (argv : List Text) (key : Text) : Option Text := (argv.filter fun line => names line key).getLast?

/-- The flags after the lines that the code consumes. -/
def after (round : Number → D) (flags : Flags D) (argv : List Text) : Flags D :=
  assign flags (fun key => (lastLine argv key).map valueOf) (fun key => (lastLine argv key).map (atoi ∘ valueOf))
    (fun key => (lastLine argv key).map (round ∘ strtod)) fun key => (lastLine argv key).map (isTrue ∘ valueOf)

theorem lastLine_append : lastLine (argv ++ [line]) key = if names line key then some line else lastLine argv key := by
  unfold lastLine
  rw [List.filter_append]
  cases h : names line key <;> simp [h]

theorem registered_of_isSome {r : Bool} (h : r = (flags.string.commands key).isSome ∨
    r = (flags.int.commands key).isSome ∨ r = (flags.double.commands key).isSome ∨
    r = (flags.bool.commands key).isSome) (hr : r = true) : registered flags key = true := by
  rcases h with rfl | rfl | rfl | rfl <;> simp [registered, hr]

/-- A line that stays changes no flag. -/
theorem after_keep (h : consumed flags line = false) : after round flags (argv ++ [line]) = after round flags argv := by
  have hlast : ∀ key, registered flags key = true → lastLine (argv ++ [line]) key = lastLine argv key := by
    intro key hreg
    rw [lastLine_append, if_neg]
    intro hnames
    simp only [names, decide_eq_true_eq] at hnames
    simp only [consumed, decide_eq_false_iff_not] at h
    exact h ⟨hnames.1, hnames.2.1, hnames.2.2 ▸ hreg⟩
  unfold after
  refine assign_congr (fun key h => ?_) (fun key h => ?_) (fun key h => ?_) fun key h => ?_
  · rw [hlast key (registered_of_isSome (.inl rfl) h)]
  · rw [hlast key (registered_of_isSome (.inr (.inl rfl)) h)]
  · rw [hlast key]
    simp only [isDouble, Bool.and_eq_true] at h
    exact registered_of_isSome (.inr (.inr (.inl rfl))) h.1.1
  · rw [hlast key (registered_of_isSome (.inr (.inr (.inr rfl))) h)]

/-- A line that is consumed is the last one of its key. -/
theorem after_consume (hdash : '-' ∈ line) (heq : '=' ∈ line) :
    assign (after round flags argv) (only (keyOf line) (valueOf line)) (only (keyOf line) (atoi (valueOf line)))
      (only (keyOf line) (round (strtod line))) (only (keyOf line) (isTrue (valueOf line))) =
    after round flags (argv ++ [line]) := by
  have hor : ∀ {T : Type} (f : Text → T) (key : Text), (only (keyOf line) (f line) key).or ((lastLine argv key).map f) =
      (lastLine (argv ++ [line]) key).map f := by
    intro T f key
    rw [lastLine_append, only]
    by_cases h : key = keyOf line
    · simp [h, names, hdash, heq]
    · rw [if_neg h, if_neg (by simp [names, hdash, heq, Ne.symm h]), Option.none_or]
  rw [after, assign_assign, after]
  congr 1 <;> funext key
  · exact hor valueOf key
  · exact hor (atoi ∘ valueOf) key
  · exact hor (round ∘ strtod) key
  · exact hor (isTrue ∘ valueOf) key

/-- The state after the first `i` arguments. -/
structure Inv (round : Number → D) (flags : Flags D) (argv : List Text) (i : ℕ) (st : State D) : Prop where
  compacted : Compacted (fun line => !consumed flags line) argv i st.argv st.unused
  flags : st.flags = after round flags (argv.take i)

variable {i : ℕ} {st st' : State D}

theorem parseOne_spec (h : Inv round flags argv i st) (hi : argv[i]? = some line) :
    if '-' ∈ line → '=' ∈ line then ∃ st', parseOne round st i = .ok st' ∧ Inv round flags argv (i + 1) st'
    else parseOne round st i = .error .check := by
  have hget := h.compacted.get.trans hi
  have htake := (take_succ_of_get hi).1
  have hreg : registered st.flags (keyOf line) = registered flags (keyOf line) := by
    rw [h.flags]
    exact registered_assign
  unfold parseOne parseLine
  rw [hget]
  by_cases hdash : '-' ∈ line
  · by_cases heq : '=' ∈ line
    · rw [if_pos fun _ => heq]
      simp only [hdash, heq, if_true, setFlag_eq, hreg]
      by_cases hkey : registered flags (keyOf line) = true
      · rw [if_pos hkey]
        refine ⟨_, rfl, h.compacted.skip hi (by simp [consumed, hdash, heq, hkey]), ?_⟩
        dsimp only
        rw [h.flags, after_consume hdash heq, htake]
      · rw [if_neg hkey]
        refine ⟨_, rfl, h.compacted.keep hi (by simp [consumed, hkey]), ?_⟩
        rw [htake, after_keep (by simp [consumed, hkey])]
        exact h.flags
    · simp [hdash, heq]
  · simp only [hdash, false_implies, if_true, if_false]
    refine ⟨_, rfl, h.compacted.keep hi (by simp [consumed, hdash]), ?_⟩
    rw [htake, after_keep (by simp [consumed, hdash])]
    exact h.flags

theorem inv_zero : Inv round flags argv 0 ⟨argv, 0, flags⟩ where
  compacted := compacted_zero
  flags := by
    simp only [List.take_zero, after, lastLine, List.filter_nil, List.getLast?_nil, Option.map_none, assign,
      Option.getD_none, ite_self, Option.map_id']

/-- The loop comes to its end if and only if every argument with a `-` has a `=`. -/
theorem loop_spec (round : Number → D) (flags : Flags D) (argv : List Text) (hi : i ≤ argv.length) :
    if ∀ line ∈ argv.take i, '-' ∈ line → '=' ∈ line then
      ∃ st, (List.range i).foldlM (parseOne round) ⟨argv, 0, flags⟩ = .ok st ∧ Inv round flags argv i st
    else (List.range i).foldlM (parseOne round) ⟨argv, 0, flags⟩ = .error .check := by
  induction i with
  | zero =>
    rw [if_pos (by simp)]
    exact ⟨_, rfl, inv_zero⟩
  | succ i ih =>
    have hget : argv[i]? = some (argv[i]) := List.getElem?_eq_getElem hi
    have htake := (take_succ_of_get hget).1
    have ih := ih (by omega)
    rw [List.range_succ, List.foldlM_append, htake]
    by_cases hall : ∀ line ∈ argv.take i, '-' ∈ line → '=' ∈ line
    · rw [if_pos hall] at ih
      obtain ⟨st, hst, hinv⟩ := ih
      have hstep := parseOne_spec hinv hget
      rw [hst, ok_bind]
      by_cases hline : '-' ∈ argv[i] → '=' ∈ argv[i]
      · rw [if_pos hline] at hstep
        obtain ⟨st', hst', hinv'⟩ := hstep
        rw [if_pos]
        · exact ⟨st', by simp [hst'], hinv'⟩
        · intro line hmem
          rcases List.mem_append.mp hmem with hmem | hmem
          · exact hall line hmem
          · rw [List.mem_singleton.mp hmem]
            exact hline
      · rw [if_neg hline] at hstep
        rw [if_neg fun h => hline (h _ (List.mem_append_right _ List.mem_cons_self))]
        simp [hstep]
    · rw [if_neg hall] at ih
      rw [ih, if_neg fun h => hall fun line hmem => h line (List.mem_append_left _ hmem)]
      rfl

/-! ### When the caller's expectations are met -/

theorem isFlag_iff : isFlag flags line = true ↔ consumed flags line = true ∧ line.head? = some '-' := by
  constructor
  · intro h
    unfold isFlag at h
    cases hc : cut line with
    | none => simp [hc] at h
    | some kv =>
      obtain ⟨key, value⟩ := kv
      obtain ⟨rfl, hkey⟩ := cut_eq_some.mp hc
      rw [hc, Option.any_some] at h
      refine ⟨?_, rfl⟩
      rw [consumed, (keyOf_cut hkey).1]
      simp [h]
  · rintro ⟨h, hhead⟩
    simp only [consumed, decide_eq_true_eq] at h
    obtain ⟨c, t, rfl⟩ := List.exists_cons_of_ne_nil (List.ne_nil_of_mem h.1)
    obtain rfl : c = '-' := by simpa using hhead
    have hmem : '=' ∈ t := by simpa using h.2.1
    obtain ⟨key, value, rfl, hkey⟩ := List.eq_append_cons_of_mem hmem
    have hkeyOf : keyOf ('-' :: (key ++ '=' :: value)) = key := (keyOf_cut hkey).1
    rw [isFlag, show cut ('-' :: (key ++ '=' :: value)) = some (key, value) from cut_eq_some.mpr ⟨rfl, hkey⟩,
      Option.any_some]
    exact hkeyOf ▸ h.2.2

/-- If only flags are consumed, the last line of a key is the last argument that sets it. -/
theorem lastValue_eq (hdashed : ∀ line ∈ argv, consumed flags line = true → line.head? = some '-')
    (hreg : registered flags key = true) : lastValue argv key = (lastLine argv key).map valueOf := by
  induction argv using List.reverseRecOn with
  | nil => rfl
  | append_singleton argv line ih =>
    have ih := ih fun line hmem => hdashed line (List.mem_append_left _ hmem)
    rw [lastLine_append]
    unfold lastValue at ih ⊢
    rw [List.filterMap_append]
    by_cases hnames : names line key = true
    · have hcons : consumed flags line = true := by
        simp only [names, decide_eq_true_eq] at hnames
        simp [consumed, hnames, hreg]
      obtain ⟨⟨k, value⟩, hcut⟩ : ∃ kv, cut line = some kv := by
        have := isFlag_iff.mpr ⟨hcons, hdashed line (by simp) hcons⟩
        unfold isFlag at this
        cases h : cut line with
        | none => simp [h] at this
        | some kv => exact ⟨kv, rfl⟩
      obtain ⟨rfl, hk⟩ := cut_eq_some.mp hcut
      simp only [names, decide_eq_true_eq, (keyOf_cut hk).1] at hnames
      obtain rfl := hnames.2.2
      simp [hcut, names, (keyOf_cut hk).1, (keyOf_cut hk).2]
    · rw [if_neg hnames, ← ih]
      have hnone : ((cut line).bind fun kv => if kv.1 = key then some kv.2 else none) = none := by
        cases hcut : cut line with
        | none => rfl
        | some kv =>
          obtain ⟨k, value⟩ := kv
          obtain ⟨rfl, hk⟩ := cut_eq_some.mp hcut
          rw [Option.bind_some, if_neg]
          rintro rfl
          exact hnames (by simp [names, (keyOf_cut hk).1])
      simp [hnone]

theorem lastLine_of_lastValue (hdashed : ∀ line ∈ argv, consumed flags line = true → line.head? = some '-')
    (hreg : registered flags key = true) (h : lastValue argv key = some value) :
    lastLine argv key = some ('-' :: (key ++ '=' :: value)) := by
  rw [lastValue_eq hdashed hreg, Option.map_eq_some_iff] at h
  obtain ⟨line, hline, rfl⟩ := h
  obtain ⟨hmem, hnames⟩ := List.mem_filter.mp (List.mem_of_getLast? hline)
  simp only [names, decide_eq_true_eq] at hnames
  obtain ⟨hdash, heq, hkey⟩ := hnames
  have hcons : consumed flags line = true := by simp [consumed, hdash, heq, hkey, hreg]
  obtain ⟨c, t, rfl⟩ := List.exists_cons_of_ne_nil (List.ne_nil_of_mem hdash)
  obtain rfl : c = '-' := by simpa using hdashed _ hmem hcons
  have ht : '=' ∈ t := by simpa using heq
  obtain ⟨k, value, rfl, hk⟩ := List.eq_append_cons_of_mem ht
  obtain rfl := (keyOf_cut hk).1.symm.trans hkey
  rw [hline, (keyOf_cut hk).2]

theorem registered_of_isDouble (h : isDouble flags key = true) : registered flags key = true := by
  simp only [isDouble, Bool.and_eq_true] at h
  exact registered_of_isSome (.inr (.inr (.inl rfl))) h.1.1

theorem taken_of_parseable (h : Parseable round flags argv) : after round flags argv = taken round flags argv := by
  have hdashed : ∀ line ∈ argv, consumed flags line = true → line.head? = some '-' := by
    intro line hmem hcons
    simp only [consumed, decide_eq_true_eq] at hcons
    exact h.dashed line hmem hcons.1 hcons.2.1 hcons.2.2
  unfold after taken
  refine assign_congr (fun key hk => ?_) (fun key hk => ?_) (fun key hk => ?_) fun key hk => ?_
  · rw [lastValue_eq hdashed (registered_of_isSome (.inl rfl) hk)]
  · rw [lastValue_eq hdashed (registered_of_isSome (.inr (.inl rfl)) hk), Option.map_map]
  · cases hv : lastValue argv key with
    | none =>
      rw [lastValue_eq hdashed (registered_of_isDouble hk), Option.map_eq_none_iff] at hv
      rw [hv]
      rfl
    | some value =>
      rw [lastLine_of_lastValue hdashed (registered_of_isDouble hk) hv, Option.map_some, Option.map_some]
      exact congrArg some (h.double key value hk hv)
  · rw [lastValue_eq hdashed (registered_of_isSome (.inr (.inr (.inr rfl))) hk), Option.map_map]

theorem double_of_taken (hdashed : ∀ line ∈ argv, consumed flags line = true → line.head? = some '-')
    (h : after round flags argv = taken round flags argv) (hkey : isDouble flags key = true)
    (hv : lastValue argv key = some value) :
    round (strtod ('-' :: (key ++ '=' :: value))) = round (strtod value) := by
  have hlast := lastLine_of_lastValue hdashed (registered_of_isDouble hkey) hv
  have hat := congrFun (congrArg (fun f => f.double.commands) h) key
  simp only [isDouble, Bool.and_eq_true, Bool.not_eq_true'] at hkey
  obtain ⟨old, hold⟩ := Option.isSome_iff_exists.mp hkey.1.1
  simpa [after, taken, assign, hlast, hv, hold, hkey] using hat

theorem int_taken (hkey : isInt flags key = true) (hv : lastValue argv key = some value) :
    (taken round flags argv).int.commands key = some (atoi value) := by
  simp only [isInt, Bool.and_eq_true, Bool.not_eq_true'] at hkey
  obtain ⟨old, hold⟩ := Option.isSome_iff_exists.mp hkey.1
  simp [taken, assign, hv, hold, hkey]

/-- The command line is parsed as expected if and only if each argument with a `-` has a `=`, none that does not
begin with `-` is cut into the name of a flag, `strtod` finds the same double in the last argument for a flag as in
its value, and the last value of an int fits in 32 bits. -/
theorem takes_flags_iff (round : Number → D) (flags : Flags D) (argv : List Text) :
    TakesFlags round flags argv ↔ Parseable round flags argv := by
  have hspec := loop_spec round flags argv le_rfl
  rw [List.take_length] at hspec
  constructor
  · rintro ⟨st, hst, -, -, htake, hflags, hint⟩
    by_cases hall : ∀ line ∈ argv, '-' ∈ line → '=' ∈ line
    · rw [if_pos hall] at hspec
      obtain ⟨st', hst', hinv⟩ := hspec
      cases hst.symm.trans hst'
      have hdashed : ∀ line ∈ argv, consumed flags line = true → line.head? = some '-' := by
        intro line hmem hcons
        by_contra hhead
        have hstay : line ∈ argv.filter fun line => !isFlag flags line := by
          refine List.mem_filter.mpr ⟨hmem, ?_⟩
          rw [Bool.not_eq_true', Bool.eq_false_iff]
          exact fun hflag => hhead (isFlag_iff.mp hflag).2
        rw [← htake, hinv.compacted.done.1] at hstay
        have := (List.mem_filter.mp hstay).2
        rw [hcons] at this
        cases this
      have hafter : after round flags argv = taken round flags argv := by
        rw [← hflags, hinv.flags, List.take_length]
      refine ⟨hall, fun line hmem hdash heq hreg => hdashed line hmem (by simp [consumed, hdash, heq, hreg]),
        fun key value hkey hv => double_of_taken hdashed hafter hkey hv, fun key value hkey hv => ?_⟩
      have hvalue := hint key value hkey hv
      rw [hflags, int_taken hkey hv, Option.map_some, Option.some.injEq] at hvalue
      exact toInt_atoi_iff.mp hvalue
    · rw [if_neg hall] at hspec
      cases hst.symm.trans hspec
  · intro h
    rw [if_pos h.assigned] at hspec
    obtain ⟨st, hst, hinv⟩ := hspec
    obtain ⟨htake, hunused, hperm⟩ := hinv.compacted.done
    have hfilter : (argv.filter fun line => !consumed flags line) = argv.filter fun line => !isFlag flags line := by
      refine List.filter_congr fun line hmem => ?_
      congr 1
      rw [Bool.eq_iff_iff, isFlag_iff]
      refine ⟨fun hcons => ⟨hcons, ?_⟩, And.left⟩
      simp only [consumed, decide_eq_true_eq] at hcons
      exact h.dashed line hmem hcons.1 hcons.2.1 hcons.2.2
    rw [hfilter] at htake hunused
    have hflags : st.flags = taken round flags argv := by
      rw [hinv.flags, List.take_length, taken_of_parseable h]
    refine ⟨st, hst, hperm, hunused, htake, hflags, fun key value hkey hv => ?_⟩
    rw [hflags, int_taken hkey hv, Option.map_some, toInt_atoi_iff.mpr (h.int key value hkey hv)]

/-- An argument with a `-` in it ends the process. -/
theorem takes_flags_fails : ¬ ∀ (round : Number → Number) (flags : Flags Number) (argv : List Text),
    TakesFlags round flags argv := by
  intro hall
  obtain ⟨st, hst, -⟩ := hall id ⟨⟨fun _ => none⟩, ⟨fun _ => none⟩, ⟨fun _ => none⟩, ⟨fun _ => none⟩⟩ [['a', '-', 'b']]
  cases hst

/-- A double flag whose name cannot be taken for a number is set to zero, whatever its value. -/
theorem strtod_dash {c : Char} {t : Text} (hdigit : digit 10 c = none) (hpoint : c ≠ '.')
    (hword : c.toLower ∉ ['i', 'n', '0']) : strtod ('-' :: c :: t) = .finite false 0 := by
  have hstart : ∀ (d : Char) (word : Text), d ∈ ['i', 'n', '0'] → startsWith (d :: word) (c :: t) = false := by
    intro d word hd
    have hne : d ≠ c.toLower := fun heq => hword (heq ▸ hd)
    simp [startsWith, List.isPrefixOf, hne]
  have hdash : ('-' :: c :: t).dropWhile isSpace = '-' :: c :: t := by rw [List.dropWhile_cons_of_neg (by decide)]
  have hmag : magnitude 10 10 'e' (c :: t) = none := by simp [magnitude, digits, hdigit, hpoint]
  rw [strtod, hdash, sign]
  simp [hstart, hmag]

example : strtod ['-', 'r', '=', '5'] = .finite false 0 := strtod_dash (by decide) (by decide) (by decide)

end Hpps.Configure

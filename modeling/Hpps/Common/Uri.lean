import Hpps.Common.Configure

/-! The URI of a file, and the path that it is opened by. -/
namespace Hpps

open Configure

/-- `find`: where the pattern occurs first. -/
def findFirst (pat : Text) : Text → Option ℕ
  | [] => if pat.isEmpty then some 0 else none
  | c :: cs => if pat.isPrefixOf (c :: cs) then some 0 else (findFirst pat cs).map (· + 1)

theorem findFirst_eq_some {pat s : Text} {i : ℕ} (h : findFirst pat s = some i) :
    s = s.take i ++ pat ++ s.drop (i + pat.length) := by
  induction s generalizing i with
  | nil =>
    rw [findFirst] at h
    split at h
    · rename_i hempty
      cases h
      rw [List.isEmpty_iff.mp hempty]
      rfl
    · cases h
  | cons c cs ih =>
    rw [findFirst] at h
    split at h
    · rename_i hpre
      cases h
      obtain ⟨rest, hrest⟩ := List.isPrefixOf_iff_prefix.mp hpre
      rw [← hrest]
      simp
    · obtain ⟨j, hj, rfl⟩ := Option.map_eq_some_iff.mp h
      have hcs := ih hj
      rw [List.take_succ_cons, Nat.add_right_comm, List.drop_succ_cons, List.cons_append, List.cons_append, ← hcs]

theorem findFirst_char {c : Char} {s t : Text} (h : c ∉ s) : findFirst [c] (s ++ c :: t) = some s.length := by
  induction s with
  | nil => simp [findFirst, List.isPrefixOf]
  | cons d s ih =>
    rw [List.mem_cons, not_or] at h
    rw [List.cons_append, findFirst, if_neg (by simpa [List.isPrefixOf] using h.1), ih h.2]
    rfl

structure URI where
  scheme : Text
  host : Text
  name : Text
  path : Text
  deriving DecidableEq, Repr

namespace URI

def file : Text := ['f', 'i', 'l', 'e']

def hdfs : Text := ['h', 'd', 'f', 's']

def default : Text := ['d', 'e', 'f', 'a', 'u', 'l', 't']

/-- `"://"` -/
def authority : Text := [':', '/', '/']

/-- The scheme, and where the host starts. -/
def splitScheme (uri : Text) : Text × ℕ :=
  match findFirst authority uri with
  | none => (file, 0)
  | some pos => (uri.take pos, pos + 3)

/-- The host, and where the name starts. -/
def splitHost (scheme rest : Text) : Text × ℕ :=
  match findFirst ['/'] rest with
  | none => (if scheme = hdfs then default else [], 0)
  | some pos => (rest.take pos, pos)

def new (uri : Text) : URI :=
  let (scheme, start) := splitScheme uri
  let (host, length) := splitHost scheme (uri.drop start)
  let host := if scheme = hdfs ∧ host.length = 0 then default else host
  let name := uri.drop (start + length)
  ⟨scheme, host, name, if scheme = hdfs then scheme ++ authority ++ host ++ name else uri⟩

variable {uri host name : Text}

/-- A host of which the path can be read again. -/
def hostOr (host : Text) : Text := if host.length = 0 then default else host

theorem splitScheme_hdfs (rest : Text) : splitScheme (hdfs ++ authority ++ rest) = (hdfs, 7) := rfl

/-- A URI of the file system with a host and a name. -/
theorem new_hdfs (hhost : '/' ∉ host) : new (hdfs ++ authority ++ (host ++ '/' :: name)) =
    ⟨hdfs, hostOr host, '/' :: name, hdfs ++ authority ++ hostOr host ++ '/' :: name⟩ := by
  have hdrop : (hdfs ++ authority ++ (host ++ '/' :: name)).drop 7 = host ++ '/' :: name := rfl
  have hsplit : splitHost hdfs (host ++ '/' :: name) = (host, host.length) := by
    rw [splitHost, findFirst_char hhost]
    simp
  have hname : (hdfs ++ authority ++ (host ++ '/' :: name)).drop (7 + host.length) = '/' :: name := by
    rw [← List.drop_drop, hdrop, List.drop_left' rfl]
  simp only [new, splitScheme_hdfs, hdrop, hsplit, hname, true_and, if_true]
  rfl

/-- A URI of the file system without a name. -/
theorem new_hdfs_bare (hhost : '/' ∉ host) : new (hdfs ++ authority ++ host) =
    ⟨hdfs, default, host, hdfs ++ authority ++ default ++ host⟩ := by
  have hdrop : (hdfs ++ authority ++ host).drop 7 = host := rfl
  have hnone : findFirst ['/'] host = none := by
    by_contra hsome
    obtain ⟨i, hi⟩ := Option.ne_none_iff_exists'.mp hsome
    apply hhost
    rw [findFirst_eq_some hi]
    simp
  have hsplit : splitHost hdfs host = (default, 0) := by
    rw [splitHost, hnone]
    rfl
  simp only [new, splitScheme_hdfs, hdrop, hsplit, Nat.add_zero, if_true]
  rfl

theorem slash_not_mem_hostOr (h : '/' ∉ host) : '/' ∉ hostOr host := by
  unfold hostOr
  split
  · decide
  · exact h

theorem hostOr_hostOr : hostOr (hostOr host) = hostOr host := by
  by_cases h : host.length = 0
  · have heq : hostOr host = default := if_pos h
    rw [heq]
    rfl
  · have heq : hostOr host = host := if_neg h
    rw [heq, heq]

/-- The scheme is the file system's for the URIs that name it. -/
theorem exists_of_scheme (h : (new uri).scheme = hdfs) : ∃ rest, uri = hdfs ++ authority ++ rest := by
  have hscheme : (splitScheme uri).1 = hdfs := h
  rw [splitScheme] at hscheme
  split at hscheme
  · cases hscheme
  · rename_i pos hpos
    have huri := findFirst_eq_some hpos
    dsimp only at hscheme
    rw [hscheme] at huri
    exact ⟨_, huri⟩

theorem path_of_scheme (h : (new uri).scheme ≠ hdfs) : (new uri).path = uri := if_neg h

/-- What the path of a URI is read as again: the same, unless the URI names the file system and has no '/' behind its
host, which is then taken for the name. -/
theorem new_path_eq_iff (uri : Text) :
    new (new uri).path = new uri ↔ ((new uri).scheme = hdfs → '/' ∈ uri.drop 7) := by
  by_cases hscheme : (new uri).scheme = hdfs
  · obtain ⟨rest, rfl⟩ := exists_of_scheme hscheme
    have hdrop : (hdfs ++ authority ++ rest).drop 7 = rest := rfl
    rw [hdrop]
    by_cases hslash : '/' ∈ rest
    · refine iff_of_true ?_ fun _ => hslash
      obtain ⟨host, name, rfl, hhost⟩ := List.eq_append_cons_of_mem hslash
      rw [new_hdfs hhost]
      dsimp only
      rw [List.append_assoc, new_hdfs (slash_not_mem_hostOr hhost), hostOr_hostOr, ← List.append_assoc]
    · refine iff_of_false (fun heq => ?_) fun h => hslash (h hscheme)
      rw [new_hdfs_bare hslash] at heq
      dsimp only at heq
      rw [List.append_assoc, new_hdfs_bare (by simpa [default] using hslash)] at heq
      have hlen := congrArg (fun u => u.name.length) heq
      dsimp only at hlen
      rw [List.length_append] at hlen
      simp [default] at hlen
  · rw [path_of_scheme hscheme]
    exact iff_of_true rfl fun h => absurd h hscheme

/-- The name is lost where it is read again. -/
example : (new (hdfs ++ authority ++ ['n'])).path = hdfs ++ authority ++ default ++ ['n'] := rfl

end URI
end Hpps

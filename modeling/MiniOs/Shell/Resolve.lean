import Mathlib.Data.List.Basic
import MiniOs.Lib.Fields
import MiniOs.Shell.JobTable
import MiniOs.Shell.Paths

/-!
# Finding a command

Two searches that were written separately: `resolve_command` of `exec.c` returns the path
that a command is run from, and `locate_one` of `locate.c` prints all paths at which a
command is found. The first takes `PATH` apart with `strtok`, which skips empty entries,
and joins each entry with the name as it stands; the second scans `PATH` for colons and
makes an absolute path of every entry.

The file system is a predicate on the files that paths denote: which of them are
executable and no directories.
-/

namespace MiniOs.Shell

open Fields

variable {dir : List Byte}

structure SearchEnv where
  /-- The files that are executable and no directories. -/
  executable : List (List Byte) → Bool
  /-- The current directory. -/
  cwd : List Byte
  /-- What `getcwd` returns. -/
  getcwd : Option (List Byte)
  /-- The variable `PATH`. -/
  path : Option (List Byte)

def checkExecutable (env : SearchEnv) (path : List Byte) : Bool :=
  path.length < pathMax && !namesDir path && env.executable (denoted env.cwd path)

/-- `check_exec` of `locate.c`, the same function. -/
def checkExec : SearchEnv → List Byte → Bool := checkExecutable

/-! ## `resolve_command` -/

/-- `strtok(s, ":")`: a token, and what is left to take apart. -/
def strtok (s : List Byte) : Option (List Byte × List Byte) :=
  let s := s.dropWhile (· = Byte.colon)
  if s = [] then none else some ((cut Byte.colon s).getD (s, []))

theorem length_strtok_lt {s : List Byte} {t : List Byte × List Byte} (h : strtok s = some t) :
    t.2.length < s.length := by
  have hle : (s.dropWhile (· = Byte.colon)).length ≤ s.length :=
    (List.dropWhile_sublist _).length_le
  simp only [strtok] at h
  split at h
  · cases h
  · next hne =>
    cases h
    have hpos := List.length_pos_of_ne_nil hne
    cases hcut : cut Byte.colon (s.dropWhile (· = Byte.colon)) with
    | none =>
      show ([] : List Byte).length < _
      rw [List.length_nil]
      omega
    | some c =>
      have hlt := length_cut_lt hcut
      show c.2.length < _
      omega

/-- The loop over the tokens of `PATH`. -/
def searchPath (env : SearchEnv) (lookup s : List Byte) : Option (List Byte) :=
  match _h : strtok s with
  | none => none
  | some t =>
    let fullpath := snprintf pathMax (t.1 ++ Byte.slash :: lookup)
    if checkExecutable env fullpath then some fullpath else searchPath env lookup t.2
termination_by s.length
decreasing_by exact length_strtok_lt _h

/-- The search in the current directory. -/
def searchCwd (env : SearchEnv) (lookup : List Byte) : Option (List Byte) :=
  match env.getcwd with
  | none => none
  | some cwd =>
    let fullpath := cwd ++ Byte.slash :: lookup
    if fullpath.length < pathMax && checkExecutable env fullpath then some fullpath else none

def resolveCommand (env : SearchEnv) (name : List Byte) : Option (List Byte) :=
  if name = [] then none
  else if Byte.slash ∈ name then
    if checkExecutable env name then some name else none
  else if name.head? = some Byte.percent then env.path.bind (searchPath env name.tail)
  else (searchCwd env name).or (env.path.bind (searchPath env name))

/-! ## `locate_one` -/

/-- The directory without its trailing slashes. -/
def stripSlashes (dir : List Byte) : List Byte :=
  if 1 < dir.length ∧ dir.getLast? = some Byte.slash then stripSlashes dir.dropLast else dir
termination_by dir.length
decreasing_by
  simp only [List.length_dropLast]
  omega

/-- The current directory as it is put in front; a bare slash counts for nothing. -/
def cwdPart (cwd : List Byte) : List Byte := if cwd = [Byte.slash] then [] else cwd

/-- The text that `build_candidate` prints. -/
def candidateText (cwd dir name : List Byte) : List Byte :=
  if dir = [] ∨ dir = [Byte.dot] then cwdPart cwd ++ Byte.slash :: name
  else if dir.head? = some Byte.slash then
    (if dir.length = 1 then [] else dir) ++ Byte.slash :: name
  else cwdPart cwd ++ Byte.slash :: (dir ++ Byte.slash :: name)

def buildCandidate (dir : List Byte) (cwd : Option (List Byte)) (name : List Byte) :
    Option (List Byte) :=
  let dir := stripSlashes dir
  if dir.head? ≠ some Byte.slash ∧ cwd = none then none
  else
    let text := candidateText (cwd.getD []) dir name
    if text.length < pathMax then some text else none

/-- The lines that one entry of `PATH` makes `locate_one` print. -/
def locateEntry (env : SearchEnv) (name dir : List Byte) : List (List Byte) :=
  ((buildCandidate dir env.getcwd name).filter (checkExec env)).toList

/-- The loop over the entries of `PATH`. -/
def locateLoop (env : SearchEnv) (name entry : List Byte) : List (List Byte) :=
  match _h : cut Byte.colon entry with
  | none => locateEntry env name entry
  | some c => locateEntry env name c.1 ++ locateLoop env name c.2
termination_by entry.length
decreasing_by exact length_cut_lt _h

/-- What `locate_one` prints, and whether it found anything. -/
structure Located where
  printed : List (List Byte)
  found : Bool
  deriving DecidableEq, Repr

def locateOne (env : SearchEnv) (name : List Byte) : Located :=
  let printed := locateEntry env name [] ++
    match env.path with
    | none => []
    | some path => locateLoop env name path
  ⟨printed, !printed.isEmpty⟩

/-! ## The loops -/

section Loops

variable {env : SearchEnv} {name path : List Byte}

theorem strtok_of_fields (s : List Byte) :
    (strtok s = none ∧ fields Byte.colon s = []) ∨
    ∃ d rest, strtok s = some (d, rest) ∧ fields Byte.colon s = d :: fields Byte.colon rest := by
  induction s with
  | nil => exact .inl ⟨rfl, rfl⟩
  | cons c s ih =>
    by_cases hc : c = Byte.colon
    · have hstrtok : strtok (c :: s) = strtok s := by simp [strtok, hc]
      rw [hstrtok, hc, fields_cons_sep]
      exact ih
    · have hdrop : (c :: s).dropWhile (· = Byte.colon) = c :: s := by simp [hc]
      have hstrtok : strtok (c :: s) = some ((cut Byte.colon (c :: s)).getD (c :: s, [])) := by
        simp only [strtok, hdrop]
        exact if_neg (List.cons_ne_nil c s)
      right
      by_cases hmem : Byte.colon ∈ c :: s
      · obtain ⟨p, r, heq, hp⟩ := List.eq_append_cons_of_mem hmem
        have hne : p ≠ [] := by
          intro h
          rw [h, List.nil_append] at heq
          exact hc (List.cons.inj heq).1
        refine ⟨p, r, ?_, ?_⟩
        · rw [hstrtok, heq, cut_append hp, Option.getD_some]
        · rw [heq, fields_append, fields_of_notMem hp hne, List.singleton_append]
      · refine ⟨c :: s, [], ?_, ?_⟩
        · rw [hstrtok, cut_of_notMem hmem, Option.getD_none]
        · rw [fields_of_notMem hmem (List.cons_ne_nil c s), fields_nil]

/-- `resolve_command` takes the first entry that has the command; empty entries count for
    nothing. -/
theorem searchPath_eq (env : SearchEnv) (name s : List Byte) :
    searchPath env name s =
      ((fields Byte.colon s).map fun d => snprintf pathMax (d ++ Byte.slash :: name)).find?
        (checkExecutable env) := by
  induction hn : s.length using Nat.strongRecOn generalizing s with
  | _ n ih =>
  subst hn
  rw [searchPath]
  obtain ⟨hnone, hfields⟩ | ⟨d, rest, hsome, hfields⟩ := strtok_of_fields s
  · rw [hfields]
    split
    · rfl
    · next t ht => simp [hnone] at ht
  · rw [hfields]
    split
    · next ht => simp [hsome] at ht
    · next t ht =>
      obtain rfl : (d, rest) = t := Option.some.inj (hsome.symm.trans ht)
      rw [ih rest.length (length_strtok_lt hsome) rest rfl, List.map_cons, List.find?_cons]
      dsimp only
      split <;> simp [*]

theorem locateLoop_eq (env : SearchEnv) (name s : List Byte) :
    locateLoop env name s = (split Byte.colon s).flatMap (locateEntry env name) := by
  induction hn : s.length using Nat.strongRecOn generalizing s with
  | _ n ih =>
  subst hn
  rw [locateLoop]
  by_cases hmem : Byte.colon ∈ s
  · obtain ⟨p, r, rfl, hp⟩ := List.eq_append_cons_of_mem hmem
    have hcut := cut_append (r := r) hp
    split
    · next hc => simp [hcut] at hc
    · next c hc =>
      obtain rfl : (p, r) = c := Option.some.inj (hcut.symm.trans hc)
      rw [ih r.length (length_cut_lt hcut) r rfl, split_append_of_notMem hp, List.flatMap_cons]
  · have hcut := cut_of_notMem hmem
    rw [split_of_notMem hmem]
    split
    · simp
    · next c hc => simp [hcut] at hc

end Loops

/-! ## The candidates -/

section Candidates

variable {env : SearchEnv} {cwd dir name : List Byte}

theorem stripSlashes_spec (dir : List Byte) :
    components (stripSlashes dir) = components dir ∧ (stripSlashes dir).head? = dir.head? := by
  induction hn : dir.length using Nat.strongRecOn generalizing dir with
  | _ n ih =>
  subst hn
  rw [stripSlashes]
  split
  · next h =>
    obtain ⟨hlen, hlast⟩ := h
    obtain ⟨e, rfl⟩ : ∃ e, dir = e ++ [Byte.slash] :=
      ⟨dir.dropLast, (List.dropLast_append_getLast? _ hlast).symm⟩
    rw [List.dropLast_concat]
    obtain ⟨hcomp, hhead⟩ := ih e.length (by simp) e rfl
    have hne : e ≠ [] := by
      rintro rfl
      simp at hlen
    refine ⟨?_, ?_⟩
    · rw [hcomp, components_append, components_nil, List.append_nil]
    · rw [hhead, List.head?_append_of_ne_nil _ hne]
  · exact ⟨rfl, rfl⟩

theorem head?_cwdPart_append (hcwd : cwd.head? = some Byte.slash) (l : List Byte) :
    (cwdPart cwd ++ Byte.slash :: l).head? = some Byte.slash := by
  unfold cwdPart
  split
  · rfl
  · have hne : cwd ≠ [] := by
      rintro rfl
      cases hcwd
    rw [List.head?_append_of_ne_nil _ hne, hcwd]

theorem components_cwdPart (cwd : List Byte) : components (cwdPart cwd) = components cwd := by
  unfold cwdPart
  split
  · next h => rw [h, components_slash, components_nil]
  · rfl

/-- The path that `locate_one` makes of an entry denotes the same file as the entry joined
    with the name. -/
theorem denoted_candidateText (hcwd : cwd.head? = some Byte.slash) (hdir : dir ≠ []) :
    denoted cwd (candidateText cwd (stripSlashes dir) name) =
      denoted cwd (dir ++ Byte.slash :: name) := by
  obtain ⟨hcomp, hhead⟩ := stripSlashes_spec dir
  have hjoin : (dir ++ Byte.slash :: name).head? = dir.head? := List.head?_append_of_ne_nil _ hdir
  have hnil : stripSlashes dir ≠ [] := by
    intro h
    rw [h] at hhead
    exact hdir (List.head?_eq_none_iff.mp hhead.symm)
  by_cases hdot : stripSlashes dir = [Byte.dot]
  · -- The entry is the current directory itself.
    have htext : candidateText cwd (stripSlashes dir) name = cwdPart cwd ++ Byte.slash :: name :=
      if_pos (.inr hdot)
    have hrel : dir.head? ≠ some Byte.slash := by
      rw [← hhead, hdot]
      decide
    rw [hdot, components_dot] at hcomp
    rw [htext, denoted, denoted, hjoin, if_pos (head?_cwdPart_append hcwd name), if_neg hrel,
      components_append, components_append, components_cwdPart, ← hcomp, List.nil_append]
  · have htext : candidateText cwd (stripSlashes dir) name =
        if dir.head? = some Byte.slash then
          (if (stripSlashes dir).length = 1 then [] else stripSlashes dir) ++ Byte.slash :: name
        else cwdPart cwd ++ Byte.slash :: (stripSlashes dir ++ Byte.slash :: name) := by
      rw [← hhead]
      exact if_neg (by simp [hnil, hdot])
    by_cases habs : dir.head? = some Byte.slash
    · rw [htext, denoted, denoted, hjoin, if_pos habs, if_pos habs, components_append dir]
      split
      · next hlen =>
        obtain ⟨c, hc⟩ := List.length_eq_one_iff.mp hlen
        have hslash : stripSlashes dir = [Byte.slash] := by
          rw [hc, habs] at hhead
          rw [hc, Option.some.inj hhead]
        rw [← hcomp, hslash, components_slash, List.nil_append, List.nil_append]
        exact if_pos rfl
      · rw [List.head?_append_of_ne_nil _ hnil, hhead, if_pos habs, components_append, hcomp]
    · rw [htext, denoted, denoted, hjoin, if_neg habs, if_neg habs,
        if_pos (head?_cwdPart_append hcwd _), components_append, components_append,
        components_append, components_cwdPart, hcomp]

theorem denoted_candidateText_nil (hcwd : cwd.head? = some Byte.slash) :
    denoted cwd (candidateText cwd [] name) = denoted cwd (cwd ++ Byte.slash :: name) := by
  have hne : cwd ≠ [] := by
    rintro rfl
    cases hcwd
  have htext : candidateText cwd [] name = cwdPart cwd ++ Byte.slash :: name := if_pos (.inl rfl)
  rw [htext, denoted, denoted, if_pos (head?_cwdPart_append hcwd name),
    List.head?_append_of_ne_nil _ hne, if_pos hcwd, components_append, components_append,
    components_cwdPart]

theorem namesDir_candidateText (cwd dir name : List Byte) :
    namesDir (candidateText cwd dir name) = namesDir name := by
  unfold candidateText
  split
  · exact namesDir_append _ _
  · split
    · exact namesDir_append _ _
    · rw [namesDir_append, namesDir_append]

/-- Two paths that fit and denote the same file are checked alike. -/
theorem checkExecutable_congr {p q : List Byte} (hp : p.length < pathMax) (hq : q.length < pathMax)
    (hdir : namesDir p = namesDir q) (hfile : denoted env.cwd p = denoted env.cwd q) :
    checkExecutable env p = checkExecutable env q := by
  simp [checkExecutable, hp, hq, hdir, hfile]

end Candidates

/-! ## Paths that are cut off -/

section Truncation

variable {dir name p : List Byte}

theorem namesDir_of_notMem (hp : Byte.slash ∉ p) :
    namesDir p = decide (p = [] ∨ p = [Byte.dot]) := by
  rw [namesDir, split_of_notMem hp]
  simp

theorem components_of_notMem (hp : Byte.slash ∉ p) (hdir : namesDir p = false) :
    components p = [p] := by
  rw [namesDir_of_notMem hp, decide_eq_false_iff_not, not_or] at hdir
  rw [components, fields_of_notMem hp hdir.1]
  simp [hdir.2]

theorem length_components_le (hdir : namesDir p = false) (q : List Byte) :
    (components p).length ≤ (components (p ++ q)).length := by
  induction hn : p.length using Nat.strongRecOn generalizing p with
  | _ n ih =>
  subst hn
  by_cases hp : Byte.slash ∈ p
  · obtain ⟨a, r, rfl, -⟩ := List.eq_append_cons_of_mem hp
    rw [namesDir_append] at hdir
    have hle := ih r.length (by simp; omega) hdir rfl
    rw [List.append_assoc, List.cons_append, components_append, components_append,
      List.length_append, List.length_append]
    omega
  · -- the last component may grow, but it does not vanish
    have hgrown : ∀ v, Byte.slash ∉ v → components (p ++ v) = [p ++ v] := by
      intro v hv
      have hpv : Byte.slash ∉ p ++ v := by simp [hp, hv]
      rw [namesDir_of_notMem hp, decide_eq_false_iff_not, not_or] at hdir
      refine components_of_notMem hpv ?_
      rw [namesDir_of_notMem hpv, decide_eq_false_iff_not, not_or]
      refine ⟨fun h => hdir.1 (List.append_eq_nil_iff.mp h).1, fun h => ?_⟩
      obtain ⟨hnil, -⟩ | ⟨hdot, -⟩ := List.append_eq_singleton_iff.mp h
      · exact hdir.1 hnil
      · exact hdir.2 hdot
    rw [components_of_notMem hp hdir]
    by_cases hq : Byte.slash ∈ q
    · obtain ⟨v, r, rfl, hv⟩ := List.eq_append_cons_of_mem hq
      rw [← List.append_assoc, components_append, hgrown v hv]
      simp
    · rw [hgrown q hq]
      simp

/-- **A path that is cut off denotes another file**, if it can denote one that is no directory. -/
theorem components_snprintf_ne (hslash : Byte.slash ∉ name) (hname : namesDir name = false)
    (hlong : pathMax ≤ (dir ++ Byte.slash :: name).length)
    (hdir : namesDir (snprintf pathMax (dir ++ Byte.slash :: name)) = false) :
    components (snprintf pathMax (dir ++ Byte.slash :: name)) ≠
      components (dir ++ Byte.slash :: name) := by
  rw [components_append, components_of_notMem hslash hname]
  rw [List.length_append, List.length_cons] at hlong
  by_cases hle : pathMax - 1 ≤ dir.length
  · -- the cut is in the entry, and the name is missing
    have hcut : snprintf pathMax (dir ++ Byte.slash :: name) = dir.take (pathMax - 1) :=
      List.take_append_of_le_length hle
    rw [hcut] at hdir ⊢
    intro heq
    have hlen := length_components_le hdir (dir.drop (pathMax - 1))
    rw [List.take_append_drop, heq, List.length_append, List.length_singleton] at hlen
    omega
  · -- the cut is in the name
    obtain ⟨k, hk⟩ : ∃ k, pathMax - 1 = dir.length + (k + 1) :=
      ⟨pathMax - 1 - dir.length - 1, by omega⟩
    have hcut : snprintf pathMax (dir ++ Byte.slash :: name) =
        dir ++ Byte.slash :: name.take k := by
      rw [snprintf, hk, List.take_length_add_append, List.take_succ_cons]
    have htake : Byte.slash ∉ name.take k := fun h => hslash (List.mem_of_mem_take h)
    rw [hcut, namesDir_append] at hdir
    rw [hcut, components_append, components_of_notMem htake hdir]
    intro heq
    have hlen := congrArg List.length (List.singleton_inj.mp (List.append_cancel_left heq))
    rw [List.length_take] at hlen
    omega

end Truncation

/-! ## Agreement -/

section Agreement

variable {env : SearchEnv} {name : List Byte}

/-- The entries that are searched: the current directory, and those of `PATH` that are not
    empty. -/
def SearchEnv.entries (env : SearchEnv) : List (List Byte) :=
  [] :: (env.path.map (fields Byte.colon)).getD []

def located (env : SearchEnv) (name dir : List Byte) : List Byte :=
  candidateText env.cwd (stripSlashes dir) name

def joined (env : SearchEnv) (name dir : List Byte) : List Byte :=
  if dir = [] then env.cwd ++ Byte.slash :: name else dir ++ Byte.slash :: name

/-- The path that `resolve_command` tries for an entry. -/
def probed (env : SearchEnv) (name dir : List Byte) : List Byte :=
  if dir = [] then env.cwd ++ Byte.slash :: name
  else snprintf pathMax (dir ++ Byte.slash :: name)

/-- Both paths of an entry fit their buffers. -/
def Fits (env : SearchEnv) (name dir : List Byte) : Prop :=
  (joined env name dir).length < pathMax ∧ (located env name dir).length < pathMax

/-- The file that a search through these paths finds. -/
def firstFile (env : SearchEnv) (paths : List (List Byte)) : Option (List (List Byte)) :=
  (paths.find? (checkExecutable env)).map (denoted env.cwd)

/-- Both paths of the first entry that either search accepts fit their buffers; or only one
    search accepts it, and the other one finds the same file in a later entry. -/
def Meets (env : SearchEnv) (name : List Byte) : List (List Byte) → Prop
  | [] => True
  | dir :: rest =>
    let resolves := checkExecutable env (probed env name dir)
    let locates := checkExecutable env (located env name dir)
    if resolves = false ∧ locates = false then Meets env name rest
    else
      Fits env name dir ∨
      (resolves = true ∧ locates = false ∧
        firstFile env (rest.map (located env name)) =
          some (denoted env.cwd (probed env name dir))) ∨
      (resolves = false ∧ locates = true ∧
        firstFile env (rest.map (probed env name)) = some (denoted env.cwd (located env name dir)))

theorem stripSlashes_nil : stripSlashes [] = [] := by
  rw [stripSlashes]
  exact if_neg (by simp)

theorem denoted_located (hcwd : env.cwd.head? = some Byte.slash) (dir : List Byte) :
    denoted env.cwd (located env name dir) = denoted env.cwd (joined env name dir) := by
  by_cases hdir : dir = []
  · rw [located, joined, if_pos hdir, hdir, stripSlashes_nil, denoted_candidateText_nil hcwd]
  · rw [located, joined, if_neg hdir, denoted_candidateText hcwd hdir]

theorem namesDir_joined (env : SearchEnv) (name dir : List Byte) :
    namesDir (joined env name dir) = namesDir name := by
  unfold joined
  split <;> exact namesDir_append _ _

theorem locateEntry_eq (hget : env.getcwd = some env.cwd) (dir : List Byte) :
    locateEntry env name dir =
      if checkExecutable env (located env name dir) then [located env name dir] else [] := by
  have hbuild : buildCandidate dir env.getcwd name =
      if (located env name dir).length < pathMax then some (located env name dir) else none := by
    rw [buildCandidate, hget]
    exact if_neg (by simp)
  rw [locateEntry, hbuild]
  by_cases hlen : (located env name dir).length < pathMax
  · by_cases hcheck : checkExecutable env (located env name dir) = true <;>
      simp [hlen, hcheck, checkExec]
  · have hcheck : checkExecutable env (located env name dir) = false := by
      simp [checkExecutable, hlen]
    simp [hlen, hcheck]

/-- `locate_one` as a search through the entries, the current directory in front. -/
theorem locateOne_eq (hget : env.getcwd = some env.cwd) :
    (locateOne env name).printed =
      (([] :: (env.path.map (split Byte.colon)).getD []).map (located env name)).filter
        (checkExecutable env) := by
  have hentries : ∀ dirs : List (List Byte), dirs.flatMap (locateEntry env name) =
      (dirs.map (located env name)).filter (checkExecutable env) := by
    intro dirs
    induction dirs with
    | nil => rfl
    | cons dir dirs ih =>
      rw [List.flatMap_cons, ih, locateEntry_eq hget, List.map_cons, List.filter_cons]
      split <;> rfl
  rw [← hentries, List.flatMap_cons, locateOne]
  cases env.path with
  | none => rfl
  | some path => rw [Option.map_some, Option.getD_some, ← locateLoop_eq]

theorem searchCwd_eq (hget : env.getcwd = some env.cwd) :
    searchCwd env name = [joined env name []].find? (checkExecutable env) := by
  have hshort : ∀ p, checkExecutable env p = true → p.length < pathMax := by
    intro p hp
    simp only [checkExecutable, Bool.and_eq_true, decide_eq_true_eq] at hp
    exact hp.1.1
  rw [searchCwd, hget, joined, if_pos rfl]
  dsimp only
  generalize env.cwd ++ Byte.slash :: name = p
  cases hcheck : checkExecutable env p with
  | true => simp [hcheck, hshort p hcheck]
  | false => simp [hcheck]

/-- `resolve_command` as a search through the entries that are not empty, the current
    directory in front. -/
theorem resolveCommand_eq (hget : env.getcwd = some env.cwd) (hname : name ≠ [])
    (hslash : Byte.slash ∉ name) (hpercent : name.head? ≠ some Byte.percent) :
    resolveCommand env name = (env.entries.map (probed env name)).find? (checkExecutable env) := by
  have hpath : env.path.bind (searchPath env name) =
      (((env.path.map (fields Byte.colon)).getD []).map (probed env name)).find?
        (checkExecutable env) := by
    cases hp : env.path with
    | none => rfl
    | some path =>
      rw [Option.bind_some, searchPath_eq, Option.map_some, Option.getD_some]
      congr 1
      refine List.map_congr_left fun d hd => ?_
      have hne : d ≠ [] := of_decide_eq_true (List.mem_filter.mp hd).2
      rw [probed, if_neg hne]
  rw [resolveCommand, if_neg hname, if_neg hslash, if_neg hpercent, hpath, searchCwd_eq hget,
    ← List.find?_append]
  rfl

theorem find?_cons_filter_ne {α : Type*} [DecidableEq α] (p : α → Bool) (a : α) (l : List α) :
    (a :: l.filter (· ≠ a)).find? p = (a :: l).find? p := by
  cases ha : p a with
  | true => simp [ha]
  | false =>
    simp only [List.find?_cons, ha, List.find?_filter]
    congr 1
    funext x
    by_cases hx : x = a
    · simp [hx, ha]
    · simp [hx]

/-- `locate_one` prints first what it finds in the entries that are not empty, the current
    directory in front. -/
theorem head?_locateOne (hget : env.getcwd = some env.cwd) :
    (locateOne env name).printed.head? =
      (env.entries.map (located env name)).find? (checkExecutable env) := by
  have hentries : env.entries =
      [] :: ((env.path.map (split Byte.colon)).getD []).filter (· ≠ []) := by
    rw [SearchEnv.entries]
    cases env.path <;> rfl
  rw [locateOne_eq hget, List.head?_filter, hentries, List.find?_map, List.find?_map]
  exact congrArg _ (find?_cons_filter_ne _ _ _).symm

theorem probed_of_fits (h : Fits env name dir) :
    probed env name dir = joined env name dir := by
  have hlen := h.1
  rw [joined] at hlen ⊢
  rw [probed]
  split at hlen
  · next hdir => rw [if_pos hdir, if_pos hdir]
  · next hdir => rw [if_neg hdir, if_neg hdir, snprintf_of_lt hlen]

/-- An entry whose paths fit is accepted by both searches or by none, and has one file. -/
theorem checkExecutable_of_fits (hcwd : env.cwd.head? = some Byte.slash) (h : Fits env name dir) :
    checkExecutable env (probed env name dir) = checkExecutable env (located env name dir) ∧
      denoted env.cwd (probed env name dir) = denoted env.cwd (located env name dir) := by
  rw [probed_of_fits h]
  refine ⟨checkExecutable_congr h.1 h.2 ?_ (denoted_located hcwd dir).symm,
    (denoted_located hcwd dir).symm⟩
  rw [namesDir_joined, located, namesDir_candidateText]

theorem checkExecutable_eq_true {p : List Byte} (h : checkExecutable env p = true) :
    p.length < pathMax ∧ namesDir p = false := by
  simp only [checkExecutable, Bool.and_eq_true, Bool.not_eq_true', decide_eq_true_eq] at h
  exact h.1

/-- An entry that both searches accept although its paths do not fit has two files. -/
theorem denoted_ne_of_not_fits (hcwd : env.cwd.head? = some Byte.slash)
    (hslash : Byte.slash ∉ name) (h : ¬ Fits env name dir)
    (hresolves : checkExecutable env (probed env name dir) = true)
    (hlocates : checkExecutable env (located env name dir) = true) :
    denoted env.cwd (probed env name dir) ≠ denoted env.cwd (located env name dir) := by
  obtain ⟨hprobed, hprobedDir⟩ := checkExecutable_eq_true hresolves
  obtain ⟨hlocated, hlocatedDir⟩ := checkExecutable_eq_true hlocates
  have hname : namesDir name = false := by
    rw [← hlocatedDir, located, namesDir_candidateText]
  have hdir : dir ≠ [] := by
    rintro rfl
    exact h ⟨hprobed, hlocated⟩
  have hlong : pathMax ≤ (dir ++ Byte.slash :: name).length := by
    by_contra hlt
    refine h ⟨?_, hlocated⟩
    rw [joined, if_neg hdir]
    omega
  rw [probed, if_neg hdir] at hprobedDir ⊢
  rw [denoted_located hcwd, joined, if_neg hdir]
  have hne := components_snprintf_ne hslash hname hlong hprobedDir
  -- both paths begin alike, so they start at the same directory
  have hhead : (snprintf pathMax (dir ++ Byte.slash :: name)).head? =
      (dir ++ Byte.slash :: name).head? := by
    obtain ⟨c, dir, rfl⟩ := List.exists_cons_of_ne_nil hdir
    rfl
  rw [denoted, denoted, hhead]
  split
  · exact hne
  · exact fun heq => hne (List.append_cancel_left heq)

theorem Meets.skip {rest : List (List Byte)}
    (h : checkExecutable env (probed env name dir) = false ∧
      checkExecutable env (located env name dir) = false) (hrest : Meets env name rest) :
    Meets env name (dir :: rest) := by
  rw [Meets, if_pos h]
  exact hrest

theorem Meets.of_fits {rest : List (List Byte)} (hfits : Fits env name dir)
    (h : checkExecutable env (probed env name dir) = true) : Meets env name (dir :: rest) := by
  rw [Meets, if_neg (by simp [h])]
  exact .inl hfits

theorem firstFile_eq_iff (hcwd : env.cwd.head? = some Byte.slash) (hslash : Byte.slash ∉ name)
    (dirs : List (List Byte)) :
    firstFile env (dirs.map (probed env name)) = firstFile env (dirs.map (located env name)) ↔
      Meets env name dirs := by
  induction dirs with
  | nil => exact iff_of_true rfl trivial
  | cons dir rest ih =>
    rw [Meets]
    simp only [firstFile, List.map_cons, List.find?_cons] at ih ⊢
    cases hresolves : checkExecutable env (probed env name dir) with
    | false =>
      cases hlocates : checkExecutable env (located env name dir) with
      | false =>
        rw [if_pos ⟨rfl, rfl⟩]
        exact ih
      | true =>
        have hfits : ¬ Fits env name dir := fun hfits => by
          have heq := (checkExecutable_of_fits hcwd hfits).1
          rw [hresolves, hlocates] at heq
          cases heq
        simp [hfits]
    | true =>
      cases hlocates : checkExecutable env (located env name dir) with
      | false =>
        have hfits : ¬ Fits env name dir := fun hfits => by
          have heq := (checkExecutable_of_fits hcwd hfits).1
          rw [hresolves, hlocates] at heq
          cases heq
        simp [hfits, eq_comm]
      | true =>
        simp only [Option.map_some, Option.some.injEq, reduceCtorEq, and_self, false_and,
          and_false, or_false, if_false]
        constructor
        · intro heq
          by_contra hfits
          exact denoted_ne_of_not_fits hcwd hslash hfits hresolves hlocates heq
        · exact fun hfits => (checkExecutable_of_fits hcwd hfits).2

/-- **When `resolve_command` and `locate_one` agree**: `resolve_command` returns a path if and
    only if `locate_one` finds one, and the first that this prints denotes the same file, if
    and only if both paths of the first entry that either search accepts fit their buffers, or
    only one search accepts it and the other one finds the same file later. -/
theorem resolve_command_agrees_iff (env : SearchEnv) (name : List Byte)
    (hget : env.getcwd = some env.cwd) (hcwd : env.cwd.head? = some Byte.slash)
    (hname : name ≠ []) (hslash : Byte.slash ∉ name)
    (hpercent : name.head? ≠ some Byte.percent) :
    ((locateOne env name).found = (resolveCommand env name).isSome ∧
      (resolveCommand env name).map (denoted env.cwd) =
        (locateOne env name).printed.head?.map (denoted env.cwd)) ↔
      Meets env name env.entries := by
  have hfound : (locateOne env name).found = (locateOne env name).printed.head?.isSome := by
    show (!(locateOne env name).printed.isEmpty) = _
    cases (locateOne env name).printed <;> rfl
  rw [← firstFile_eq_iff hcwd hslash, firstFile, firstFile, hfound, head?_locateOne hget,
    resolveCommand_eq hget hname hslash hpercent]
  refine and_iff_right_of_imp fun heq => ?_
  have hsome := congrArg Option.isSome heq
  rw [Option.isSome_map, Option.isSome_map] at hsome
  exact hsome.symm

/-- Entries of all kinds, the command in the fourth of them, and one more behind it. -/
def mixedEnv (dir : List Byte) : SearchEnv where
  executable file := file = [ascii "usr", ascii "bin", ascii "ls"]
  cwd := ascii "/usr"
  getcwd := some (ascii "/usr")
  path := some (ascii ":.:/sbin//:bin/" ++ Byte.colon :: dir)

theorem entries_mixedEnv (dir : List Byte) :
    (mixedEnv dir).entries =
      [] :: ascii "." :: ascii "/sbin//" :: ascii "bin/" :: fields Byte.colon dir := by
  have hshort : fields Byte.colon (ascii ":.:/sbin//:bin/") =
      [ascii ".", ascii "/sbin//", ascii "bin/"] := by decide
  rw [SearchEnv.entries, mixedEnv, Option.map_some, Option.getD_some, fields_append, hshort]
  rfl

theorem resolve_command_agrees_mixed :
    let env := mixedEnv (List.replicate 4095 97)
    (locateOne env (ascii "ls")).found = (resolveCommand env (ascii "ls")).isSome ∧
      (resolveCommand env (ascii "ls")).map (denoted env.cwd) =
        (locateOne env (ascii "ls")).printed.head?.map (denoted env.cwd) := by
  have hstrip : stripSlashes (ascii ".") = ascii "." ∧
      stripSlashes (ascii "/sbin//") = ascii "/sbin" ∧
      stripSlashes (ascii "bin/") = ascii "bin" := by
    refine ⟨?_, ?_, ?_⟩ <;> simp [stripSlashes, ascii, Byte.slash]
  refine (resolve_command_agrees_iff (mixedEnv _) (ascii "ls") rfl (by decide) (by decide)
    (by decide) (by decide)).mpr ?_
  rw [entries_mixedEnv]
  generalize List.replicate 4095 97 = dir
  -- the search ends at `bin/`
  refine .skip ⟨by decide, ?_⟩ (.skip ⟨by decide, ?_⟩ (.skip ⟨by decide, ?_⟩
    (.of_fits ⟨by decide, ?_⟩ (by decide))))
  · rw [located, stripSlashes_nil]
    decide
  · rw [located, hstrip.1]
    decide
  · rw [located, hstrip.2.1]
    decide
  · rw [located, hstrip.2.2]
    decide

/-- An entry of 4095 bytes that is another way to write `/bin/sh`. -/
def slashes : List Byte := List.replicate 4089 Byte.slash ++ ascii "bin/sh"

/-- The entry is the only one, and `/bin/sh` the only executable. -/
def slashesEnv : SearchEnv where
  executable file := file = [ascii "bin", ascii "sh"]
  cwd := ascii "/home"
  getcwd := some (ascii "/home")
  path := some slashes

theorem length_slashes : slashes.length = 4095 := by
  rw [slashes, List.length_append, List.length_replicate]
  rfl

theorem slashes_ne_nil : slashes ≠ [] :=
  List.ne_nil_of_length_pos (length_slashes ▸ by decide)

theorem head?_slashes : slashes.head? = some Byte.slash := by
  rw [slashes, List.replicate_succ]
  rfl

theorem colon_notMem_slashes : Byte.colon ∉ slashes := by
  rw [slashes, List.mem_append, not_or]
  exact ⟨fun h => absurd (List.eq_of_mem_replicate h) (by decide), by decide⟩

theorem denoted_slashes (cwd : List Byte) : denoted cwd slashes = [ascii "bin", ascii "sh"] := by
  rw [denoted, if_pos head?_slashes, components, slashes, fields_replicate_append]
  decide

theorem checkExecutable_slashes : checkExecutable slashesEnv slashes = true := by
  have hdir : namesDir slashes = false := by
    have hsplit : slashes = (List.replicate 4089 Byte.slash ++ ascii "bin") ++
        Byte.slash :: ascii "sh" := by
      rw [List.append_assoc]
      rfl
    rw [hsplit, namesDir_append]
    decide
  rw [checkExecutable, length_slashes, hdir, denoted_slashes]
  decide

/-- The path that `locate_one` makes of the entry does not fit. -/
theorem checkExecutable_located_slashes :
    checkExecutable slashesEnv (located slashesEnv (ascii "ls") slashes) = false := by
  have hstrip : stripSlashes slashes = slashes := by
    rw [stripSlashes]
    refine if_neg fun h => ?_
    rw [slashes, List.getLast?_append] at h
    exact absurd h.2 (by decide)
  have hdot : slashes ≠ [Byte.dot] := fun h => absurd (congrArg List.length h) (by
    rw [length_slashes]
    decide)
  have hlocated : located slashesEnv (ascii "ls") slashes =
      slashes ++ Byte.slash :: ascii "ls" := by
    rw [located, hstrip, candidateText, if_neg (by simp [slashes_ne_nil, hdot]),
      if_pos head?_slashes, if_neg (by rw [length_slashes]; decide)]
  have hlen : (slashes ++ Byte.slash :: ascii "ls").length = 4098 := by
    rw [List.length_append, length_slashes]
    rfl
  rw [hlocated, checkExecutable, hlen]
  rfl

/-- `resolve_command` runs `/bin/sh` for `ls`, where `locate_one` finds nothing. -/
theorem resolve_command_truncates :
    resolveCommand slashesEnv (ascii "ls") = some slashes ∧
    denoted slashesEnv.cwd slashes = [ascii "bin", ascii "sh"] ∧
    locateOne slashesEnv (ascii "ls") = ⟨[], false⟩ := by
  refine ⟨?_, denoted_slashes _, ?_⟩
  · -- The joined path is cut off where the entry ends.
    have hsearch : searchPath slashesEnv (ascii "ls") slashes = some slashes := by
      rw [searchPath_eq, fields_of_notMem colon_notMem_slashes slashes_ne_nil, List.map_singleton,
        snprintf_append_of_length (by rw [length_slashes]; rfl), List.find?_cons,
        checkExecutable_slashes]
    have hcwd : searchCwd slashesEnv (ascii "ls") = none := by decide
    have hpath : slashesEnv.path = some slashes := rfl
    rw [resolveCommand, if_neg (by decide), if_neg (by decide), if_neg (by decide), hcwd, hpath,
      Option.none_or, Option.bind_some, hsearch]
  · have hcwd : checkExecutable slashesEnv (located slashesEnv (ascii "ls") []) = false := by
      rw [located, stripSlashes_nil]
      decide
    have hprinted : (locateOne slashesEnv (ascii "ls")).printed = [] := by
      have hpath : slashesEnv.path = some slashes := rfl
      rw [locateOne_eq rfl, hpath, Option.map_some, Option.getD_some,
        split_of_notMem colon_notMem_slashes]
      simp [hcwd, checkExecutable_located_slashes]
    have hfound : (locateOne slashesEnv (ascii "ls")).found =
        !(locateOne slashesEnv (ascii "ls")).printed.isEmpty := rfl
    rw [hprinted] at hfound
    calc locateOne slashesEnv (ascii "ls")
        = ⟨(locateOne slashesEnv (ascii "ls")).printed,
            (locateOne slashesEnv (ascii "ls")).found⟩ := rfl
      _ = ⟨[], false⟩ := by rw [hprinted, hfound]; rfl

end Agreement

end MiniOs.Shell

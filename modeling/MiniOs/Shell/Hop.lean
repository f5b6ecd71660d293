import Mathlib
import MiniOs.Lib.Loop
import MiniOs.Shell.Frecency
import MiniOs.Shell.Paths

/-!
# The `hop` builtin

`hop_one` of `change_dir.c`, over a system whose answers are arbitrary. It changes the
working directory through `do_chdir`, which asks for the current path before and after the
call of `chdir`, remembers the first and records a visit of the second. A name that is not a
directory is looked up in the frecency database: the best match that has not been tried yet
is entered, until one succeeds or none is left.

Each system call is answered by its number in the run, so the answers may follow any
pattern. `getcwd` writes to a buffer of 1024 bytes and fails when the path does not fit.
-/

namespace MiniOs.Shell

open Loop

variable {best i : ℕ} {e : HopEntry}

/-- What the functions write to `stderr`. -/
inductive HopMessage where
  /-- `hop: no such directory` -/
  | noSuchDirectory
  /-- `hop: shell home not set` -/
  | homeNotSet
  /-- `hop: getcwd`, with the reason that `perror` adds -/
  | getcwd
  deriving DecidableEq, Repr

/-- The system that `hop` runs on, with directories of type `δ`. Every answer may depend
    on the number of the call. -/
structure HopSys (δ : Type) where
  /-- the path of a directory, unless the system cannot tell -/
  pathOf : ℕ → δ → Option (List Byte)
  /-- where a path leads from a directory, if `chdir` accepts it -/
  chdir : ℕ → δ → List Byte → Option δ
  /-- `time(NULL)` -/
  time : ℕ → ℤ
  /-- `get_shell_home` -/
  home : Option (List Byte)

def HopSys.getcwd {δ : Type} (sys : HopSys δ) (n : ℕ) (d : δ) : Option (List Byte) :=
  (sys.pathOf n d).filter (fun p => p.length < 1024)

/-- The working directory of the process, `prev_path`, the database and the messages,
    with the number of system calls so far. -/
structure HopState (δ : Type) where
  cwd : δ
  prevPath : List Byte
  db : List HopEntry
  err : List HopMessage
  calls : ℕ

variable {δ : Type}

/-- `do_chdir`: its return value and the state it leaves. -/
def doChdir (sys : HopSys δ) (target : List Byte) (st : HopState δ) : ℤ × HopState δ :=
  match sys.getcwd st.calls st.cwd with
  | none => (-1, { st with err := st.err ++ [.getcwd], calls := st.calls + 1 })
  | some cwdBefore =>
    match sys.chdir (st.calls + 1) st.cwd target with
    | none => (-1, { st with calls := st.calls + 2 })
    | some d =>
      match sys.getcwd (st.calls + 2) d with
      | none => (-1, { st with cwd := d, err := st.err ++ [.getcwd], calls := st.calls + 3 })
      | some cwdAfter =>
        (0, { st with
          cwd := d
          prevPath := cwdBefore.take 1023
          db := recordVisit st.db cwdAfter (sys.time (st.calls + 3))
          calls := st.calls + 4 })

def frecencyScore (now : ℤ) (e : HopEntry) : ℚ :=
  let age := now - e.lastVisit
  let multiplier :=
    if age < 3600 then 4 else if age < 86400 then 2 else if age < 604800 then 1 / 2 else 1 / 4
  e.score * multiplier

/-- The variables of `frecency_lookup`; no index is `best_idx = -1`. -/
structure Lookup where
  bestIdx : Option ℕ
  bestScore : ℚ
  calls : ℕ

/-- One round of `frecency_lookup`. -/
def lookupVisit (sys : HopSys δ) (query : List Byte) (db : List HopEntry) (tried : List Bool)
    (s : Lookup) (i : ℕ) : Lookup :=
  match db[i]? with
  | none => s
  | some e =>
    if tried.getD i false = true ∨ ¬ query <:+: e.path then s
    else
      let x := frecencyScore (sys.time s.calls) e
      if s.bestScore < x then ⟨some i, x, s.calls + 1⟩ else { s with calls := s.calls + 1 }

def frecencyLookup (sys : HopSys δ) (query : List Byte) (db : List HopEntry) (tried : List Bool)
    (calls : ℕ) : Lookup :=
  (List.range db.length).foldl (lookupVisit sys query db tried) ⟨none, -1, calls⟩

def pathAt (db : List HopEntry) (i : ℕ) : List Byte := ((db[i]?).map HopEntry.path).getD []

/-- The search loop of `hop_one`, for at most `fuel` rounds. The entries that it tries are
    listed with the state it leaves. -/
def searchLoop (sys : HopSys δ) (arg : List Byte) :
    ℕ → List Bool → HopState δ → Option (List ℕ × HopState δ)
  | 0, _, _ => none
  | fuel + 1, tried, st =>
    let s := frecencyLookup sys arg st.db tried st.calls
    match s.bestIdx with
    | none => some ([], { st with err := st.err ++ [.noSuchDirectory], calls := s.calls })
    | some best =>
      let r := doChdir sys (pathAt st.db best) { st with calls := s.calls }
      if r.1 = 0 then some ([best], r.2)
      else (searchLoop sys arg fuel (tried.set best true) r.2).map
        (fun x => (best :: x.1, x.2))

/-- `do_chdir` and the message when it fails. -/
def chdirOrReport (sys : HopSys δ) (target : List Byte) (st : HopState δ) : HopState δ :=
  let r := doChdir sys target st
  if r.1 = 0 then r.2 else { r.2 with err := r.2.err ++ [.noSuchDirectory] }

def hopOne (sys : HopSys δ) (fuel : ℕ) (arg : Option (List Byte)) (st : HopState δ) :
    Option (HopState δ) :=
  if arg = none ∨ arg = some (ascii "~") then
    match sys.home with
    | none => some { st with err := st.err ++ [.homeNotSet] }
    | some home =>
      if home = [] then some { st with err := st.err ++ [.homeNotSet] }
      else some (chdirOrReport sys home st)
  else if arg = some (ascii ".") then some st
  else if arg = some (ascii "..") then
    match sys.getcwd st.calls st.cwd with
    | none => some { st with err := st.err ++ [.getcwd], calls := st.calls + 1 }
    | some cwd =>
      if cwd = ascii "/" then some { st with calls := st.calls + 1 }
      else some (chdirOrReport sys (ascii "..") { st with calls := st.calls + 1 })
  else if arg = some (ascii "-") then
    if st.prevPath = [] then some st else some (chdirOrReport sys st.prevPath st)
  else
    let name := arg.getD []
    let r := doChdir sys name st
    if r.1 = 0 then some r.2
    else (searchLoop sys name fuel (List.replicate maxHopEntries false) r.2).map Prod.snd

/-- An argument that stands for itself. -/
structure Ordinary (arg : List Byte) : Prop where
  tilde : arg ≠ ascii "~"
  dot : arg ≠ ascii "."
  dots : arg ≠ ascii ".."
  dash : arg ≠ ascii "-"

variable {sys : HopSys δ} {target arg : List Byte} {st st' : HopState δ}

theorem hopOne_ordinary (harg : Ordinary arg) (sys : HopSys δ) (fuel : ℕ) (st : HopState δ) :
    hopOne sys fuel (some arg) st = if (doChdir sys arg st).1 = 0 then some (doChdir sys arg st).2
      else (searchLoop sys arg fuel (List.replicate maxHopEntries false)
        (doChdir sys arg st).2).map Prod.snd := by
  have htilde : ¬ (some arg = none ∨ some arg = some (ascii "~")) := by
    rintro (h | h)
    · cases h
    · exact harg.tilde (Option.some_inj.mp h)
  rw [hopOne, if_neg htilde, if_neg (fun h => harg.dot (Option.some_inj.mp h)),
    if_neg (fun h => harg.dots (Option.some_inj.mp h)),
    if_neg (fun h => harg.dash (Option.some_inj.mp h))]
  rfl

/-! ### What a failed hop leaves -/

/-- **Inversion of `do_chdir`.** -/
inductive Chdirs (sys : HopSys δ) (target : List Byte) (st : HopState δ) : ℤ × HopState δ → Prop
  | noPath (hbefore : sys.getcwd st.calls st.cwd = none) : Chdirs sys target st
      (-1, { st with err := st.err ++ [.getcwd], calls := st.calls + 1 })
  | refused {p : List Byte} (hbefore : sys.getcwd st.calls st.cwd = some p)
      (hchdir : sys.chdir (st.calls + 1) st.cwd target = none) : Chdirs sys target st
      (-1, { st with calls := st.calls + 2 })
  | stranded {p : List Byte} {d : δ} (hbefore : sys.getcwd st.calls st.cwd = some p)
      (hchdir : sys.chdir (st.calls + 1) st.cwd target = some d)
      (hafter : sys.getcwd (st.calls + 2) d = none) : Chdirs sys target st
      (-1, { st with cwd := d, err := st.err ++ [.getcwd], calls := st.calls + 3 })
  | entered {p q : List Byte} {d : δ} (hbefore : sys.getcwd st.calls st.cwd = some p)
      (hchdir : sys.chdir (st.calls + 1) st.cwd target = some d)
      (hafter : sys.getcwd (st.calls + 2) d = some q) : Chdirs sys target st
      (0, { st with
        cwd := d
        prevPath := p.take 1023
        db := recordVisit st.db q (sys.time (st.calls + 3))
        calls := st.calls + 4 })

theorem doChdir_cases (sys : HopSys δ) (target : List Byte) (st : HopState δ) :
    Chdirs sys target st (doChdir sys target st) := by
  unfold doChdir
  split
  · next hbefore => exact .noPath hbefore
  · next p hbefore =>
    split
    · next hchdir => exact .refused hbefore hchdir
    · next d hchdir =>
      split
      · next hafter => exact .stranded hbefore hchdir hafter
      · next q hafter => exact .entered hbefore hchdir hafter

/-- The directory that `do_chdir` has entered when it fails: the first `getcwd` and `chdir`
    succeed, and the second `getcwd` does not. -/
def strandedIn (sys : HopSys δ) (target : List Byte) (st : HopState δ) : Option δ :=
  (sys.getcwd st.calls st.cwd).bind fun _ =>
    (sys.chdir (st.calls + 1) st.cwd target).filter fun d =>
      (sys.getcwd (st.calls + 2) d).isNone

abbrev ChdirCall (δ : Type) := List Byte × HopState δ

def searchCalls (sys : HopSys δ) (arg : List Byte) :
    ℕ → List Bool → HopState δ → List (ChdirCall δ)
  | 0, _, _ => []
  | fuel + 1, tried, st =>
    let s := frecencyLookup sys arg st.db tried st.calls
    match s.bestIdx with
    | none => []
    | some best =>
      let call : ChdirCall δ := (pathAt st.db best, { st with calls := s.calls })
      let r := doChdir sys call.1 call.2
      call :: if r.1 = 0 then [] else searchCalls sys arg fuel (tried.set best true) r.2

def hopCalls (sys : HopSys δ) (fuel : ℕ) (arg : Option (List Byte)) (st : HopState δ) :
    List (ChdirCall δ) :=
  if arg = none ∨ arg = some (ascii "~") then
    match sys.home with
    | none => []
    | some home => if home = [] then [] else [(home, st)]
  else if arg = some (ascii ".") then []
  else if arg = some (ascii "..") then
    match sys.getcwd st.calls st.cwd with
    | none => []
    | some cwd => if cwd = ascii "/" then [] else [(ascii "..", { st with calls := st.calls + 1 })]
  else if arg = some (ascii "-") then if st.prevPath = [] then [] else [(st.prevPath, st)]
  else
    let name := arg.getD []
    let r := doChdir sys name st
    (name, st) :: if r.1 = 0 then []
      else searchCalls sys name fuel (List.replicate maxHopEntries false) r.2

/-- The directories that failed calls have left the shell in. -/
def strandings (sys : HopSys δ) (calls : List (ChdirCall δ)) : List δ :=
  calls.filterMap fun c => strandedIn sys c.1 c.2

/-- The state after a failure: `prev_path` and the database are as before, and the working
    directory is the last one that a failed call has left the shell in. -/
structure Undone (st : HopState δ) (stranded : List δ) (st' : HopState δ) : Prop where
  prevPath : st'.prevPath = st.prevPath
  db : st'.db = st.db
  cwd : st'.cwd = stranded.getLast?.getD st.cwd

theorem Undone.refl (st : HopState δ) : Undone st [] st := ⟨rfl, rfl, rfl⟩

theorem Undone.trans {a b c : HopState δ} {ds ds' : List δ} (h : Undone a ds b)
    (h' : Undone b ds' c) : Undone a (ds ++ ds') c where
  prevPath := h'.prevPath.trans h.prevPath
  db := h'.db.trans h.db
  cwd := by
    rw [h'.cwd, h.cwd, List.getLast?_append]
    cases ds'.getLast? <;> rfl

/-- Nothing changes if the last directory is the one the shell was in. -/
theorem Undone.cwd_eq_iff {ds : List δ} (h : Undone st ds st') :
    st'.cwd = st.cwd ↔ ∀ d, ds.getLast? = some d → d = st.cwd := by
  rw [h.cwd]
  cases ds.getLast? with
  | none => exact iff_of_true rfl fun d hd => by cases hd
  | some d =>
    refine ⟨fun heq d' hd' => ?_, fun hall => hall d rfl⟩
    cases hd'
    exact heq

/-- The number of times that `hop: no such directory` has been printed. -/
def HopState.reports (st : HopState δ) : ℕ := st.err.count .noSuchDirectory

variable {r : ℤ × HopState δ}

theorem Chdirs.reports (h : Chdirs sys target st r) : r.2.reports = st.reports := by
  cases h <;> simp [HopState.reports]

theorem reports_doChdir (sys : HopSys δ) (target : List Byte) (st : HopState δ) :
    (doChdir sys target st).2.reports = st.reports := (doChdir_cases sys target st).reports

theorem Chdirs.failed (h : Chdirs sys target st r) (hfail : r.1 ≠ 0) :
    Undone st (strandedIn sys target st).toList r.2 := by
  cases h with
  | noPath hbefore =>
    rw [strandedIn, hbefore]
    exact ⟨rfl, rfl, rfl⟩
  | refused hbefore hchdir =>
    rw [strandedIn, hbefore, Option.bind_some, hchdir]
    exact ⟨rfl, rfl, rfl⟩
  | @stranded p d hbefore hchdir hafter =>
    have hstranded : strandedIn sys target st = some d := by
      rw [strandedIn, hbefore, Option.bind_some, hchdir]
      exact Option.filter_eq_some_iff.mpr ⟨rfl, by rw [hafter]; rfl⟩
    rw [hstranded]
    exact ⟨rfl, rfl, rfl⟩
  | entered hbefore hchdir hafter => exact absurd rfl hfail

theorem doChdir_failed (h : (doChdir sys target st).1 ≠ 0) :
    Undone st (strandedIn sys target st).toList (doChdir sys target st).2 :=
  (doChdir_cases sys target st).failed h

theorem strandings_cons (sys : HopSys δ) (c : ChdirCall δ) (calls : List (ChdirCall δ)) :
    strandings sys (c :: calls) =
      (strandedIn sys c.1 c.2).toList ++ strandings sys calls := by
  rw [strandings, List.filterMap_cons]
  cases strandedIn sys c.1 c.2 <;> rfl

/-- The path of the directory that was left fits into `prev_path`. -/
theorem Chdirs.prevPath (h : Chdirs sys target st r) (hzero : r.1 = 0) :
    sys.getcwd st.calls st.cwd = some r.2.prevPath := by
  cases h with
  | noPath hbefore => cases hzero
  | refused hbefore hchdir => cases hzero
  | stranded hbefore hchdir hafter => cases hzero
  | @entered p q d hbefore hchdir hafter =>
    have hlen : p.length < 1024 := of_decide_eq_true (Option.filter_eq_some_iff.mp hbefore).2
    have htake : p.take 1023 = p := List.take_of_length_le (Nat.le_of_lt_succ hlen)
    show _ = some (p.take 1023)
    rw [hbefore, htake]

theorem chdirOrReport_failed (h : st.reports < (chdirOrReport sys target st).reports) :
    Undone st (strandings sys [(target, st)]) (chdirOrReport sys target st) := by
  unfold chdirOrReport at h ⊢
  dsimp only at h ⊢
  split at h
  · rw [reports_doChdir] at h
    exact absurd h (lt_irrefl _)
  · next hfail =>
    rw [if_neg hfail, strandings_cons, strandings, List.filterMap_nil, List.append_nil]
    obtain ⟨hprev, hdb, hcwd⟩ := doChdir_failed hfail
    exact ⟨hprev, hdb, hcwd⟩

/-- **The search**: if it ends with the message, every round has failed. -/
theorem searchLoop_failed {fuel : ℕ} {tried : List Bool} {tries : List ℕ}
    (h : searchLoop sys arg fuel tried st = some (tries, st')) (hrep : st.reports < st'.reports) :
    Undone st (strandings sys (searchCalls sys arg fuel tried st)) st' := by
  induction fuel generalizing tried st tries with
  | zero => cases h
  | succ fuel ih =>
    rw [searchLoop] at h
    rw [searchCalls]
    dsimp only at h ⊢
    split at h
    · cases h
      exact ⟨rfl, rfl, rfl⟩
    · next best hbest =>
      split at h
      · cases h
        rw [reports_doChdir] at hrep
        exact absurd hrep (lt_irrefl _)
      · next hfail =>
        obtain ⟨x, hx, heq⟩ := Option.map_eq_some_iff.mp h
        cases heq
        rw [if_neg hfail, strandings_cons]
        have hrest := ih hx (by rw [reports_doChdir]; exact hrep)
        obtain ⟨hprev, hdb, hcwd⟩ := (doChdir_failed hfail).trans hrest
        exact ⟨hprev, hdb, hcwd⟩

/-- **A hop that ends with the message** has failed at every step. -/
theorem hopOne_failed {fuel : ℕ} {arg : Option (List Byte)}
    (h : hopOne sys fuel arg st = some st') (hrep : st.reports < st'.reports) :
    Undone st (strandings sys (hopCalls sys fuel arg st)) st' := by
  unfold hopOne at h
  unfold hopCalls
  split_ifs at h ⊢ with hhome hdot hdots hdash hprev
  · split at h
    · cases h
      exact ⟨rfl, rfl, rfl⟩
    · next home hsome =>
      split_ifs at h with hnil
      · cases h
        rw [if_pos hnil]
        exact ⟨rfl, rfl, rfl⟩
      · cases h
        rw [if_neg hnil]
        exact chdirOrReport_failed hrep
  · cases h
    exact .refl _
  · split at h
    · cases h
      exact ⟨rfl, rfl, rfl⟩
    · next cwd hsome =>
      split_ifs at h with hroot
      · cases h
        rw [if_pos hroot]
        exact ⟨rfl, rfl, rfl⟩
      · cases h
        rw [if_neg hroot]
        -- the `getcwd` in front of the call does not change the state
        have hst₁ : Undone st [] { st with calls := st.calls + 1 } := ⟨rfl, rfl, rfl⟩
        exact hst₁.trans (chdirOrReport_failed hrep)
  · cases h
    exact .refl _
  · cases h
    exact chdirOrReport_failed hrep
  · dsimp only at h ⊢
    split_ifs at h with hdirect
    · cases h
      rw [reports_doChdir] at hrep
      exact absurd hrep (lt_irrefl _)
    · obtain ⟨x, hx, rfl⟩ := Option.map_eq_some_iff.mp h
      rw [if_neg hdirect, strandings_cons]
      refine (doChdir_failed hdirect).trans (searchLoop_failed hx ?_)
      rw [reports_doChdir]
      exact hrep

/-- **When a failed hop changes nothing.** When `do_chdir` returns `-1`, `prev_path` and the
    database are as before, and the working directory is, unless the first `getcwd` and
    `chdir` have succeeded and the second `getcwd` has not, in a directory other than the
    former one. When it returns 0, `prev_path` is the path of the directory it left. When
    `hop_one` prints `hop: no such directory`, `prev_path` and the database are as before, and
    the working directory is, unless one of its calls of `do_chdir` has failed in that way and
    the last such call has left the shell elsewhere. -/
theorem failed_hop_keeps_state_iff (sys : HopSys δ) :
    (∀ target st, (doChdir sys target st).1 = -1 →
      (doChdir sys target st).2.prevPath = st.prevPath ∧ (doChdir sys target st).2.db = st.db ∧
      ((doChdir sys target st).2.cwd = st.cwd ↔
        ∀ d, strandedIn sys target st = some d → d = st.cwd)) ∧
    (∀ target st, (doChdir sys target st).1 = 0 →
      sys.getcwd st.calls st.cwd = some (doChdir sys target st).2.prevPath) ∧
    ∀ fuel arg st st', hopOne sys fuel arg st = some st' → st.reports < st'.reports →
      st'.prevPath = st.prevPath ∧ st'.db = st.db ∧
      (st'.cwd = st.cwd ↔
        ∀ d, (strandings sys (hopCalls sys fuel arg st)).getLast? = some d → d = st.cwd) := by
  refine ⟨?_, ?_, ?_⟩
  · intro target st hfail
    have hne : (doChdir sys target st).1 ≠ 0 := by
      rw [hfail]
      decide
    have hundone := doChdir_failed hne
    refine ⟨hundone.prevPath, hundone.db, hundone.cwd_eq_iff.trans ?_⟩
    cases strandedIn sys target st <;> rfl
  · exact fun target st hzero => (doChdir_cases sys target st).prevPath hzero
  · intro fuel arg st st' hhop hrep
    have hundone := hopOne_failed hhop hrep
    exact ⟨hundone.prevPath, hundone.db, hundone.cwd_eq_iff⟩

def longName : List Byte := List.replicate 204 97

/-- Four nested directories with long names, and one more inside them. -/
def deepSys : HopSys Bool where
  pathOf := fun _ d => some (List.replicate (if d then 5 else 4) (Byte.slash :: longName)).flatten
  chdir := fun _ d p => if d = false ∧ p = longName then some true else none
  time := fun _ => 0
  home := none

theorem length_nested (n : ℕ) :
    (List.replicate n (Byte.slash :: longName)).flatten.length = n * 205 := by
  rw [List.length_flatten, List.map_replicate, List.sum_replicate, List.length_cons, longName,
    List.length_replicate, smul_eq_mul]

theorem deepSys_getcwd_false (n : ℕ) : (deepSys.getcwd n false).isSome := by
  have hlen := length_nested 4
  have hfilter : deepSys.getcwd n false = some _ :=
    Option.filter_eq_some_iff.mpr
      ⟨rfl, decide_eq_true (by rw [if_neg Bool.false_ne_true, hlen]; decide)⟩
  rw [hfilter]
  rfl

theorem deepSys_getcwd_true (n : ℕ) : deepSys.getcwd n true = none := by
  have hlen := length_nested 5
  refine Option.filter_eq_none_iff.mpr fun p hp => ?_
  cases hp
  rw [decide_eq_true_eq, if_pos rfl, hlen]
  decide

theorem doChdir_deepSys : doChdir deepSys longName ⟨false, [], [], [], 0⟩ =
    (-1, ⟨true, [], [], [.getcwd], 3⟩) := by
  obtain ⟨p, hp⟩ := Option.isSome_iff_exists.mp (deepSys_getcwd_false 0)
  have hchdir : deepSys.chdir 1 false longName = some true := by
    simp only [deepSys, and_self, if_true]
  simp only [doChdir, hp, hchdir, deepSys_getcwd_true, Nat.zero_add, List.nil_append]

/-- **A failed hop can move the shell**: `chdir` succeeds, the path has 1025 bytes, and
    `hop` reports that there is no such directory. -/
theorem failed_hop_moves :
    (doChdir deepSys longName ⟨false, [], [], [], 0⟩).1 = -1 ∧
    (doChdir deepSys longName ⟨false, [], [], [], 0⟩).2.cwd = true ∧
    ∃ st', hopOne deepSys 1 (some longName) ⟨false, [], [], [], 0⟩ = some st' ∧
      st'.err = [.getcwd, .noSuchDirectory] ∧ st'.cwd = true := by
  have hname : Ordinary longName := ⟨by decide, by decide, by decide, by decide⟩
  rw [hopOne_ordinary hname, doChdir_deepSys]
  exact ⟨rfl, rfl, _, rfl, rfl, rfl⟩

/-- In the same place, a name that is no directory: `chdir` fails, and nothing changes. -/
theorem failed_hop_keeps_state_missing :
    ∃ st', hopOne deepSys 1 (some (ascii "x")) ⟨false, ascii "/b", [], [], 0⟩ = some st' ∧
      st'.err = [.noSuchDirectory] ∧ st'.cwd = false ∧ st'.prevPath = ascii "/b" := by
  obtain ⟨p, hp⟩ := Option.isSome_iff_exists.mp (deepSys_getcwd_false 0)
  have hchdir : deepSys.chdir 1 false (ascii "x") = none := by
    have hne : ascii "x" ≠ longName := by
      intro h
      have hlen := congrArg List.length h
      rw [longName, List.length_replicate] at hlen
      exact absurd hlen (by decide)
    simp [deepSys, hne]
  have hcall : doChdir deepSys (ascii "x") ⟨false, ascii "/b", [], [], 0⟩ =
      (-1, ⟨false, ascii "/b", [], [], 2⟩) := by
    simp only [doChdir, hp, hchdir, Nat.zero_add]
  have hname : Ordinary (ascii "x") := ⟨by decide, by decide, by decide, by decide⟩
  have hhop : hopOne deepSys 1 (some (ascii "x")) ⟨false, ascii "/b", [], [], 0⟩ =
      some ⟨false, ascii "/b", [], [.noSuchDirectory], 2⟩ := by
    rw [hopOne_ordinary hname, hcall]
    rfl
  have hcalls : strandings deepSys
      (hopCalls deepSys 1 (some (ascii "x")) ⟨false, ascii "/b", [], [], 0⟩) = [] := by
    have hstranded : strandedIn deepSys (ascii "x") ⟨false, ascii "/b", [], [], 0⟩ = none := by
      simp only [strandedIn, hp, hchdir, Nat.zero_add, Option.bind_some, Option.filter_none]
    have hone : hopCalls deepSys 1 (some (ascii "x")) ⟨false, ascii "/b", [], [], 0⟩ =
        [(ascii "x", ⟨false, ascii "/b", [], [], 0⟩)] := by
      rw [hopCalls, if_neg (by decide), if_neg (by decide), if_neg (by decide),
        if_neg (by decide)]
      dsimp only [Option.getD_some]
      rw [hcall]
      rfl
    rw [hone, strandings_cons, hstranded]
    rfl
  obtain ⟨-, -, hone⟩ := failed_hop_keeps_state_iff deepSys
  obtain ⟨hprev, -, hcwd⟩ := hone _ _ _ _ hhop (by decide)
  exact ⟨_, hhop, rfl, hcwd.mpr (by rw [hcalls]; simp), hprev⟩

/-! ### The search -/

/-- Fixed answers: `getcwd` succeeds, `chdir` accepts the paths in `accepts`, and the time
    is `now`. -/
structure Steady (sys : HopSys δ) (now : ℤ) (accepts : List Byte → Prop) : Prop where
  getcwd : ∀ n d, (sys.getcwd n d).isSome
  chdir : ∀ n d p, (sys.chdir n d p).isSome ↔ accepts p
  time : ∀ n, sys.time n = now

/-- The entry `i` is `e`, it contains the argument, and its directory can be entered. -/
structure Enterable (accepts : List Byte → Prop) (arg : List Byte) (db : List HopEntry) (i : ℕ)
    (e : HopEntry) : Prop where
  entry : db[i]? = some e
  contains : arg <:+: e.path
  accepted : accepts e.path

/-- The first of the entries with the highest score among those that can be entered. -/
structure IsBest (accepts : List Byte → Prop) (now : ℤ) (arg : List Byte) (db : List HopEntry)
    (i : ℕ) (e : HopEntry) : Prop extends Enterable accepts arg db i e where
  highest : ∀ j f, Enterable accepts arg db j f → frecencyScore now f ≤ frecencyScore now e
  first : ∀ j f, Enterable accepts arg db j f → frecencyScore now f = frecencyScore now e → i ≤ j

/-- The entry `i` contains the argument and has not been tried. -/
def isLeft (arg : List Byte) (db : List HopEntry) (tried : List Bool) (i : ℕ) : Bool :=
  (db[i]?).any (fun e => arg <:+: e.path) && !tried.getD i false

def scoreAt (now : ℤ) (db : List HopEntry) (i : ℕ) : ℚ :=
  ((db[i]?).map (frecencyScore now)).getD 0

variable {now : ℤ} {accepts : List Byte → Prop} {db : List HopEntry} {tried : List Bool}

theorem isLeft_iff : isLeft arg db tried i = true ↔
    (∃ e, db[i]? = some e ∧ arg <:+: e.path) ∧ tried.getD i false = false := by
  simp [isLeft, Option.any_eq_true]

theorem frecencyScore_nonneg (h : 0 ≤ e.score) : 0 ≤ frecencyScore now e := by
  refine mul_nonneg h ?_
  split_ifs <;> norm_num

/-- What the variables of a lookup hold. -/
structure LookupInv (now : ℤ) (db : List HopEntry) (s : Lookup) : Prop where
  none : s.bestIdx = none → s.bestScore = -1
  some : ∀ i, s.bestIdx = some i → s.bestScore = scoreAt now db i

theorem scoreAt_eq (h : db[i]? = some e) :
    scoreAt now db i = frecencyScore now e := by
  rw [scoreAt, h]
  rfl

theorem scoreAt_nonneg (hscore : ∀ e ∈ db, 0 ≤ e.score) (i : ℕ) : 0 ≤ scoreAt now db i := by
  cases hentry : db[i]? with
  | none =>
    rw [scoreAt, hentry]
    exact le_rfl
  | some e =>
    rw [scoreAt_eq hentry]
    exact frecencyScore_nonneg (hscore e (List.mem_of_getElem? hentry))

theorem lookupVisit_skip (hleft : ¬ isLeft arg db tried i = true) (s : Lookup) :
    lookupVisit sys arg db tried s i = s := by
  rw [lookupVisit]
  cases hentry : db[i]? with
  | none => rfl
  | some e =>
    have hskip : tried.getD i false = true ∨ ¬ arg <:+: e.path := by
      by_contra hcon
      rw [not_or, not_not, Bool.not_eq_true] at hcon
      exact hleft (isLeft_iff.mpr ⟨⟨e, hentry, hcon.2⟩, hcon.1⟩)
    exact if_pos hskip

/-- An entry that counts is compared with the best so far. -/
theorem lookupVisit_left (hsys : Steady sys now accepts) (hleft : isLeft arg db tried i = true)
    (s : Lookup) :
    lookupVisit sys arg db tried s i =
      if s.bestScore < scoreAt now db i then ⟨some i, scoreAt now db i, s.calls + 1⟩
      else { s with calls := s.calls + 1 } := by
  obtain ⟨⟨e, hentry, hinfix⟩, htried⟩ := isLeft_iff.mp hleft
  have hnot : ¬ (tried.getD i false = true ∨ ¬ arg <:+: e.path) := by
    rw [htried]
    simpa using hinfix
  rw [lookupVisit, hentry]
  dsimp only
  rw [if_neg hnot, hsys.time, scoreAt_eq hentry]

theorem bestIdx_lookupVisit (hsys : Steady sys now accepts) (hscore : ∀ e ∈ db, 0 ≤ e.score)
    {s : Lookup} (hs : LookupInv now db s) (i : ℕ) :
    LookupInv now db (lookupVisit sys arg db tried s i) ∧
    (lookupVisit sys arg db tried s i).bestIdx = if isLeft arg db tried i then
      List.argAux (fun a c => -scoreAt now db a < -scoreAt now db c) s.bestIdx i
      else s.bestIdx := by
  have hnew : ∀ {n}, LookupInv now db ⟨some i, scoreAt now db i, n⟩ :=
    ⟨fun h => (by cases h), fun j hj => (by cases hj; rfl)⟩
  by_cases hleft : isLeft arg db tried i = true
  · rw [if_pos hleft, lookupVisit_left hsys hleft]
    cases hbest : s.bestIdx with
    | none =>
      have hnonneg : 0 ≤ scoreAt now db i := scoreAt_nonneg hscore i
      rw [if_pos (by rw [hs.none hbest]; linarith)]
      exact ⟨hnew, rfl⟩
    | some b =>
      have haux : List.argAux (fun a c => -scoreAt now db a < -scoreAt now db c) (some b) i =
          if -scoreAt now db i < -scoreAt now db b then some i else some b := rfl
      rw [haux, ← hs.some b hbest]
      by_cases hlt : s.bestScore < scoreAt now db i
      · rw [if_pos hlt, if_pos (neg_lt_neg hlt)]
        exact ⟨hnew, rfl⟩
      · rw [if_neg hlt, if_neg (fun h => hlt (neg_lt_neg_iff.mp h))]
        exact ⟨⟨fun h => (by cases h), fun j hj => hs.some j (hbest.trans hj)⟩, rfl⟩
  · rw [if_neg hleft, lookupVisit_skip hleft]
    exact ⟨hs, rfl⟩

/-- **A lookup** finds the first of the best entries that are left. -/
theorem frecencyLookup_eq (hsys : Steady sys now accepts) (hscore : ∀ e ∈ db, 0 ≤ e.score)
    (calls : ℕ) : (frecencyLookup sys arg db tried calls).bestIdx =
      ((List.range db.length).filter (isLeft arg db tried)).argmin
        (fun i => -scoreAt now db i) := by
  have hinit : LookupInv now db ⟨none, -1, calls⟩ := ⟨fun _ => rfl, fun i h => (by cases h)⟩
  exact foldl_best (fun s i hs => (bestIdx_lookupVisit hsys hscore hs i).1)
    (fun s i hs => (bestIdx_lookupVisit hsys hscore hs i).2) hinit rfl _

theorem lt_length_of_isLeft (h : isLeft arg db tried i = true) : i < db.length := by
  obtain ⟨⟨e, he, -⟩, -⟩ := isLeft_iff.mp h
  exact (List.getElem?_eq_some_iff.mp he).1

theorem mem_left :
    i ∈ (List.range db.length).filter (isLeft arg db tried) ↔ isLeft arg db tried i = true := by
  rw [List.mem_filter, List.mem_range]
  exact and_iff_right_of_imp lt_length_of_isLeft

theorem frecencyLookup_none (hsys : Steady sys now accepts) (hscore : ∀ e ∈ db, 0 ≤ e.score)
    {calls : ℕ} (h : (frecencyLookup sys arg db tried calls).bestIdx = none) (i : ℕ) :
    ¬ isLeft arg db tried i = true := by
  rw [frecencyLookup_eq hsys hscore, List.argmin_eq_none] at h
  intro hleft
  have hmem := mem_left.mpr hleft
  rw [h] at hmem
  cases hmem

theorem frecencyLookup_some (hsys : Steady sys now accepts) (hscore : ∀ e ∈ db, 0 ≤ e.score)
    {calls : ℕ} (h : (frecencyLookup sys arg db tried calls).bestIdx = some i) :
    isLeft arg db tried i = true ∧ ∀ j, isLeft arg db tried j = true →
      scoreAt now db j ≤ scoreAt now db i ∧ (scoreAt now db j = scoreAt now db i → i ≤ j) := by
  rw [frecencyLookup_eq hsys hscore] at h
  have hsorted : ((List.range db.length).filter (isLeft arg db tried)).Pairwise (· < ·) :=
    List.pairwise_lt_range.sublist List.filter_sublist
  refine ⟨mem_left.mp (List.argmin_mem h), fun j hj => ⟨?_, fun heq => ?_⟩⟩
  · have hle := List.le_of_mem_argmin (f := fun i => -scoreAt now db i) (mem_left.mpr hj) h
    exact neg_le_neg_iff.mp hle
  · exact le_of_mem_argmin_of_pairwise hsorted h (mem_left.mpr hj) (by rw [heq])

theorem doChdir_rejected (hsys : Steady sys now accepts) (h : ¬ accepts target) :
    doChdir sys target st = (-1, { st with calls := st.calls + 2 }) := by
  obtain ⟨p, hp⟩ := Option.isSome_iff_exists.mp (hsys.getcwd st.calls st.cwd)
  have hchdir : sys.chdir (st.calls + 1) st.cwd target = none := by
    rw [← Option.not_isSome_iff_eq_none, hsys.chdir]
    exact h
  rw [doChdir, hp]
  dsimp only
  rw [hchdir]

theorem doChdir_accepted (hsys : Steady sys now accepts) (h : accepts target) (st : HopState δ) :
    (doChdir sys target st).1 = 0 ∧ (doChdir sys target st).2.err = st.err ∧
      sys.chdir (st.calls + 1) st.cwd target = some (doChdir sys target st).2.cwd := by
  obtain ⟨p, hp⟩ := Option.isSome_iff_exists.mp (hsys.getcwd st.calls st.cwd)
  obtain ⟨d, hd⟩ := Option.isSome_iff_exists.mp ((hsys.chdir (st.calls + 1) st.cwd target).mpr h)
  obtain ⟨q, hq⟩ := Option.isSome_iff_exists.mp (hsys.getcwd (st.calls + 2) d)
  rw [doChdir, hp]
  dsimp only
  rw [hd]
  dsimp only
  rw [hq]
  exact ⟨rfl, rfl, rfl⟩

/-- Marking an entry takes it out of those that are left. -/
theorem isLeft_set (hbest : best < tried.length) (i : ℕ) :
    isLeft arg db (tried.set best true) i = true ↔
      isLeft arg db tried i = true ∧ i ≠ best := by
  rw [isLeft_iff, isLeft_iff, and_assoc]
  refine and_congr_right fun _ => ?_
  rw [List.getD_eq_getElem?_getD, List.getD_eq_getElem?_getD, List.getElem?_set]
  by_cases heq : best = i
  · rw [if_pos heq, if_pos (heq ▸ hbest)]
    simp [heq]
  · rw [if_neg heq]
    simp [Ne.symm heq]

/-- The entries that are left, as the measure of the search. -/
def leftSet (arg : List Byte) (db : List HopEntry) (tried : List Bool) : Finset ℕ :=
  (Finset.range db.length).filter (fun i => isLeft arg db tried i = true)

theorem mem_leftSet : i ∈ leftSet arg db tried ↔ isLeft arg db tried i = true := by
  rw [leftSet, Finset.mem_filter, Finset.mem_range]
  exact and_iff_right_of_imp lt_length_of_isLeft

theorem card_leftSet_set (hbest : best < tried.length) (hleft : isLeft arg db tried best = true) :
    (leftSet arg db (tried.set best true)).card < (leftSet arg db tried).card := by
  refine Finset.card_lt_card ⟨fun i hi => ?_, fun hsub => ?_⟩
  · exact mem_leftSet.mpr ((isLeft_set hbest i).mp (mem_leftSet.mp hi)).1
  · have := mem_leftSet.mp (hsub (mem_leftSet.mpr hleft))
    exact ((isLeft_set hbest best).mp this).2 rfl

/-- How a search from `st` ends: in the best entry, which is the last it tries, or with the
    message when there is no entry to end in. -/
def SearchEnds (sys : HopSys δ) (now : ℤ) (accepts : List Byte → Prop) (arg : List Byte)
    (st : HopState δ) (tries : List ℕ) (st' : HopState δ) : Prop :=
  (∃ i e n, IsBest accepts now arg st.db i e ∧ tries.getLast? = some i ∧
    sys.chdir n st.cwd e.path = some st'.cwd ∧ st'.err = st.err) ∨
  ((∀ i e, ¬ Enterable accepts arg st.db i e) ∧ st'.cwd = st.cwd ∧
    st'.err = st.err ++ [.noSuchDirectory])

def Rejected (accepts : List Byte → Prop) (arg : List Byte) (db : List HopEntry)
    (tried : List Bool) : Prop :=
  ∀ i e, Enterable accepts arg db i e → tried.getD i false = false

theorem Rejected.isLeft (h : Rejected accepts arg db tried) (he : Enterable accepts arg db i e) :
    isLeft arg db tried i = true :=
  isLeft_iff.mpr ⟨⟨e, he.entry, he.contains⟩, h i e he⟩

/-- The best of what is left is the best of all, when no enterable entry was tried. -/
theorem Rejected.isBest (h : Rejected accepts arg db tried) (he : Enterable accepts arg db best e)
    (hmax : ∀ j, Shell.isLeft arg db tried j = true → scoreAt now db j ≤ scoreAt now db best ∧
      (scoreAt now db j = scoreAt now db best → best ≤ j)) :
    IsBest accepts now arg db best e := by
  refine ⟨he, fun j f hf => ?_, fun j f hf hscores => ?_⟩
  · rw [← scoreAt_eq hf.entry, ← scoreAt_eq he.entry]
    exact (hmax j (h.isLeft hf)).1
  · rw [← scoreAt_eq hf.entry, ← scoreAt_eq he.entry] at hscores
    exact (hmax j (h.isLeft hf)).2 hscores

theorem Rejected.set (h : Rejected accepts arg db tried) (hbest : best < tried.length)
    (hentry : db[best]? = some e) (hno : ¬ accepts e.path) :
    Rejected accepts arg db (tried.set best true) := by
  intro i f hf
  have hne : i ≠ best := by
    rintro rfl
    rw [hf.entry] at hentry
    cases hentry
    exact hno hf.accepted
  exact (isLeft_iff.mp ((isLeft_set hbest i).mpr ⟨h.isLeft hf, hne⟩)).2

/-- An entry that was tried in vain before does not change how the search ends. -/
theorem SearchEnds.cons {st st' : HopState δ} {tries : List ℕ} {calls : ℕ}
    (h : SearchEnds sys now accepts arg { st with calls := calls } tries st') (best : ℕ) :
    SearchEnds sys now accepts arg st (best :: tries) st' := by
  rcases h with ⟨i, f, n, hi, hlast, hrest⟩ | hmissing
  · refine .inl ⟨i, f, n, hi, ?_, hrest⟩
    rw [List.getLast?_cons, hlast]
    rfl
  · exact .inr hmissing

/-- **The search**, from any set of entries that were tried in vain. The induction is on the
    fuel; each round that goes on takes one entry out of those that are left. -/
theorem searchLoop_spec (hsys : Steady sys now accepts) {fuel : ℕ} (st : HopState δ)
    (hscore : ∀ e ∈ st.db, 0 ≤ e.score) (tried : List Bool) (hsize : st.db.length ≤ tried.length)
    (hfuel : (leftSet arg st.db tried).card < fuel) (hrej : Rejected accepts arg st.db tried) :
    ∃ tries st', searchLoop sys arg fuel tried st = some (tries, st') ∧ tries.Nodup ∧
      (∀ i ∈ tries, isLeft arg st.db tried i = true) ∧
      SearchEnds sys now accepts arg st tries st' := by
  induction fuel generalizing tried st with
  | zero => exact absurd hfuel (Nat.not_lt_zero _)
  | succ fuel ih =>
    rw [searchLoop]
    dsimp only
    cases hbest : (frecencyLookup sys arg st.db tried st.calls).bestIdx with
    | none =>
      refine ⟨_, _, rfl, List.nodup_nil, fun i hi => absurd hi List.not_mem_nil,
        .inr ⟨?_, rfl, rfl⟩⟩
      exact fun i e he => frecencyLookup_none hsys hscore hbest i (hrej.isLeft he)
    | some best =>
      obtain ⟨hleft, hmax⟩ := frecencyLookup_some hsys hscore hbest
      obtain ⟨⟨e, hentry, hinfix⟩, -⟩ := isLeft_iff.mp hleft
      have hpath : pathAt st.db best = e.path := by
        rw [pathAt, hentry]
        rfl
      dsimp only
      rw [hpath]
      by_cases haccept : accepts e.path
      · obtain ⟨hzero, herr, hcwd⟩ := doChdir_accepted hsys haccept
          { st with calls := (frecencyLookup sys arg st.db tried st.calls).calls }
        rw [if_pos hzero]
        refine ⟨_, _, rfl, List.nodup_singleton best, ?_,
          .inl ⟨best, e, _, hrej.isBest ⟨hentry, hinfix, haccept⟩ hmax, rfl, hcwd, herr⟩⟩
        exact fun i hi => List.mem_singleton.mp hi ▸ hleft
      · have hbound : best < tried.length := (lt_length_of_isLeft hleft).trans_le hsize
        have hcard := card_leftSet_set hbound hleft
        rw [doChdir_rejected hsys haccept, if_neg (show (-1 : ℤ) ≠ 0 by decide)]
        obtain ⟨tries, st', hrun, hnodup, htries, hends⟩ := ih
          { st with calls := (frecencyLookup sys arg st.db tried st.calls).calls + 2 } hscore
          (tried.set best true) (by rw [List.length_set]; exact hsize)
          (hcard.trans_le (Nat.le_of_lt_succ hfuel)) (hrej.set hbound hentry haccept)
        have hnotin : best ∉ tries := fun hmem =>
          ((isLeft_set hbound best).mp (htries best hmem)).2 rfl
        rw [hrun]
        refine ⟨_, _, rfl, List.nodup_cons.mpr ⟨hnotin, hnodup⟩, fun i hi => ?_, hends.cons best⟩
        rcases List.mem_cons.mp hi with rfl | hi
        · exact hleft
        · exact ((isLeft_set hbound i).mp (htries i hi)).1

/-- **A fuzzy hop picks the best match that can be entered.** The time is fixed, `getcwd`
    succeeds, `chdir` accepts any set of paths, and the argument is an ordinary name that it
    does not accept. Then the search ends, whatever the database: no entry is tried twice and
    only entries that contain the argument are; it ends in the entry with the highest score,
    the first one if there are several, among those that contain the argument and can be
    entered; and it prints the message exactly if there is none. -/
theorem fuzzy_hop_best (sys : HopSys δ) (now : ℤ) (accepts : List Byte → Prop)
    (hsys : Steady sys now accepts) (arg : List Byte) (harg : Ordinary arg)
    (hdirect : ¬ accepts arg) (st : HopState δ) (hsize : st.db.length ≤ maxHopEntries)
    (hscore : ∀ e ∈ st.db, 0 ≤ e.score) (fuel : ℕ) (hfuel : st.db.length < fuel) :
    ∃ tries st', searchLoop sys arg fuel (List.replicate maxHopEntries false)
        (doChdir sys arg st).2 = some (tries, st') ∧
      hopOne sys fuel (some arg) st = some st' ∧
      tries.Nodup ∧ (∀ i ∈ tries, ∃ e, st.db[i]? = some e ∧ arg <:+: e.path) ∧
      (∀ i e, IsBest accepts now arg st.db i e → tries.getLast? = some i ∧
        (∃ n, sys.chdir n st.cwd e.path = some st'.cwd) ∧ st'.err = st.err) ∧
      ((∃ i e, Enterable accepts arg st.db i e) → ∃ i e, IsBest accepts now arg st.db i e) ∧
      (st.reports < st'.reports ↔ ∀ i e, ¬ Enterable accepts arg st.db i e) := by
  have hcard : (leftSet arg st.db (List.replicate maxHopEntries false)).card < fuel := by
    refine lt_of_le_of_lt (Finset.card_filter_le _ _) ?_
    rw [Finset.card_range]
    exact hfuel
  have hrej : Rejected accepts arg st.db (List.replicate maxHopEntries false) := by
    intro i e _
    rw [List.getD_eq_getElem?_getD, List.getElem?_replicate]
    split_ifs <;> rfl
  obtain ⟨tries, st', hrun, hnodup, htries, hends⟩ := searchLoop_spec hsys
    { st with calls := st.calls + 2 } hscore (List.replicate maxHopEntries false)
    (by rw [List.length_replicate]; exact hsize) hcard hrej
  refine ⟨tries, st', ?_, ?_, hnodup, fun i hi => (isLeft_iff.mp (htries i hi)).1, ?_⟩
  · rw [doChdir_rejected hsys hdirect]
    exact hrun
  · rw [hopOne_ordinary harg, doChdir_rejected hsys hdirect,
      if_neg (show (-1 : ℤ) ≠ 0 by decide), hrun]
    rfl
  · rcases hends with ⟨i, e, n, hbest, hlast, hcwd, herr⟩ | ⟨hnone, hcwd, herr⟩
    · refine ⟨fun j f hf => ?_, fun _ => ⟨i, e, hbest⟩, ?_⟩
      · -- two best entries are the same one
        have hle := hf.highest i e hbest.toEnterable
        have hge := hbest.highest j f hf.toEnterable
        have hij : i = j := le_antisymm
          (hbest.first j f hf.toEnterable (le_antisymm hge hle))
          (hf.first i e hbest.toEnterable (le_antisymm hle hge))
        subst hij
        have hef : some e = some f := hbest.entry.symm.trans hf.entry
        cases hef
        exact ⟨hlast, ⟨n, hcwd⟩, herr⟩
      · refine iff_of_false ?_ fun hnone => hnone i e hbest.toEnterable
        rw [HopState.reports, HopState.reports, herr]
        exact lt_irrefl _
    · refine ⟨fun j f hf => absurd hf.toEnterable (hnone j f), ?_, ?_⟩
      · rintro ⟨i, e, he⟩
        exact absurd he (hnone i e)
      · refine iff_of_true ?_ hnone
        rw [HopState.reports, HopState.reports, herr, List.count_append]
        simp

/-- A system with two directories and short paths. -/
def flatSys : HopSys Bool where
  pathOf := fun _ d => some (if d then ascii "/b" else ascii "/a")
  chdir := fun _ _ p => if p = ascii "/b" then some true else none
  time := fun _ => 0
  home := none

theorem flatSys_getcwd (n : ℕ) (d : Bool) : (flatSys.getcwd n d).isSome := by
  cases d <;> rfl

/-- Two matches; the one with the higher score cannot be entered. -/
theorem fuzzy_hop_best_second :
    ∃ st', hopOne flatSys 3 (some (ascii "b")) ⟨false, [],
        [⟨ascii "/bin", 9, 0⟩, ⟨ascii "/b", 1, 0⟩], [], 0⟩ = some st' ∧
      st'.cwd = true ∧ st'.err = [] := by
  have hsys : Steady flatSys 0 (fun p => p = ascii "/b") := by
    refine ⟨flatSys_getcwd, fun n d p => ?_, fun _ => rfl⟩
    simp [flatSys]
  obtain ⟨tries, st', -, hhop, -, -, hbest, -, -⟩ := fuzzy_hop_best flatSys 0 _ hsys (ascii "b")
    ⟨by decide, by decide, by decide, by decide⟩ (by decide)
    ⟨false, [], [⟨ascii "/bin", 9, 0⟩, ⟨ascii "/b", 1, 0⟩], [], 0⟩ (by decide)
    (by simp) 3 (by decide)
  have hsecond : IsBest (fun p => p = ascii "/b") 0 (ascii "b")
      [⟨ascii "/bin", 9, 0⟩, ⟨ascii "/b", 1, 0⟩] 1 ⟨ascii "/b", 1, 0⟩ := by
    have honly : ∀ j f, Enterable (fun p => p = ascii "/b") (ascii "b")
        [⟨ascii "/bin", 9, 0⟩, ⟨ascii "/b", 1, 0⟩] j f → j = 1 ∧ f = ⟨ascii "/b", 1, 0⟩ := by
      rintro (_ | _ | j) f ⟨hentry, -, haccept⟩
      · cases hentry
        exact absurd haccept (by decide)
      · cases hentry
        exact ⟨rfl, rfl⟩
      · cases hentry
    refine ⟨⟨rfl, by decide, rfl⟩, fun j f hf => ?_, fun j f hf _ => ?_⟩
    · rw [(honly j f hf).2]
    · rw [(honly j f hf).1]
  obtain ⟨-, ⟨n, hcwd⟩, herr⟩ := hbest 1 _ hsecond
  refine ⟨st', hhop, ?_, herr⟩
  have htrue : flatSys.chdir n false (ascii "/b") = some true := by simp [flatSys]
  exact Option.some_inj.mp (hcwd.symm.trans htrue)

end MiniOs.Shell

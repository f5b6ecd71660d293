import Mathlib.Data.Int.Basic
import Mathlib.Data.List.Basic
import Mathlib.Data.List.TakeWhile
import MiniOs.Lib.Lines
import MiniOs.Shell.Token

/-!
# Reading a line of input

`read_input_line` of `main.c` fills a buffer of 1024 bytes by calls of `fgets` until it
holds a whole line. A call may stop early: at the end of the file, or because a signal
interrupts it, and then what that call has stored is given up.

Standard input is the list of what reading it meets, and a file that has ended stays
ended. Each turn of the loop takes something off that list, except on a terminal whose
input has ended in the middle of a line, which is read for ever.
-/

namespace MiniOs.Shell

open Lines

variable {l : List Byte}

def Byte.newline : Byte := 10

def inputSize : ℕ := 1024

/-- What a read of standard input meets next. -/
inductive Stdin where
  | byte (c : Byte)
  /-- A signal interrupts the read: `check_bg_jobs` then reports `reported` jobs, and
      `cancelled` tells whether SIGINT or SIGTSTP has arrived. -/
  | eintr (reported : ℕ) (cancelled : Bool)
  /-- Ctrl-D. -/
  | eof
  | error
  deriving DecidableEq, Repr

inductive Stop where
  | done
  | eof
  | eintr (reported : ℕ) (cancelled : Bool)
  | error
  deriving DecidableEq, Repr

/-- What `fgets` takes off standard input, and how it stops. -/
structure Got where
  bytes : List Byte
  stop : Stop
  rest : List Stdin
  deriving DecidableEq, Repr

/-- Bytes taken before. -/
def Got.append (p : List Byte) (g : Got) : Got := { g with bytes := p ++ g.bytes }

/-- At most `n` bytes, and none behind a newline. -/
def getline : ℕ → List Stdin → Got
  | 0, s => ⟨[], .done, s⟩
  | _ + 1, [] => ⟨[], .eof, []⟩
  | n + 1, .byte c :: s =>
    if c = Byte.newline then ⟨[c], .done, s⟩ else (getline n s).append [c]
  | _ + 1, .eintr reported cancelled :: s => ⟨[], .eintr reported cancelled, s⟩
  | _ + 1, .eof :: s => ⟨[], .eof, s⟩
  | _ + 1, .error :: s => ⟨[], .error, s⟩

def fgets (size : ℕ) (s : List Stdin) : Got := getline (size - 1) s

/-- The returned string; `none` is `NULL`. -/
def Got.line (g : Got) : Option (List Byte) :=
  match g.stop with
  | .done => some g.bytes
  | .eof => if g.bytes = [] then none else some g.bytes
  | .eintr _ _ => none
  | .error => none

/-- A string up to its terminator. -/
def cstr (l : List Byte) : List Byte := l.takeWhile (· ≠ Byte.nul)

/-- End of file: the status to return, or `none` to read on. -/
def atEof (tty : Bool) (input : List Byte) : Option ℤ :=
  if input = [] then some (-1) else if tty then none else some 0

/-- The checks behind a successful `fgets`. -/
def afterLine (size : ℕ) (tty : Bool) (stop : Stop) (input : List Byte) : Option ℤ :=
  if input.getLast? = some Byte.newline then some 0
  else if size ≤ input.length + 1 then some 0
  else if stop = .eof then atEof tty input
  else none

/-- What one turn of the loop leaves: the buffer, the status if it returns, and the
    number of prompts it shows. -/
structure Turn where
  input : List Byte
  status : Option ℤ
  prompts : ℕ
  deriving DecidableEq, Repr

/-- A turn in which `fgets` returns `NULL`. -/
def failedTurn (tty : Bool) (input : List Byte) : Stop → Turn
  | .eof => ⟨input, atEof tty input, 0⟩
  | .eintr reported cancelled =>
    if cancelled then ⟨[], some 1, 0⟩ else ⟨input, none, if 0 < reported then 1 else 0⟩
  | .error => ⟨input, some (-1), 0⟩
  | .done => ⟨input, some (-1), 0⟩

/-- A turn of the loop of `read_input_line`, with what `fgets` got. -/
def readTurn (size : ℕ) (tty : Bool) (input : List Byte) (g : Got) : Turn :=
  match g.line with
  | some bytes => ⟨input ++ cstr bytes, afterLine size tty g.stop (input ++ cstr bytes), 0⟩
  | none => failedTurn tty input g.stop

/-- A call of `read_input_line`: its status, the buffer, the prompts shown, and what is
    left of standard input. -/
structure ReadResult where
  status : ℤ
  input : List Byte
  prompts : ℕ
  rest : List Stdin
  deriving DecidableEq, Repr

/-- The loop of `read_input_line`, for at most the given number of turns. -/
def readLoop (size : ℕ) (tty : Bool) : ℕ → List Byte → ℕ → List Stdin → Option ReadResult
  | 0, _, _, _ => none
  | fuel + 1, input, prompts, s =>
    let g := fgets (size - input.length) s
    let t := readTurn size tty input g
    match t.status with
    | some status => some ⟨status, t.input, prompts + t.prompts, g.rest⟩
    | none => readLoop size tty fuel t.input (prompts + t.prompts) g.rest

/-- `read_input_line`; `none` on a terminal that is read for ever. -/
def readInputLine (size : ℕ) (tty : Bool) (s : List Stdin) : Option ReadResult :=
  readLoop size tty (s.length + 1) [] 0 s

/-- The first calls that `main` makes. -/
def readCalls (tty : Bool) : ℕ → List Stdin → List ReadResult
  | 0, _ => []
  | n + 1, s =>
    match readInputLine inputSize tty s with
    | none => []
    | some r => r :: readCalls tty n r.rest

/-- The lines that the first calls return, with input that is no terminal. -/
def accepted (n : ℕ) (s : List Stdin) : List (List Byte) :=
  ((readCalls false n s).filter (·.status = 0)).map (·.input)

/-- SIGCHLD interruptions, each with the number of jobs reported. -/
def sigchlds (reports : List ℕ) : List Stdin := reports.map (.eintr · false)

/-- The lines one after another, `chld i` being the interruptions before line `i`, and
    those at the end where there is no such line. -/
def delivered (chld : ℕ → List ℕ) : List (List Byte) → List Stdin
  | [] => sigchlds (chld 0)
  | l :: ls => sigchlds (chld 0) ++ (l.map .byte ++ delivered (fun i => chld (i + 1)) ls)

/-- `fgets` cannot tell that the line is over before it meets the end of the file. -/
def Waits (l : List Byte) : Prop :=
  l.getLast? ≠ some Byte.newline ∧ l.length + 1 < inputSize

/-! ## `fgets` -/

section Fgets

variable {p : List Byte} {s : List Stdin} {n : ℕ}

theorem getline_append (hp : Byte.newline ∉ p) (hn : p.length ≤ n) :
    getline n (p.map .byte ++ s) = (getline (n - p.length) s).append p := by
  induction p generalizing n with
  | nil => rfl
  | cons c p ih =>
    rw [List.mem_cons, not_or] at hp
    obtain ⟨n, rfl⟩ : ∃ m, n = m + 1 := Nat.exists_eq_succ_of_ne_zero (by
      rw [List.length_cons] at hn
      omega)
    have hlen : n + 1 - (c :: p).length = n - p.length := by
      rw [List.length_cons]
      omega
    rw [List.map_cons, List.cons_append, getline, if_neg (Ne.symm hp.1),
      ih hp.2 (Nat.le_of_succ_le_succ hn), hlen]
    rfl

theorem getline_line (hp : Byte.newline ∉ p) (hn : p.length < n) :
    getline n ((p ++ [Byte.newline]).map .byte ++ s) = ⟨p ++ [Byte.newline], .done, s⟩ := by
  obtain ⟨m, hm⟩ : ∃ m, n - p.length = m + 1 := ⟨n - p.length - 1, by omega⟩
  rw [List.map_append, List.append_assoc, getline_append hp (Nat.le_of_lt hn), hm,
    List.map_singleton, List.singleton_append, getline, if_pos rfl]
  rfl

theorem getline_full (hp : Byte.newline ∉ p) :
    getline p.length (p.map .byte ++ s) = ⟨p, .done, s⟩ := by
  rw [getline_append hp (Nat.le_refl _), Nat.sub_self, getline, Got.append, List.append_nil]

theorem getline_eof (hp : Byte.newline ∉ p) (hn : p.length < n) :
    getline n (p.map .byte) = ⟨p, .eof, []⟩ := by
  obtain ⟨m, hm⟩ : ∃ m, n - p.length = m + 1 := ⟨n - p.length - 1, by omega⟩
  have h := getline_append (s := []) hp (Nat.le_of_lt hn)
  rw [List.append_nil, hm, getline, Got.append, List.append_nil] at h
  exact h

/-- An interruption stops the call, whatever it has read. -/
theorem getline_eintr (hp : Byte.newline ∉ p) (hn : p.length < n) (r : ℕ) (b : Bool) :
    getline n (p.map .byte ++ .eintr r b :: s) = ⟨p, .eintr r b, s⟩ := by
  obtain ⟨m, hm⟩ : ∃ m, n - p.length = m + 1 := ⟨n - p.length - 1, by omega⟩
  rw [getline_append hp (Nat.le_of_lt hn), hm, getline, Got.append, List.append_nil]

theorem length_getline_le (n : ℕ) (s : List Stdin) : (getline n s).bytes.length ≤ n := by
  induction n generalizing s with
  | zero => exact Nat.le_refl 0
  | succ n ih =>
    rcases s with _ | ⟨⟨c⟩ | ⟨r, b⟩ | _ | _, s⟩
    · exact Nat.zero_le _
    · rw [getline]
      split
      · exact Nat.succ_le_succ (Nat.zero_le n)
      · exact Nat.succ_le_succ (ih s)
    all_goals exact Nat.zero_le _

theorem cstr_of_notMem (h : Byte.nul ∉ p) : cstr p = p :=
  List.takeWhile_eq_self_iff.mpr fun _ hc => decide_eq_true fun h' => h (h' ▸ hc)

theorem length_cstr_le (l : List Byte) : (cstr l).length ≤ l.length :=
  (List.takeWhile_sublist _).length_le

end Fgets

/-! ## One call -/

section Call

variable {p : List Byte} {s : List Stdin} {size fuel k : ℕ} {tty : Bool}

theorem readLoop_line (hp : Byte.newline ∉ p) (h0 : Byte.nul ∉ p) (hsize : p.length + 1 < size) :
    readLoop size tty (fuel + 1) [] k ((p ++ [Byte.newline]).map .byte ++ s) =
      some ⟨0, p ++ [Byte.newline], k, s⟩ := by
  have hgot : fgets (size - ([] : List Byte).length) ((p ++ [Byte.newline]).map .byte ++ s) =
      ⟨p ++ [Byte.newline], .done, s⟩ := getline_line hp (by
    rw [List.length_nil]
    omega)
  have hcstr : cstr (p ++ [Byte.newline]) = p ++ [Byte.newline] := by
    refine cstr_of_notMem ?_
    rw [List.mem_append, not_or]
    exact ⟨h0, by decide⟩
  have hturn : readTurn size tty [] ⟨p ++ [Byte.newline], .done, s⟩ =
      ⟨p ++ [Byte.newline], some 0, 0⟩ := by
    rw [readTurn, Got.line]
    dsimp only
    rw [hcstr, List.nil_append, afterLine, if_pos List.getLast?_concat]
  rw [readLoop]
  rw [hgot, hturn]
  rfl

theorem readLoop_full (hp : Byte.newline ∉ p) (h0 : Byte.nul ∉ p) (hsize : p.length + 1 = size) :
    readLoop size tty (fuel + 1) [] k (p.map .byte ++ s) = some ⟨0, p, k, s⟩ := by
  have hgot : fgets (size - ([] : List Byte).length) (p.map .byte ++ s) = ⟨p, .done, s⟩ := by
    rw [← hsize]
    exact getline_full hp
  have hturn : readTurn size tty [] ⟨p, .done, s⟩ = ⟨p, some 0, 0⟩ := by
    rw [readTurn, Got.line]
    dsimp only
    rw [cstr_of_notMem h0, List.nil_append, afterLine, if_pos (Nat.le_of_eq hsize.symm), ite_self]
  rw [readLoop]
  rw [hgot, hturn]
  rfl

theorem getLast?_ne_newline (hp : Byte.newline ∉ p) : p.getLast? ≠ some Byte.newline :=
  fun h => hp (List.mem_of_getLast? h)

theorem readLoop_eof (hp : Byte.newline ∉ p) (h0 : Byte.nul ∉ p) (hne : p ≠ [])
    (hsize : p.length + 1 < size) :
    readLoop size false (fuel + 1) [] k (p.map .byte) = some ⟨0, p, k, []⟩ := by
  have hgot : fgets (size - ([] : List Byte).length) (p.map .byte) = ⟨p, .eof, []⟩ :=
    getline_eof hp (by
      rw [List.length_nil]
      omega)
  have hturn : readTurn size false [] ⟨p, .eof, []⟩ = ⟨p, some 0, 0⟩ := by
    rw [readTurn, Got.line]
    dsimp only
    rw [if_neg hne]
    dsimp only
    rw [cstr_of_notMem h0, List.nil_append, afterLine, if_neg (getLast?_ne_newline hp),
      if_neg (by omega), if_pos rfl, atEof, if_neg hne]
    rfl
  rw [readLoop]
  rw [hgot, hturn]
  rfl

/-- An interruption: what was read of a line is given up. -/
theorem readLoop_eintr (hp : Byte.newline ∉ p) (hsize : p.length + 1 < size) (r : ℕ) :
    readLoop size tty (fuel + 1) [] k (p.map .byte ++ .eintr r false :: s) =
      readLoop size tty fuel [] (k + if 0 < r then 1 else 0) s := by
  have hgot : fgets (size - ([] : List Byte).length) (p.map .byte ++ .eintr r false :: s) =
      ⟨p, .eintr r false, s⟩ := getline_eintr hp (by
    rw [List.length_nil]
    omega) r false
  rw [readLoop]
  rw [hgot]
  rfl

theorem readLoop_sigchlds (hsize : 1 < size) (reports : List ℕ) :
    ∃ k', readLoop size tty (fuel + reports.length) [] k (sigchlds reports ++ s) =
      readLoop size tty fuel [] k' s := by
  induction reports generalizing k with
  | nil => exact ⟨k, rfl⟩
  | cons r reports ih =>
    obtain ⟨k', hk'⟩ := ih (k := k + if 0 < r then 1 else 0)
    refine ⟨k', ?_⟩
    rw [← hk']
    exact readLoop_eintr (p := []) List.not_mem_nil hsize r

theorem readLoop_nil (hsize : 1 < size) :
    readLoop size tty (fuel + 1) [] k [] = some ⟨-1, [], k, []⟩ := by
  obtain ⟨n, hn⟩ : ∃ n, size - 1 = n + 1 := ⟨size - 2, by omega⟩
  have hgot : fgets (size - ([] : List Byte).length) [] = ⟨[], .eof, []⟩ := by
    rw [fgets, List.length_nil, Nat.sub_zero, hn, getline]
  rw [readLoop]
  rw [hgot]
  rfl

theorem length_readTurn {input : List Byte} (h : input.length < size) :
    (readTurn size tty input (fgets (size - input.length) s)).input.length < size := by
  have hgot := length_getline_le (size - input.length - 1) s
  rw [readTurn]
  split
  · next bytes hline =>
    have hbytes : bytes = (fgets (size - input.length) s).bytes := by
      rw [Got.line] at hline
      split at hline
      · exact (Option.some.inj hline).symm
      · split at hline
        · cases hline
        · exact (Option.some.inj hline).symm
      · cases hline
      · cases hline
    have hcstr := length_cstr_le bytes
    dsimp only
    rw [List.length_append]
    rw [hbytes, fgets] at hcstr ⊢
    omega
  · rw [failedTurn.eq_def]
    split
    · exact h
    · split
      · exact Nat.lt_of_le_of_lt (Nat.zero_le _) h
      · exact h
    · exact h
    · exact h

theorem readLoop_length {input : List Byte} {r : ReadResult} (h : input.length < size)
    (hr : readLoop size tty fuel input k s = some r) : r.input.length < size := by
  induction fuel generalizing input k s with
  | zero => cases hr
  | succ fuel ih =>
    rw [readLoop] at hr
    split at hr
    · cases hr
      exact length_readTurn h
    · exact ih (length_readTurn h) hr

end Call

/-! ## The calls of `main` -/

section Calls

variable {p : List Byte} {s : List Stdin} {chld : ℕ → List ℕ} {ls : List (List Byte)}

theorem readInputLine_sigchlds (reports : List ℕ) (s : List Stdin) :
    ∃ k, readInputLine inputSize false (sigchlds reports ++ s) =
      readLoop inputSize false (s.length + 1) [] k s := by
  have hfuel : (sigchlds reports ++ s).length + 1 = s.length + 1 + reports.length := by
    rw [List.length_append, sigchlds, List.length_map]
    omega
  rw [readInputLine, hfuel]
  exact readLoop_sigchlds (by decide) reports

theorem accepted_succ {n : ℕ} {k : ℕ} {rest : List Stdin}
    (h : readInputLine inputSize false s = some ⟨0, l, k, rest⟩) :
    accepted (n + 1) s = l :: accepted n rest := by
  rw [accepted, readCalls, h]
  rfl

theorem accepted_failed {n : ℕ} {k : ℕ} {rest : List Stdin}
    (h : readInputLine inputSize false s = some ⟨-1, l, k, rest⟩) :
    accepted (n + 1) s = accepted n rest := by
  rw [accepted, readCalls, h]
  rfl

theorem accepted_nil (n : ℕ) : accepted n [] = [] := by
  induction n with
  | zero => rfl
  | succ n ih => rw [accepted_failed (readLoop_nil (by decide)), ih]

theorem accepted_sigchlds (n : ℕ) (reports : List ℕ) : accepted n (sigchlds reports) = [] := by
  cases n with
  | zero => rfl
  | succ n =>
    obtain ⟨k, hk⟩ := readInputLine_sigchlds reports []
    rw [List.append_nil, readLoop_nil (by decide)] at hk
    rw [accepted_failed hk, accepted_nil]

/-- A terminated line that fits is returned, and reading goes on behind it. -/
theorem accepted_line (hp : Byte.newline ∉ p) (h0 : Byte.nul ∉ p) (hsize : p.length + 1 < inputSize)
    (n : ℕ) :
    accepted (n + 1) (delivered chld ((p ++ [Byte.newline]) :: ls)) =
      (p ++ [Byte.newline]) :: accepted n (delivered (fun i => chld (i + 1)) ls) := by
  obtain ⟨k, hk⟩ := readInputLine_sigchlds (chld 0)
    ((p ++ [Byte.newline]).map .byte ++ delivered (fun i => chld (i + 1)) ls)
  rw [readLoop_line hp h0 hsize] at hk
  exact accepted_succ hk

/-- A last line without newline is returned, if `fgets` is not interrupted behind it. -/
theorem accepted_last (hp : Byte.newline ∉ p) (h0 : Byte.nul ∉ p) (hne : p ≠ [])
    (hsize : p.length < inputSize) (hend : Waits p → chld 1 = []) (n : ℕ) :
    accepted (n + 1) (delivered chld [p]) = [p] := by
  obtain ⟨k, hk⟩ := readInputLine_sigchlds (chld 0) (p.map .byte ++ sigchlds (chld 1))
  rcases Nat.lt_or_eq_of_le (Nat.succ_le_of_lt hsize) with hlt | heq
  · have hsigs : sigchlds (chld 1) = [] := by
      rw [hend ⟨getLast?_ne_newline hp, hlt⟩]
      rfl
    rw [hsigs, List.append_nil, readLoop_eof hp h0 hne hlt] at hk
    have h := accepted_succ (n := n) hk
    rw [accepted_nil] at h
    rw [delivered, delivered, hsigs, List.append_nil]
    exact h
  · rw [readLoop_full hp h0 heq] at hk
    have h := accepted_succ (n := n) hk
    rw [accepted_sigchlds] at h
    exact h

/-- Interrupted before the end of the file is seen, it is lost. -/
theorem accepted_lost (hp : Byte.newline ∉ p) (hwaits : Waits p) (hend : chld 1 ≠ []) (n : ℕ) :
    accepted (n + 1) (delivered chld [p]) = [] := by
  obtain ⟨r, reports, hchld⟩ := List.exists_cons_of_ne_nil hend
  obtain ⟨k, hk⟩ := readInputLine_sigchlds (chld 0) (p.map .byte ++ sigchlds (chld 1))
  obtain ⟨k', hk'⟩ : ∃ k', readLoop inputSize false (p.length + 1 + reports.length) []
      (k + if 0 < r then 1 else 0) (sigchlds reports ++ []) =
      readLoop inputSize false (p.length + 1) [] k' [] := readLoop_sigchlds (by decide) reports
  have hfuel : (p.map Stdin.byte ++ sigchlds (chld 1)).length = p.length + 1 + reports.length := by
    rw [hchld, List.length_append, sigchlds, List.length_map, List.length_map, List.length_cons]
    omega
  have hsigs : sigchlds (chld 1) = .eintr r false :: sigchlds reports := by
    rw [hchld]
    rfl
  rw [List.append_nil, readLoop_nil (by decide)] at hk'
  rw [hfuel, hsigs, readLoop_eintr hp hwaits.2, hk', ← hsigs] at hk
  rw [delivered, delivered, accepted_failed hk, accepted_nil]

theorem length_lt_of_mem_accepted {n : ℕ} (h : l ∈ accepted n s) :
    l.length < inputSize := by
  obtain ⟨r, hr, rfl⟩ := List.mem_map.mp h
  replace hr := List.mem_of_mem_filter hr
  clear h
  induction n generalizing s with
  | zero => cases hr
  | succ n ih =>
    rw [readCalls] at hr
    split at hr
    · cases hr
    · next r' hcall =>
      rcases List.mem_cons.mp hr with rfl | hr
      · exact readLoop_length (by decide) hcall
      · exact ih hr

end Calls

/-! ## Whole inputs -/

section Whole

variable {bs : List Byte}

theorem not_waits_line (p : List Byte) : ¬ Waits (p ++ [Byte.newline]) :=
  fun h => h.1 List.getLast?_concat

theorem accepted_delivered (h0 : Byte.nul ∉ bs) (chld : ℕ → List ℕ)
    (hshort : ∀ l ∈ lines Byte.newline bs, l.length < inputSize)
    (hend : ∀ l ∈ lines Byte.newline bs, Waits l → chld (lines Byte.newline bs).length = [])
    (n : ℕ) :
    accepted n (delivered chld (lines Byte.newline bs)) = (lines Byte.newline bs).take n := by
  induction bs using lines_induction Byte.newline generalizing chld n with
  | nil =>
    rw [lines, List.take_nil]
    exact accepted_sigchlds n (chld 0)
  | last p hp hne =>
    rw [lines_of_notMem hp hne] at hshort hend ⊢
    have hmem : p ∈ [p] := List.mem_singleton_self p
    cases n with
    | zero => rfl
    | succ n =>
      rw [accepted_last hp h0 hne (hshort p hmem) (hend p hmem), List.take_succ_cons, List.take_nil]
  | line p r hp ih =>
    rw [List.mem_append, List.mem_cons, not_or, not_or] at h0
    rw [lines_append_nl hp] at hshort hend ⊢
    rw [List.forall_mem_cons] at hshort hend
    rw [List.length_cons] at hend
    have hlen : p.length + 1 < inputSize := by
      have h := hshort.1
      rw [List.length_append, List.length_singleton] at h
      exact h
    cases n with
    | zero => rfl
    | succ n =>
      rw [accepted_line hp h0.1 hlen, List.take_succ_cons,
        ih h0.2.2 (fun i => chld (i + 1)) hshort.2 hend.2 n]

/-- Where the last line waits for the end of the file, an interruption takes it away. -/
theorem accepted_delivered_lost (h0 : Byte.nul ∉ bs) (chld : ℕ → List ℕ)
    (hshort : ∀ l ∈ lines Byte.newline bs, l.length < inputSize) (hl : l ∈ lines Byte.newline bs)
    (hwaits : Waits l) (hend : chld (lines Byte.newline bs).length ≠ []) (n : ℕ) :
    accepted n (delivered chld (lines Byte.newline bs)) =
      (lines Byte.newline bs).dropLast.take n := by
  induction bs using lines_induction Byte.newline generalizing chld n with
  | nil => cases hl
  | last p hp hne =>
    rw [lines_of_notMem hp hne] at hl hend ⊢
    rw [List.mem_singleton.mp hl] at hwaits
    rw [List.dropLast_singleton, List.take_nil]
    cases n with
    | zero => rfl
    | succ n => exact accepted_lost hp hwaits hend n
  | line p r hp ih =>
    rw [List.mem_append, List.mem_cons, not_or, not_or] at h0
    rw [lines_append_nl hp] at hl hshort hend ⊢
    rw [List.forall_mem_cons] at hshort
    have hlen : p.length + 1 < inputSize := by
      have h := hshort.1
      rw [List.length_append, List.length_singleton] at h
      exact h
    -- The line that waits is not this one, so there are lines left to drop the last of.
    have hl' : l ∈ lines Byte.newline r := by
      rcases List.mem_cons.mp hl with rfl | hl
      · exact absurd hwaits (not_waits_line p)
      · exact hl
    rw [List.dropLast_cons_of_ne_nil (List.ne_nil_of_mem hl')]
    cases n with
    | zero => rfl
    | succ n =>
      rw [accepted_line hp h0.1 hlen, List.take_succ_cons,
        ih h0.2.2 (fun i => chld (i + 1)) hshort.2 hl' hend n]

/-- **The lines of an input are read whole** exactly if they fit the buffer and no
    interruption comes between a last line without newline and the end of the file. -/
theorem input_lines_whole_iff (chld : ℕ → List ℕ) (bs : List Byte) (h0 : Byte.nul ∉ bs) :
    (∀ n, accepted n (delivered chld (lines Byte.newline bs)) = (lines Byte.newline bs).take n) ↔
      (∀ l ∈ lines Byte.newline bs, l.length < inputSize) ∧
      ∀ l ∈ lines Byte.newline bs, Waits l → chld (lines Byte.newline bs).length = [] := by
  constructor
  · intro h
    have hall := h (lines Byte.newline bs).length
    rw [List.take_length] at hall
    have hshort : ∀ l ∈ lines Byte.newline bs, l.length < inputSize := by
      intro l hl
      rw [← hall] at hl
      exact length_lt_of_mem_accepted hl
    refine ⟨hshort, fun l hl hwaits => ?_⟩
    by_contra hend
    rw [accepted_delivered_lost h0 chld hshort hl hwaits hend] at hall
    have hlen := congrArg List.length hall
    have hpos := List.length_pos_of_mem hl
    rw [List.length_take, List.length_dropLast] at hlen
    omega
  · rintro ⟨hshort, hend⟩ n
    exact accepted_delivered h0 chld hshort hend n

/-- Two lines, the second without newline, with an interruption before each. -/
theorem input_lines_whole_two :
    Byte.nul ∉ ([108, 115, 10, 97] : List Byte) ∧
    ∀ n, accepted n (delivered (fun i => if i < 2 then [1] else [])
        (lines Byte.newline [108, 115, 10, 97])) =
      (lines Byte.newline [108, 115, 10, 97]).take n :=
  ⟨by decide, (input_lines_whole_iff (fun i => if i < 2 then [1] else []) [108, 115, 10, 97]
    (by decide)).mpr ⟨by decide, fun _ _ _ => rfl⟩⟩

/-- A line of 1026 bytes: 1023 letters, then `ls` and the newline. -/
def longLine : List Byte := List.replicate 1023 97 ++ [108, 115, 10]

/-- Its end is returned as a line of its own. -/
theorem long_line_split :
    lines Byte.newline longLine = [longLine] ∧
    accepted 2 (delivered (fun _ => []) (lines Byte.newline longLine)) =
      [List.replicate 1023 97, [108, 115, 10]] := by
  have hletters : ∀ c : Byte, c ≠ 97 → c ∉ List.replicate 1023 (97 : Byte) :=
    fun c hc h => hc (List.eq_of_mem_replicate h)
  have hline : longLine = (List.replicate 1023 97 ++ [108, 115]) ++ [Byte.newline] := by
    rw [List.append_assoc]
    rfl
  have hlines : lines Byte.newline longLine = [longLine] := by
    rw [hline]
    refine lines_singleton ?_
    rw [List.mem_append, not_or]
    exact ⟨hletters _ (by decide), by decide⟩
  refine ⟨hlines, ?_⟩
  -- The first call fills the buffer; the second starts in the middle of the line.
  have hstream : delivered (fun _ => []) [longLine] =
      (List.replicate 1023 97).map Stdin.byte ++ delivered (fun _ => []) [[108, 115] ++ [10]] := by
    rw [delivered, delivered, longLine, List.map_append, List.append_assoc]
    rfl
  have hfirst : readInputLine inputSize false (delivered (fun _ => []) [longLine]) =
      some ⟨0, List.replicate 1023 97, 0, delivered (fun _ => []) [[108, 115] ++ [10]]⟩ := by
    rw [hstream]
    exact readLoop_full (hletters _ (by decide)) (hletters _ (by decide)) (by
      rw [List.length_replicate]
      rfl)
  rw [hlines, accepted_succ hfirst]
  refine congrArg (List.replicate 1023 97 :: ·) ?_
  exact accepted_line (p := [108, 115]) (by decide) (by decide) (by decide) 0

end Whole

end MiniOs.Shell

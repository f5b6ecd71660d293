import Mathlib
import MiniOs.Lib.Descriptors
import MiniOs.Shell.Pipeline

/-!
# The shell's descriptors

Redirections and pipes are opened in the shell itself, handed to its children by `fork`, and
closed again in the shell, on a dozen paths through `exec.c` and `seq.c`. A descriptor that is
left open stays open for good, and keeps the reader of a pipe from ever seeing its end.

The functions below are those of the shell process: what a child does after `fork` happens in
a table of its own, and waiting for a child, signals, process groups and the terminal concern
no table. Every `open`, `pipe`, `fork`, `malloc` and `resolve_command` may fail.
-/

namespace MiniOs.Shell.Fd

open Std.Do Descriptors

def stdinFileno : ℕ := 0

def stdoutFileno : ℕ := 1

/-- `fork`; `true` in the parent of a new child, `false` if there is none. -/
abbrev fork (env : Env) : Prog Bool := ask env

/-- `malloc` or `calloc` returns memory. -/
abbrev malloc (env : Env) : Prog Bool := ask env

abbrev resolveCommand (env : Env) : Prog Bool := ask env

/-! ## Redirections -/

/-- `Redirs`, without the pids of the helpers. A negative descriptor is `none`. -/
structure Redirs where
  inFd : Option ℕ
  outFd : Option ℕ

def Redirs.fds (r : Redirs) : List ℕ := r.inFd.toList ++ r.outFd.toList

/-- `redirs_validate`. The branches for input and for output differ in the flags of `open`
    and in the message only. -/
def redirsValidate (env : Env) (stop : List Token) : List Token → Prog Bool
  | [] => pure true
  | t :: l => do
    if isRedirEnd stop (t :: l) then pure true
    else if t.type.IsRedir then
      match l with
      | [] => pure false
      | w :: l' =>
        if isRedirEnd stop (w :: l') ∨ w.type ≠ .word then pure false
        else
          match ← openFile env with
          | none => pure false
          | some fd =>
            close fd
            redirsValidate env stop l'
    else redirsValidate env stop l

/-- `spawn_feeder`: the read end of its pipe. -/
def spawnFeeder (env : Env) : Prog (Option ℕ) := do
  match ← pipe env with
  | none => pure none
  | some p =>
    if ← fork env then
      close p.2
      pure (some p.1)
    else
      close p.1
      close p.2
      pure none

/-- `spawn_tee`: the write end of its pipe. -/
def spawnTee (env : Env) : Prog (Option ℕ) := do
  match ← pipe env with
  | none => pure none
  | some p =>
    if ← fork env then
      close p.1
      pure (some p.2)
    else
      close p.1
      close p.2
      pure none

def closeFd : Option ℕ → Prog Unit
  | none => pure ()
  | some fd => close fd

def redirsClose (r : Redirs) : Prog Unit := do
  closeFd r.inFd
  closeFd r.outFd

/-- The descriptor for `n` targets of one kind: none, a file, or a pipe to a helper. -/
def openTargets (env : Env) (spawn : Prog (Option ℕ)) (n : ℕ) : Prog (Option ℕ) :=
  if n = 1 then openFile env else if 1 < n then spawn else pure none

/-- `redirs_open`; `none` is its return value `-1`. -/
def redirsOpen (env : Env) (start stop : List Token) : Prog (Option Redirs) := do
  let c := countRedirs stop .zero start
  let inFd ← openTargets env (spawnFeeder env) c.nIn
  if 0 < c.nIn ∧ inFd = none then pure none
  else
    let outFd ← openTargets env (spawnTee env) c.nOut
    if 0 < c.nOut ∧ outFd = none then
      redirsClose ⟨inFd, outFd⟩
      pure none
    else pure (some ⟨inFd, outFd⟩)

def installFd (target : ℕ) : Option ℕ → Prog Unit
  | none => pure ()
  | some fd => do
    dup2 fd target
    close fd

def redirsInstall (r : Redirs) : Prog Unit := do
  installFd stdinFileno r.inFd
  installFd stdoutFileno r.outFd

/-! ## Commands and pipelines -/

def executeCommand (env : Env) (argv : List (List Byte)) (start : List Token) : Prog Int := do
  if argv = [] then pure 0
  else if ¬ (← redirsValidate env [] start) then pure 0
  else if ¬ (← resolveCommand env) then pure 1
  else
    match ← redirsOpen env start [] with
    | none => pure 0
    | some r =>
      if ← fork env then
        redirsClose r
        pure 0
      else
        redirsClose r
        pure 0

def validateSegments (env : Env) : List (List Token × List Token) → Prog Bool
  | [] => pure true
  | s :: segs => do
    if ← redirsValidate env s.2 s.1 then validateSegments env segs else pure false

/-- The loop that closes both ends of the pipes. -/
def closePipes : List (ℕ × ℕ) → Prog Unit
  | [] => pure ()
  | p :: pipes => do
    close p.1
    close p.2
    closePipes pipes

/-- The loop that opens the pipes; `pipes` are those before. -/
def openPipes (env : Env) (pipes : List (ℕ × ℕ)) : ℕ → Prog (Option (List (ℕ × ℕ)))
  | 0 => pure (some pipes)
  | n + 1 => do
    match ← pipe env with
    | none =>
      closePipes pipes
      pure none
    | some p => openPipes env (pipes ++ [p]) n

/-- `n` calls of `malloc`, all of which have to succeed. -/
def mallocs (env : Env) : ℕ → Prog Bool
  | 0 => pure true
  | n + 1 => do
    let ok ← malloc env
    let rest ← mallocs env n
    pure (ok && rest)

/-- `argv`; `argc` is 0 if it could not be allocated. -/
def argvOf (alloc : Bool) (argv : Option Argv) : List (List Byte) :=
  if alloc then (argv.map Argv.argv).getD [] else []

/-- One round of the stage loop. -/
def launchStage (env : Env) (s : List Token × List Token) : Prog Unit := do
  match argvOf (← malloc env) (extractSegmentArgv s.1 s.2) with
  | [] => discard (fork env)
  | name :: _ =>
    if ← (if isBuiltin name then pure true else resolveCommand env) then
      match ← redirsOpen env s.1 s.2 with
      | none => pure ()
      | some r =>
        if ← fork env then redirsClose r else redirsClose r
    else discard (fork env)

def launchStages (env : Env) : List (List Token × List Token) → Prog Unit
  | [] => pure ()
  | s :: segs => do
    launchStage env s
    launchStages env segs

/-- What `execute_pipeline` and `execute_pipeline_bg` share. They allocate memory for the
    stages by `stageMallocs` calls. -/
def runPipeline (env : Env) (a : SegArrays) (stageMallocs : ℕ) : Prog Unit := do
  let segs := a.starts.zip a.ends
  if ¬ (← mallocs env 2) then pure ()
  else if ¬ (← validateSegments env segs) then pure ()
  else if ¬ (← (if 1 < a.nCmds then malloc env else pure true)) then pure ()
  else
    match ← openPipes env [] (a.nCmds - 1) with
    | none => pure ()
    | some pipes =>
      if ← mallocs env stageMallocs then
        launchStages env segs
        closePipes pipes
      else closePipes pipes

/-- `execute_pipeline`: `pids`, `names` and `redirs` are allocated. -/
def executePipeline (env : Env) (start : List Token) : Prog Unit :=
  runPipeline env (executePipelineSegs start) 3

/-- `execute_pipeline_bg`: `pids` is allocated. -/
def executePipelineBg (env : Env) (start : List Token) : Prog Unit :=
  runPipeline env (executePipelineBgSegs start) 1

/-! ## Command lines -/

/-- `SavedFds`, without the redirections, which are closed by then. -/
structure SavedFds where
  savedStdin : ℕ
  savedStdout : ℕ

/-- `apply_redirections`; `none` is its return value `-1`. -/
def applyRedirections (env : Env) (start : List Token) : Prog (Option SavedFds) := do
  if ¬ (← redirsValidate env [] start) then pure none
  else
    match ← redirsOpen env start [] with
    | none => pure none
    | some r =>
      let savedStdin ← dup env stdinFileno
      let savedStdout ← dup env stdoutFileno
      redirsInstall r
      pure (some ⟨savedStdin, savedStdout⟩)

def undoRedirections (saved : SavedFds) : Prog Unit := do
  dup2 saved.savedStdout stdoutFileno
  close saved.savedStdout
  dup2 saved.savedStdin stdinFileno
  close saved.savedStdin

/-- A file or directory is opened, read or written, and closed. -/
def useFile (env : Env) : Prog Unit := do closeFd (← openFile env)

/-- `n` files, one after the other. -/
def useFiles (env : Env) : ℕ → Prog Unit
  | 0 => pure ()
  | n + 1 => do
    useFile env
    useFiles env n

/-- A builtin. None of the nine has two files open at a time. -/
def builtin (env : Env) : Prog Unit := do useFiles env (← askCount env)

/-- The part of `run_group` for the builtin `name`. `save_hop_db` writes a file behind `hop`,
    even if the redirections failed. -/
def runBuiltin (env : Env) (name : List Byte) (start : List Token) : Prog Unit := do
  if ← malloc env then
    match ← applyRedirections env start with
    | none => pure ()
    | some saved =>
      builtin env
      undoRedirections saved
    if name = ascii "hop" then useFile env

def runGroup (env : Env) : List Token → Prog Int
  | [] => pure 0
  | t :: l => do
    if ¬ runGroupHasPipe (t :: l) ∧ t.type = .word ∧ isBuiltin t.value then
      runBuiltin env t.value (t :: l)
      pure 0
    else if runGroupHasPipe (t :: l) then
      executePipeline env (t :: l)
      pure 0
    else if ← malloc env then
      if 0 < (extractGroup (t :: l)).argc then
        executeCommand env (extractGroup (t :: l)).argv (t :: l)
      else pure 0
    else pure 0

/-- `run_bg_group`. A single command opens its redirections in the child. -/
def runBgGroup (env : Env) : List Token → Prog Unit
  | [] => pure ()
  | t :: l => do
    if runBgGroupHasPipe (t :: l) then executePipelineBg env (t :: l)
    else
      match argvOf (← malloc env) (extractBgArgv (t :: l)) with
      | [] => pure ()
      | name :: _ =>
        if ← (if isBuiltin name then pure true else resolveCommand env) then discard (fork env)

theorem length_lt_of_groupEnd {t op : Token} {l rest : List Token}
    (h : groupEnd (t :: l) = op :: rest) : rest.length < (t :: l).length := by
  have hle := length_groupEnd_le (t :: l)
  rw [h, List.length_cons] at hle
  omega

def runSequence (env : Env) : List Token → Prog Unit
  | [] => pure ()
  | t :: l =>
    if t.type ≠ .word then runSequence env l
    else
      match _h : groupEnd (t :: l) with
      | [] => do discard (runGroup env (t :: l))
      | op :: rest =>
        if op.type = .opAmp then do
          runBgGroup env (t :: l)
          runSequence env rest
        else do
          let rc ← runGroup env (t :: l)
          if rc ≠ 0 then pure () else runSequence env rest
  termination_by l => l.length
  decreasing_by
    · exact Nat.lt_succ_self l.length
    · exact length_lt_of_groupEnd ‹_›
    · exact length_lt_of_groupEnd ‹_›

/-! ## The table after each function -/

variable {env : Env} {base : Table} {hs : List (ℕ × Option ℕ)}

theorem redirsValidate_spec (stop l : List Token) :
    Balanced base hs (redirsValidate env stop l) := by
  fun_induction redirsValidate env stop l with
  | case5 t w l' hend hredir hword ih =>
    refine triple_bind openFile_spec fun r => ?_
    cases r with
    | none => exact balanced_pure false
    | some fd => exact triple_bind close_spec fun _ => ih
  | case6 t l hend hredir ih => exact ih
  | _ => exact balanced_pure _

/-- The path of `spawn_feeder` and `spawn_tee` on which `fork` fails. -/
theorem closeBoth_spec (p : ℕ × ℕ) :
    ⦃fun w => ⌜Held base (plain (pipeEnds (some p)) ++ hs) w⌝⦄
    (do close p.1; close p.2; pure none : Prog (Option ℕ))
    ⦃unlessDup fun r w => Held base (plain r.toList ++ hs) w⦄ :=
  triple_bind close_spec fun _ => triple_bind close_spec fun _ => triple_pure fun _ hw => hw

theorem spawnFeeder_spec :
    ⦃fun w => ⌜Held base hs w⌝⦄ spawnFeeder env
    ⦃unlessDup fun r w => Held base (plain r.toList ++ hs) w⦄ := by
  refine triple_bind pipe_spec fun r => ?_
  cases r with
  | none => exact triple_pure fun _ hw => hw
  | some p =>
    refine triple_bind ask_spec fun ok => ?_
    split
    · exact triple_bind (close_of_perm (.swap _ _ _)) fun _ => triple_pure fun _ hw => hw
    · exact closeBoth_spec p

theorem spawnTee_spec :
    ⦃fun w => ⌜Held base hs w⌝⦄ spawnTee env
    ⦃unlessDup fun r w => Held base (plain r.toList ++ hs) w⦄ := by
  refine triple_bind pipe_spec fun r => ?_
  cases r with
  | none => exact triple_pure fun _ hw => hw
  | some p =>
    refine triple_bind ask_spec fun ok => ?_
    split
    · exact triple_bind close_spec fun _ => triple_pure fun _ hw => hw
    · exact closeBoth_spec p

theorem closeFd_spec (fd : Option ℕ) :
    ⦃fun w => ⌜Held base (plain fd.toList ++ hs) w⌝⦄ closeFd fd
    ⦃unlessDup fun _ w => Held base hs w⦄ := by
  cases fd with
  | none => exact triple_pure fun _ hw => hw
  | some fd => exact close_spec

theorem redirsClose_spec (r : Redirs) :
    ⦃fun w => ⌜Held base (plain r.fds ++ hs) w⌝⦄ redirsClose r
    ⦃unlessDup fun _ w => Held base hs w⦄ := by
  rw [Redirs.fds, plain_append, List.append_assoc]
  exact triple_bind (closeFd_spec r.inFd) fun _ => closeFd_spec r.outFd

theorem openTargets_spec {spawn : Prog (Option ℕ)}
    (hspawn : ⦃fun w => ⌜Held base hs w⌝⦄ spawn
      ⦃unlessDup fun r w => Held base (plain r.toList ++ hs) w⦄) (n : ℕ) :
    ⦃fun w => ⌜Held base hs w⌝⦄ openTargets env spawn n
    ⦃unlessDup fun r w => Held base (plain r.toList ++ hs) w⦄ := by
  unfold openTargets
  split
  · exact openFile_spec
  · split
    · exact hspawn
    · exact triple_pure fun _ hw => hw

def opened (r : Option Redirs) : List ℕ := r.elim [] Redirs.fds

/-- **`redirs_open`** leaves open what it returns, and nothing when it returns `-1`. -/
theorem redirsOpen_spec (start stop : List Token) :
    ⦃fun w => ⌜Held base hs w⌝⦄ redirsOpen env start stop
    ⦃unlessDup fun r w => Held base (plain (opened r) ++ hs) w⦄ := by
  refine triple_bind (openTargets_spec spawnFeeder_spec _) fun inFd => ?_
  split
  · next hfail =>
    rw [hfail.2]
    exact triple_pure fun _ hw => hw
  · refine triple_bind (openTargets_spec spawnTee_spec _) fun outFd => ?_
    -- the output was opened on top of the input
    have horder : ∀ w, Held base (plain outFd.toList ++ (plain inFd.toList ++ hs)) w →
        Held base (plain (Redirs.fds ⟨inFd, outFd⟩) ++ hs) w := by
      intro w hw
      rw [Redirs.fds, plain_append, List.append_assoc]
      exact hw.perm (List.perm_append_comm_assoc _ _ _)
    split
    · refine triple_imp (P := Held base (plain (Redirs.fds ⟨inFd, outFd⟩) ++ hs)) ?_ horder
        fun _ _ hw => hw
      exact triple_bind (redirsClose_spec _) fun _ => triple_pure fun _ hw => hw
    · exact triple_pure horder

/-- The descriptors are held when the child is forked, and closed behind that. -/
theorem forkAndClose_spec (r : Redirs) :
    ⦃fun w => ⌜Held base (plain r.fds ++ hs) w⌝⦄
    (do if ← fork env then redirsClose r else redirsClose r : Prog Unit)
    ⦃unlessDup fun _ w => Held base hs w⦄ := by
  refine triple_bind ask_spec fun ok => ?_
  split <;> exact redirsClose_spec r

theorem executeCommand_spec (argv : List (List Byte)) (start : List Token) :
    Balanced base hs (executeCommand env argv start) := by
  unfold executeCommand
  split
  · exact balanced_pure 0
  · refine (redirsValidate_spec [] start).bind fun valid => ?_
    split
    · exact balanced_pure 0
    · refine ask_spec.bind fun found => ?_
      split
      · exact balanced_pure 1
      · refine triple_bind (redirsOpen_spec start []) fun r => ?_
        cases r with
        | none => exact balanced_pure 0
        | some r =>
          refine triple_bind ask_spec fun ok => ?_
          split <;> exact triple_bind (redirsClose_spec r) fun _ => balanced_pure 0

/-! ### Pipelines -/

def pipeFds (pipes : List (ℕ × ℕ)) : List ℕ := pipes.flatMap (fun p => [p.1, p.2])

theorem closePipes_spec (pipes : List (ℕ × ℕ)) :
    ⦃fun w => ⌜Held base (plain (pipeFds pipes) ++ hs) w⌝⦄ closePipes pipes
    ⦃unlessDup fun _ w => Held base hs w⦄ := by
  induction pipes with
  | nil => exact triple_pure fun _ hw => hw
  | cons p pipes ih =>
    exact triple_bind close_spec fun _ => triple_bind close_spec fun _ => ih

theorem openPipes_spec (pipes : List (ℕ × ℕ)) (n : ℕ) :
    ⦃fun w => ⌜Held base (plain (pipeFds pipes) ++ hs) w⌝⦄ openPipes env pipes n
    ⦃unlessDup fun r w => Held base (plain (r.elim [] pipeFds) ++ hs) w⦄ := by
  induction n generalizing pipes with
  | zero => exact triple_pure fun _ hw => hw
  | succ n ih =>
    refine triple_bind pipe_spec fun r => ?_
    cases r with
    | none => exact triple_bind (closePipes_spec pipes) fun _ => triple_pure fun _ hw => hw
    | some p =>
      refine triple_imp (ih (pipes ++ [p])) (fun w hw => ?_) fun _ _ hw => hw
      -- the new pipe is the last one of the array
      have harray : pipeFds (pipes ++ [p]) = pipeFds pipes ++ pipeEnds (some p) := by
        simp [pipeFds, pipeEnds]
      rw [harray, plain_append, List.append_assoc]
      exact hw.perm (List.perm_append_comm_assoc _ _ _)

theorem validateSegments_spec (segs : List (List Token × List Token)) :
    Balanced base hs (validateSegments env segs) := by
  induction segs with
  | nil => exact balanced_pure true
  | cons s segs ih => exact (redirsValidate_spec s.2 s.1).bind fun _ => ih.ite (balanced_pure false)

theorem mallocs_spec (n : ℕ) : Balanced base hs (mallocs env n) := by
  induction n with
  | zero => exact balanced_pure true
  | succ n ih => exact ask_spec.bind fun _ => ih.bind fun _ => balanced_pure _

theorem resolved_spec (name : List Byte) :
    Balanced base hs (if isBuiltin name then pure true else resolveCommand env) :=
  (balanced_pure true).ite ask_spec

theorem launchStage_spec (s : List Token × List Token) : Balanced base hs (launchStage env s) := by
  refine ask_spec.bind fun ok => ?_
  split
  · exact ask_spec.discard
  · refine (resolved_spec _).bind fun found => ?_
    split
    · refine triple_bind (redirsOpen_spec s.1 s.2) fun r => ?_
      cases r with
      | none => exact balanced_pure ()
      | some r => exact forkAndClose_spec r
    · exact ask_spec.discard

theorem launchStages_spec (segs : List (List Token × List Token)) :
    Balanced base hs (launchStages env segs) := by
  induction segs with
  | nil => exact balanced_pure ()
  | cons s segs ih => exact (launchStage_spec s).bind fun _ => ih

/-- **A pipeline** leaves the table as it was, wherever it gives up. -/
theorem runPipeline_spec (a : SegArrays) (stageMallocs : ℕ) :
    Balanced base hs (runPipeline env a stageMallocs) := by
  refine (mallocs_spec 2).bind fun ok => ?_
  split
  · exact balanced_pure ()
  · refine (validateSegments_spec _).bind fun valid => ?_
    split
    · exact balanced_pure ()
    · refine (ask_spec.ite (balanced_pure true)).bind fun ok => ?_
      split
      · exact balanced_pure ()
      · refine triple_bind (openPipes_spec [] _) fun r => ?_
        cases r with
        | none => exact balanced_pure ()
        | some pipes =>
          refine triple_bind (mallocs_spec stageMallocs) fun ok => ?_
          split
          · exact triple_bind (launchStages_spec _) fun _ => closePipes_spec pipes
          · exact closePipes_spec pipes

/-! ### Builtins -/

/-- The table `base`, in which the standard descriptors refer to other objects. -/
def redirected (base : Table) (e₀ e₁ : Entry) (o₀ o₁ : ℕ) : Table :=
  Function.update (Function.update base stdinFileno (some ⟨o₀, e₀.serial⟩)) stdoutFileno
    (some ⟨o₁, e₁.serial⟩)

variable {e₀ e₁ : Entry}

theorem redirected_self (h₀ : base stdinFileno = some e₀) (h₁ : base stdoutFileno = some e₁) :
    redirected base e₀ e₁ e₀.obj e₁.obj = base := by
  have hin : Function.update base stdinFileno (some e₀) = base := by
    rw [← h₀, Function.update_eq_self]
  rw [redirected, hin, ← h₁, Function.update_eq_self]

theorem redirected_stdin (base : Table) (e₀ e₁ : Entry) (o₀ o₁ : ℕ) :
    redirected base e₀ e₁ o₀ o₁ stdinFileno = some ⟨o₀, e₀.serial⟩ := by
  rw [redirected, Function.update_of_ne (by decide), Function.update_self]

theorem redirected_stdout (base : Table) (e₀ e₁ : Entry) (o₀ o₁ : ℕ) :
    redirected base e₀ e₁ o₀ o₁ stdoutFileno = some ⟨o₁, e₁.serial⟩ := Function.update_self _ _ _

/-- `dup2` onto the standard input, in a table with redirections. -/
theorem update_redirected_stdin (base : Table) (e₀ e₁ : Entry) (o₀ o₁ x : ℕ) :
    Function.update (redirected base e₀ e₁ o₀ o₁) stdinFileno (some ⟨x, e₀.serial⟩) =
      redirected base e₀ e₁ x o₁ := by
  have hne : stdoutFileno ≠ stdinFileno := by decide
  rw [redirected, Function.update_comm hne, Function.update_idem, redirected]

theorem update_redirected_stdout (base : Table) (e₀ e₁ : Entry) (o₀ o₁ x : ℕ) :
    Function.update (redirected base e₀ e₁ o₀ o₁) stdoutFileno (some ⟨x, e₁.serial⟩) =
      redirected base e₀ e₁ o₀ x := Function.update_idem _ _ _

theorem installFd_spec {e : Entry} {target : ℕ} (he : base target = some e) (fd : Option ℕ) :
    ⦃fun w => ⌜Held base (plain fd.toList ++ hs) w⌝⦄ installFd target fd
    ⦃unlessDup fun _ w => ∃ x, Held (Function.update base target (some ⟨x, e.serial⟩)) hs w⦄ := by
  cases fd with
  | none =>
    refine triple_pure fun w hw => ⟨e.obj, ?_⟩
    rw [← he, Function.update_eq_self]
    exact hw
  | some fd =>
    refine triple_bind (dup2_spec he) fun _ => triple_exists fun x => ?_
    exact triple_imp close_spec (fun _ hw => hw.2) fun _ _ hw => ⟨x, hw⟩

theorem redirsInstall_spec (h₀ : base stdinFileno = some e₀) (h₁ : base stdoutFileno = some e₁)
    (r : Redirs) :
    ⦃fun w => ⌜Held base (plain r.fds ++ hs) w⌝⦄ redirsInstall r
    ⦃unlessDup fun _ w => ∃ o₀ o₁, Held (redirected base e₀ e₁ o₀ o₁) hs w⦄ := by
  rw [Redirs.fds, plain_append, List.append_assoc]
  refine triple_bind (installFd_spec h₀ r.inFd) fun _ => triple_exists fun o₀ => ?_
  have hout : Function.update base stdinFileno (some ⟨o₀, e₀.serial⟩) stdoutFileno = some e₁ := by
    rw [Function.update_of_ne (by decide), h₁]
  refine triple_imp (installFd_spec hout r.outFd) (fun _ hw => hw) fun _ w hw => ?_
  obtain ⟨o₁, hw⟩ := hw
  exact ⟨o₀, o₁, hw⟩

/-- What holds while a builtin runs: the standard descriptors may refer to other objects, and
    copies of them are held. -/
def Saved (base : Table) (e₀ e₁ : Entry) (hs : List (ℕ × Option ℕ)) (s : SavedFds) (w : FdState) :
    Prop :=
  ∃ o₀ o₁, Held (redirected base e₀ e₁ o₀ o₁)
    ((s.savedStdout, some e₁.obj) :: (s.savedStdin, some e₀.obj) :: hs) w

theorem applyRedirections_spec (h₀ : base stdinFileno = some e₀)
    (h₁ : base stdoutFileno = some e₁) (start : List Token) :
    ⦃fun w => ⌜Held base hs w⌝⦄ applyRedirections env start
    ⦃unlessDup fun r w => r.elim (Held base hs w) fun s => Saved base e₀ e₁ hs s w⦄ := by
  refine triple_bind (redirsValidate_spec [] start) fun valid => ?_
  split
  · exact triple_pure fun _ hw => hw
  · refine triple_bind (redirsOpen_spec start []) fun r => ?_
    cases r with
    | none => exact triple_pure fun _ hw => hw
    | some r =>
      refine triple_bind (dup_spec h₀) fun si => triple_bind (dup_spec h₁) fun so => ?_
      -- the two copies lie on top of the redirections
      have horder : ((so, some e₁.obj) :: (si, some e₀.obj) :: (plain r.fds ++ hs)).Perm
          (plain r.fds ++ ((so, some e₁.obj) :: (si, some e₀.obj) :: hs)) :=
        List.perm_append_comm_assoc [(so, some e₁.obj), (si, some e₀.obj)] (plain r.fds) hs
      refine triple_bind (triple_imp (redirsInstall_spec h₀ h₁ r) (fun _ hw => hw.perm horder)
        fun _ _ hw => hw) fun _ => ?_
      exact triple_pure fun _ hw => hw

theorem undoRedirections_spec (h₀ : base stdinFileno = some e₀)
    (h₁ : base stdoutFileno = some e₁) (s : SavedFds) :
    ⦃fun w => ⌜Saved base e₀ e₁ hs s w⌝⦄ undoRedirections s
    ⦃unlessDup fun _ w => Held base hs w⦄ := by
  refine triple_exists fun o₀ => triple_exists fun o₁ => ?_
  refine triple_bind (dup2_known (redirected_stdout base e₀ e₁ o₀ o₁)) fun _ => ?_
  rw [update_redirected_stdout]
  refine triple_bind close_spec fun _ => ?_
  refine triple_bind (dup2_known (redirected_stdin base e₀ e₁ o₀ e₁.obj)) fun _ => ?_
  rw [update_redirected_stdin, redirected_self h₀ h₁]
  exact close_spec

theorem useFile_spec : Balanced base hs (useFile env) :=
  triple_bind openFile_spec fun fd => closeFd_spec fd

theorem useFiles_spec (n : ℕ) : Balanced base hs (useFiles env n) := by
  induction n with
  | zero => exact balanced_pure ()
  | succ n ih => exact useFile_spec.bind fun _ => ih

theorem builtin_spec : Balanced base hs (builtin env) := askCount_spec.bind fun n => useFiles_spec n

/-- **A builtin** gets its redirections, and the shell its standard descriptors back. -/
theorem runBuiltin_spec (h₀ : base stdinFileno = some e₀) (h₁ : base stdoutFileno = some e₁)
    (name : List Byte) (start : List Token) : Balanced base hs (runBuiltin env name start) := by
  have hhop : Balanced base hs (if name = ascii "hop" then useFile env else pure ()) :=
    useFile_spec.ite (balanced_pure ())
  refine ask_spec.bind fun ok => ?_
  split
  · refine triple_bind (applyRedirections_spec h₀ h₁ start) fun r => ?_
    cases r with
    | none => exact hhop
    | some s =>
      have hbuiltin : ⦃fun w => ⌜Saved base e₀ e₁ hs s w⌝⦄ builtin env
          ⦃unlessDup fun _ w => Saved base e₀ e₁ hs s w⦄ := by
        refine triple_exists fun o₀ => triple_exists fun o₁ => ?_
        exact triple_imp builtin_spec (fun _ hw => hw) fun _ _ hw => ⟨o₀, o₁, hw⟩
      refine triple_bind hbuiltin fun _ => ?_
      exact triple_bind (undoRedirections_spec h₀ h₁ s) fun _ => hhop
  · exact balanced_pure ()

/-! ### Command lines -/

theorem runGroup_spec (h₀ : base stdinFileno = some e₀) (h₁ : base stdoutFileno = some e₁)
    (start : List Token) : Balanced base hs (runGroup env start) := by
  cases start with
  | nil => exact balanced_pure 0
  | cons t l =>
    rw [runGroup]
    split
    · exact (runBuiltin_spec h₀ h₁ _ _).bind fun _ => balanced_pure 0
    · split
      · exact (runPipeline_spec _ _).bind fun _ => balanced_pure 0
      · refine ask_spec.bind fun ok => ?_
        split
        · exact (executeCommand_spec _ _).ite (balanced_pure 0)
        · exact balanced_pure 0

theorem runBgGroup_spec (start : List Token) : Balanced base hs (runBgGroup env start) := by
  cases start with
  | nil => exact balanced_pure ()
  | cons t l =>
    rw [runBgGroup]
    split
    · exact runPipeline_spec _ _
    · refine ask_spec.bind fun ok => ?_
      split
      · exact balanced_pure ()
      · exact (resolved_spec _).bind fun _ => ask_spec.discard.ite (balanced_pure ())

/-- **A command line** leaves the table as it was: by induction on the groups. -/
theorem runSequence_spec (h₀ : base stdinFileno = some e₀) (h₁ : base stdoutFileno = some e₁)
    (l : List Token) : Balanced base hs (runSequence env l) := by
  fun_induction runSequence env l with
  | case1 => exact balanced_pure ()
  | case2 t l ht ih => exact ih
  | case3 t l ht hend => exact (runGroup_spec h₀ h₁ _).discard
  | case4 t l ht op rest hend hamp ih => exact (runBgGroup_spec _).bind fun _ => ih
  | case5 t l ht op rest hend hamp ih =>
    exact (runGroup_spec h₀ h₁ _).bind fun rc => (balanced_pure ()).ite ih

/-- **The shell leaks no descriptors.** Whatever fails, a command line that is not stopped by
    a failing `dup` or `dup2` ends with the table it started with: the standard descriptors
    refer to the same objects, nothing else is open, and every descriptor that was opened has
    been closed, exactly once. `redirs_open` leaves the table as it was when it returns
    `-1`. -/
theorem run_sequence_leaks_nothing (env : Env) (w : FdState)
    (hin : (w.fds stdinFileno).isSome) (hout : (w.fds stdoutFileno).isSome)
    (hclosed : w.closed.Perm (List.range w.opened)) :
    (∀ l, runSequence env l w = .error .dup ∨
      ∃ w', runSequence env l w = .ok ((), w') ∧ w'.fds = w.fds ∧
        w'.closed.Perm (List.range w'.opened)) ∧
    ∀ start stop w', redirsOpen env start stop w = .ok (none, w') →
      w'.fds = w.fds ∧ w'.closed.Perm (List.range w'.opened) := by
  obtain ⟨e₀, h₀⟩ := Option.isSome_iff_exists.mp hin
  obtain ⟨e₁, h₁⟩ := Option.isSome_iff_exists.mp hout
  have hw : Held w.fds [] w := held_nil.mpr ⟨rfl, hclosed⟩
  refine ⟨fun l => ?_, fun start stop w' hrun => ?_⟩
  · have hbalanced : Balanced w.fds [] (runSequence env l) := runSequence_spec h₀ h₁ l
    have hspec := triple_iff.mp hbalanced w hw
    cases hrun : runSequence env l w with
    | ok r =>
      rw [hrun] at hspec
      exact .inr ⟨r.2, rfl, held_nil.mp hspec⟩
    | error e =>
      rw [hrun] at hspec
      exact .inl (congrArg _ hspec)
  · have hopen : ⦃fun w' => ⌜Held w.fds [] w'⌝⦄ redirsOpen env start stop
        ⦃unlessDup fun r w' => Held w.fds (plain (opened r) ++ []) w'⦄ := redirsOpen_spec start stop
    have hspec := triple_iff.mp hopen w hw
    rw [hrun] at hspec
    exact held_nil.mp hspec

/-- A shell with three descriptors. -/
def threeOpen : FdState := ⟨fun d => if d < 3 then some ⟨d, none⟩ else none, 0, [], 3, 0⟩

/-- `peek < a < b > c`: a feeder, a file and two copies. -/
def peekLine : List Token :=
  [⟨.word, ascii "peek"⟩, ⟨.opLt, ascii "<"⟩, ⟨.word, ascii "a"⟩, ⟨.opLt, ascii "<"⟩,
    ⟨.word, ascii "b"⟩, ⟨.opGt, ascii ">"⟩, ⟨.word, ascii "c"⟩]

/-- Nothing fails, and `peek` reads two files. -/
def friendly : Env := ⟨16, fun _ => true, fun _ => 2⟩

theorem run_sequence_leaks_nothing_peek :
    ∃ w', runSequence friendly peekLine threeOpen = .ok ((), w') ∧ w'.opened = 10 ∧
      w'.fds = threeOpen.fds ∧ w'.closed.Perm (List.range 10) := by
  have hrun : ((runSequence friendly peekLine threeOpen).map fun r => r.2.opened) = .ok 10 := by
    decide +kernel
  obtain hdup | ⟨w', hw', hfds, hclosed⟩ := (run_sequence_leaks_nothing friendly threeOpen
    (by decide) (by decide) (List.Perm.refl _)).1 peekLine
  · rw [hdup] at hrun
    cases hrun
  · rw [hw'] at hrun
    have hopened : w'.opened = 10 := Except.ok.inj hrun
    rw [hopened] at hclosed
    exact ⟨w', hw', hopened, hfds, hclosed⟩

end MiniOs.Shell.Fd

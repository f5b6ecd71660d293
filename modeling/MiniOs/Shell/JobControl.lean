import Mathlib.Data.List.Nodup
import MiniOs.Lib.Trace

/-!
# Process groups and the terminal

How the shell and the processes that it forks agree on process groups, and who has the terminal:
`execute_command` and `execute_pipeline` of `exec.c`, `run_bg_group` and `execute_pipeline_bg`,
`resume_fg`, `snoop_command`, and `term.c`. A single command is a pipeline of one stage here, since
its `setpgid(0, 0)` is the `setpgid(0, pgid)` of a first stage.

The shell and every process take their system calls one at a time, in any order. Each stage of a
job moves itself to the group of the job, and so does the shell; neither waits for the other. The
command of `snoop` is not moved: it runs in the group of the shell. The feeders and tees of
redirections stay there as well, but they run no program, and they are left out.

Programs may do what they like: fork, change their group, ignore the signals of the terminal and
call `tcsetpgrp`. What the shell needs from them is a guard on the events of a run, `Orderly` for
the groups and `Polite` for the terminal.
-/

namespace MiniOs.Shell.JobControl

open Trace

/-- How far a process has come. -/
inductive Phase where
  | forked
  /-- It has left the shell's group, or is to stay there. A copy of the shell that runs a builtin
      goes no further. -/
  | grouped
  | execed
  /-- Its program, or the parent of it, has moved it to another group. -/
  | regrouped
  deriving DecidableEq

/-- The process runs a program. -/
def Phase.started : Phase → Bool
  | .forked | .grouped => false
  | .execed | .regrouped => true

/-- A process that has not been reaped. -/
structure Process where
  pid : ℕ
  group : ℕ
  /-- The value of `pgid` at the fork. -/
  join : ℕ
  phase : Phase
  /-- The shell has forked it, or an ancestor of it, in `snoop_command`. -/
  traced : Bool
  /-- `SIGTTIN` and `SIGTTOU` are ignored, as `term_init` has it. -/
  ignores : Bool
  ended : Bool
  stopped : Bool
  deriving DecidableEq

/-- The group of `setpgid(0, join)`. -/
def Process.target (p : Process) : ℕ :=
  if p.join = 0 then p.pid else p.join

inductive Point where
  /-- It reads a line, or runs a builtin that neither forks nor touches the terminal. -/
  | prompt
  /-- At the head of the loop over the stages; `pids` have been forked. -/
  | launching (fg : Bool) (pgid : ℕ) (pids : List ℕ)
  /-- Stage `pid` has been forked, and `setpgid(pid, pgid)` comes next. -/
  | joining (fg : Bool) (pgid : ℕ) (pids : List ℕ) (pid : ℕ)
  /-- In `fg_wait` or in the loop of `resume_fg`, with `rest` still to be waited for. -/
  | waiting (pgid : ℕ) (rest stopped : List ℕ)
  /-- In `snoop_command`, after its fork. -/
  | snooping (pid : ℕ)
  deriving DecidableEq

/-- The stage that the shell is about to move. -/
def Point.joins : Point → Option ℕ
  | .joining _ _ _ pid => some pid
  | _ => none

/-- The stages that have been forked so far, while there are more to come. -/
def Point.pids : Point → List ℕ
  | .launching _ _ pids => pids
  | .joining _ _ pids pid => pid :: pids
  | _ => []

/-- The group that the stages still to come will join. -/
def Point.pgid : Point → ℕ
  | .launching _ pgid _ | .joining _ pgid _ _ => pgid
  | _ => 0

def Point.waits : Point → Bool
  | .waiting _ _ _ => true
  | _ => false

/-- The kernel's view of the session, and the shell. -/
structure World where
  foreground : ℕ
  procs : List Process
  point : Point

/-- A system call of the shell, or a group of calls that no process can tell apart. -/
inductive Call where
  /-- It starts a job, in the foreground or in the background. -/
  | launch (fg : Bool)
  | fork (pid : ℕ)
  /-- A stage that is not forked: `redirs_open` or `fork` fails. -/
  | noFork
  | join
  /-- The loop over the stages ends. -/
  | launched
  | wait
  /-- `resume_fg` gives up. -/
  | timeout
  | take
  | resume (pgid : ℕ) (pids : List ℕ)
  /-- `snoop_command` forks. -/
  | snoop (pid : ℕ)
  /-- `snoop_command` has seen the end of its command. -/
  | snooped

/-- What a process does, or what the kernel does to it. -/
inductive Act where
  /-- The shell collects it, in the handler of `SIGCHLD`, in `check_bg_jobs` or in `snoop_pid`. -/
  | reap
  /-- The first calls of a stage: `setpgid` and `child_default_signals`, or `bg_child_setup`. -/
  | group
  | exec
  /-- A program calls `setpgid(0, pgid)`, or its parent moves it. -/
  | regroup (pgid : ℕ)
  /-- A program forks, or a copy of the shell does in `snoop_command`. -/
  | spawn (child : ℕ)
  | exit
  | stop
  | cont
  /-- A program sets what `SIGTTIN` and `SIGTTOU` do. -/
  | ignore (b : Bool)
  /-- A program calls `tcsetpgrp`, or a copy of the shell does in `resume_fg`. -/
  | grab (pgid : ℕ)
  /-- It reads the terminal. -/
  | read

inductive Event where
  | shell (call : Call)
  | proc (pid : ℕ) (act : Act)

/-! ### System calls -/

variable (shell : ℕ)

/-- Group `g` has a member, the shell or an unreaped process. -/
def World.groupExists (w : World) (g : ℕ) : Prop :=
  g = shell ∨ ∃ p ∈ w.procs, p.group = g

instance (w : World) (g : ℕ) : Decidable (w.groupExists shell g) :=
  inferInstanceAs (Decidable (_ ∨ _))

def World.modify (w : World) (pid : ℕ) (f : Process → Process) : World :=
  { w with procs := w.procs.map fun p => if p.pid = pid then f p else p }

/-- `setpgid(pid, pgid)`. It fails if the parent calls it after the child's `execve`, or if the
    group does not exist. -/
def setpgid (w : World) (byParent : Bool) (pid pgid : ℕ) : World :=
  let g := if pgid = 0 then pid else pgid
  if g = pid ∨ w.groupExists shell g then
    w.modify pid fun p =>
      if byParent = true ∧ p.phase.started = true then p else { p with group := g }
  else w

/-- `tcsetpgrp` of a process that ignores `SIGTTOU`, as the shell does. -/
def tcsetpgrp (w : World) (g : ℕ) : World :=
  if w.groupExists shell g then { w with foreground := g } else w

def termGive (w : World) (pgid : ℕ) : World :=
  if pgid > 0 then tcsetpgrp shell w pgid else w

def termTake (w : World) : World :=
  tcsetpgrp shell w shell

/-- `kill(-pgid, SIGCONT)`. -/
def World.continue (w : World) (pgid : ℕ) : World :=
  { w with procs := w.procs.map fun p => if p.group = pgid then { p with stopped := false } else p }

/-- The kernel sends `SIGTTIN` or `SIGTTOU` to a group in the background. A group without a parent
    in the session gets an error instead, which is a stop that is continued at once. -/
def World.stopGroup (w : World) (pgid : ℕ) : World :=
  { w with
    procs := w.procs.map fun p =>
      if p.group = pgid ∧ p.ignores = false then { p with stopped := true } else p }

/-- The kernel takes a pid that is neither a process nor a group. -/
def World.fresh (w : World) (pid : ℕ) : Prop :=
  pid ≠ 0 ∧ pid ≠ shell ∧ ∀ p ∈ w.procs, p.pid ≠ pid ∧ p.group ≠ pid

instance (w : World) (pid : ℕ) : Decidable (w.fresh shell pid) :=
  inferInstanceAs (Decidable (_ ∧ _))

/-- A process that runs and may do what `ok` says. -/
def World.runs (w : World) (pid : ℕ) (ok : Process → Bool) : Option Process :=
  w.procs.find? fun p => p.pid = pid ∧ p.ended = false ∧ p.stopped = false ∧ ok p = true

/-! ### Steps -/

/-- `waitpid(pid, &status, WUNTRACED)`, which blocks while the process runs. -/
def World.waitOne (w : World) (pgid pid : ℕ) (rest stopped : List ℕ) : Option World :=
  match w.procs.find? fun p => p.pid = pid with
  | none => some { w with point := .waiting pgid rest stopped }
  | some p =>
    if p.ended = true then
      some { w with
        procs := w.procs.filter fun p => p.pid ≠ pid
        point := .waiting pgid rest stopped }
    else if p.stopped = true then some { w with point := .waiting pgid rest (stopped ++ [pid]) }
    else none

def World.shellStep (w : World) (call : Call) : Option World :=
  match w.point, call with
  | .prompt, .launch fg => some { w with point := .launching fg 0 [] }
  | .launching fg pgid pids, .fork pid =>
    if w.fresh shell pid then
      some { w with
        procs := ⟨pid, shell, pgid, .forked, false, true, false, false⟩ :: w.procs
        point := .joining fg (if pgid = 0 then pid else pgid) pids pid }
    else none
  | .launching _ _ _, .noFork => some w
  | .joining fg pgid pids pid, .join =>
    some { setpgid shell w true pid pgid with point := .launching fg pgid (pids ++ [pid]) }
  | .launching true pgid pids, .launched =>
    some { termGive shell w pgid with point := .waiting pgid pids [] }
  | .launching false _ _, .launched => some { w with point := .prompt }
  | .waiting pgid (pid :: rest) stopped, .wait => w.waitOne pgid pid rest stopped
  | .waiting pgid (_ :: _) stopped, .timeout => some { w with point := .waiting pgid [] stopped }
  | .waiting _ [] _, .take => some { termTake shell w with point := .prompt }
  | .prompt, .resume pgid pids =>
    some { (termGive shell w pgid).continue pgid with point := .waiting pgid pids [] }
  | .prompt, .snoop pid =>
    if w.fresh shell pid then
      some { w with
        procs := ⟨pid, shell, shell, .grouped, true, false, false, false⟩ :: w.procs
        point := .snooping pid }
    else none
  | .snooping pid, .snooped =>
    if ∀ p ∈ w.procs, p.pid = pid → p.ended = true then
      some { w with procs := w.procs.filter fun p => p.pid ≠ pid, point := .prompt }
    else none
  | _, _ => none

def World.procStep (w : World) (pid : ℕ) : Act → Option World
  | .reap =>
    if ∃ p ∈ w.procs, p.pid = pid ∧ p.ended = true then
      some { w with procs := w.procs.filter fun p => p.pid ≠ pid }
    else none
  | .group => (w.runs pid fun p => p.phase = .forked).map fun p =>
      (setpgid shell w false pid p.join).modify pid fun p =>
        { p with phase := .grouped, ignores := false }
  | .exec => (w.runs pid fun p => p.phase = .grouped).map fun _ =>
      w.modify pid fun p => { p with phase := .execed }
  | .regroup pgid => (w.runs pid fun p => p.phase.started).map fun p =>
      (setpgid shell w false pid pgid).modify pid fun q =>
        if q.group = p.group then q else { q with phase := .regrouped }
  | .spawn child => (w.runs pid fun p => p.phase ≠ .forked).bind fun p =>
      if w.fresh shell child then
        some { w with
          procs := ⟨child, p.group, p.group, .execed, p.traced, p.ignores, false, false⟩ ::
            w.procs }
      else none
  | .exit => some (w.modify pid fun p => { p with ended := true })
  | .stop => some (w.modify pid fun p => { p with stopped := true })
  | .cont => some (w.modify pid fun p => { p with stopped := false })
  | .ignore b => (w.runs pid fun p => p.phase.started).map fun _ =>
      w.modify pid fun p => { p with ignores := b }
  | .grab pgid => (w.runs pid fun p => p.phase ≠ .forked).map fun p =>
      if p.group = w.foreground ∨ p.ignores = true then tcsetpgrp shell w pgid
      else w.stopGroup p.group
  | .read => (w.runs pid fun p => p.phase ≠ .forked).map fun p =>
      if p.group = w.foreground then w else w.stopGroup p.group

def World.step (w : World) : Event → Option World
  | .shell call => w.shellStep shell call
  | .proc pid act => w.procStep shell pid act

/-- After `term_init`. -/
def World.start : World :=
  ⟨shell, [], .prompt⟩

/-! ### What programs leave alone -/

/-- Process `pid` runs under `snoop`. -/
def World.traces (w : World) (pid : ℕ) : Prop :=
  ∃ p ∈ w.procs, p.pid = pid ∧ p.traced = true

/-- Process `pid` ignores the signals of the terminal. -/
def World.deaf (w : World) (pid : ℕ) : Prop :=
  ∃ p ∈ w.procs, p.pid = pid ∧ p.ignores = true

instance (w : World) (pid : ℕ) : Decidable (w.traces pid) :=
  inferInstanceAs (Decidable (∃ _ ∈ _, _))

instance (w : World) (pid : ℕ) : Decidable (w.deaf pid) :=
  inferInstanceAs (Decidable (∃ _ ∈ _, _))

/-- What the groups of a job rest on. No stage is collected before the shell has forked them all,
    as the handler does when a stale entry of `watched` has the same pid; the first one stays in
    its group that long; and no program moves to the group of the shell. -/
def Orderly (w : World) : Event → Prop
  | .shell _ => True
  | .proc pid act =>
    match act with
    | .reap => pid ∉ w.point.pids
    | .regroup pgid =>
      (pid = w.point.pgid → pgid = 0 ∨ pgid = pid) ∧ (pgid = shell → w.traces pid)
    | _ => True

/-- What the terminal rests on. While the shell does not wait for a job, no process calls
    `tcsetpgrp` that runs under `snoop`, or that ignores `SIGTTOU`. -/
def Polite (w : World) : Event → Prop
  | .shell _ => True
  | .proc pid act =>
    match act with
    | .grab _ => w.point.waits = true ∨ ¬ w.traces pid ∧ ¬ w.deaf pid
    | _ => True

instance (w : World) : (e : Event) → Decidable (Orderly shell w e)
  | .shell _ => .isTrue trivial
  | .proc _ act => by cases act <;> unfold Orderly <;> infer_instance

instance (w : World) : (e : Event) → Decidable (Polite w e)
  | .shell _ => .isTrue trivial
  | .proc _ act => by cases act <;> unfold Polite <;> infer_instance

/-! ### The invariant -/

/-- What never changes of a process. -/
structure Sound (p : Process) : Prop where
  pid_ne_zero : p.pid ≠ 0
  pid_ne_shell : p.pid ≠ shell
  join_ne_shell : p.traced = false → p.join ≠ shell

/-- Process `p` is in the group of its job, or in one that its program has chosen, or the shell has
    forked it and neither of them has moved it yet. -/
def Placed (point : Point) (p : Process) : Prop :=
  p.group = p.target ∨ (p.phase = .regrouped ∧ p.group ≠ 0 ∧ p.group ≠ shell) ∨
    (p.phase = .forked ∧ p.group = shell ∧ point.joins = some p.pid)

def Member (pgid : ℕ) (procs : List Process) (pid : ℕ) : Prop :=
  ∃ p ∈ procs, p.pid = pid ∧ p.target = pgid ∧ p.traced = false

/-- What holds of the job that is being launched. -/
def Current : Point → List Process → Prop
  | .launching _ pgid pids, procs =>
    (pgid = 0 ∧ pids = []) ∨ pgid ∈ pids ∧ ∀ pid ∈ pids, Member pgid procs pid
  | .joining _ pgid pids pid, procs =>
    (pgid = pid ∨ pgid ∈ pids) ∧ ∀ k ∈ pid :: pids, Member pgid procs k
  | _, _ => True

/-- **The invariant**. -/
structure Inv (w : World) : Prop where
  nodup : (w.procs.map Process.pid).Nodup
  sound : ∀ p ∈ w.procs, Sound shell p
  forked : ∀ p ∈ w.procs, p.phase = .forked → p.traced = false
  stays : ∀ p ∈ w.procs, p.pid = w.point.pgid → p.phase ≠ .regrouped
  placed : ∀ p ∈ w.procs, p.traced = false → Placed shell w.point p
  current : Current w.point w.procs

variable {shell} {w w' : World} {p q : Process} {pgid pid g : ℕ}

theorem Sound.target_ne (hp : Sound shell p) (htraced : p.traced = false) :
    p.target ≠ 0 ∧ p.target ≠ shell := by
  rw [Process.target]
  split
  · exact ⟨hp.pid_ne_zero, hp.pid_ne_shell⟩
  · next hjoin => exact ⟨hjoin, hp.join_ne_shell htraced⟩

/-- A stage that has left the group of the shell does not come back. -/
theorem Placed.group_ne {point : Point} (h : Placed shell point p) (hphase : p.phase ≠ .forked)
    (hp : Sound shell p) (htraced : p.traced = false) : p.group ≠ 0 ∧ p.group ≠ shell := by
  obtain hgroup | ⟨-, hgroup⟩ | ⟨hforked, -⟩ := h
  · rw [hgroup]
    exact hp.target_ne htraced
  · exact hgroup
  · exact absurd hforked hphase

theorem World.mem_of_runs {ok : Process → Bool} (h : w.runs pid ok = some p) :
    p ∈ w.procs ∧ p.pid = pid ∧ ok p = true := by
  have hp := List.find?_some h
  simp only [decide_eq_true_eq] at hp
  exact ⟨List.mem_of_find?_eq_some h, hp.1, hp.2.2.2⟩

/-! ### Processes that are changed, forked or reaped -/

/-- What a step may do to a process: it keeps its names, and leader `lead` is not moved. -/
structure Keeps (lead : ℕ) (p q : Process) : Prop where
  pid : q.pid = p.pid
  join : q.join = p.join
  traced : q.traced = p.traced
  forked : q.phase = .forked → p.phase = .forked
  stays : p.pid = lead → q.phase = .regrouped → p.phase = .regrouped

theorem Keeps.target {lead : ℕ} (h : Keeps lead p q) : q.target = p.target := by
  rw [Process.target, Process.target, h.pid, h.join]

theorem Current.mono {point : Point} {procs procs' : List Process} (h : Current point procs)
    (hmember : ∀ pgid, ∀ pid ∈ point.pids, Member pgid procs pid → Member pgid procs' pid) :
    Current point procs' := by
  cases point with
  | launching fg pgid pids =>
    exact h.imp id fun ⟨hlead, hall⟩ =>
      ⟨hlead, fun pid hpid => hmember pgid pid hpid (hall pid hpid)⟩
  | joining fg pgid pids pid =>
    exact ⟨h.1, fun k hk => hmember pgid k hk (h.2 k hk)⟩
  | prompt | waiting pgid rest stopped | snooping pid => trivial

structure Signalled (p q : Process) : Prop where
  pid : q.pid = p.pid
  group : q.group = p.group
  join : q.join = p.join
  phase : q.phase = p.phase
  traced : q.traced = p.traced

theorem Signalled.refl (p : Process) : Signalled p p := ⟨rfl, rfl, rfl, rfl, rfl⟩

theorem Signalled.keeps {lead : ℕ} (h : Signalled p q) : Keeps lead p q :=
  ⟨h.pid, h.join, h.traced, h.phase.symm.trans, fun _ => h.phase.symm.trans⟩

theorem Signalled.placed {point : Point} (h : Signalled p q) (hp : Placed shell point p) :
    Placed shell point q := by
  have hkeeps : Keeps 0 p q := h.keeps
  rwa [Placed, h.group, h.phase, h.pid, hkeeps.target]

namespace Inv

theorem map (h : Inv shell w) {f : Process → Process}
    (hf : ∀ p ∈ w.procs, Keeps w.point.pgid p (f p))
    (hplaced : ∀ p ∈ w.procs, p.traced = false → Placed shell w.point (f p)) :
    Inv shell { w with procs := w.procs.map f } where
  nodup := by
    have hpids : (w.procs.map f).map Process.pid = w.procs.map Process.pid := by
      rw [List.map_map]
      exact List.map_congr_left fun p hp => (hf p hp).pid
    rw [hpids]
    exact h.nodup
  sound q hq := by
    obtain ⟨p, hp, rfl⟩ := List.mem_map.mp hq
    obtain ⟨hzero, hshell, hjoin⟩ := h.sound p hp
    constructor
    · rwa [(hf p hp).pid]
    · rwa [(hf p hp).pid]
    · rwa [(hf p hp).join, (hf p hp).traced]
  forked q hq hphase := by
    obtain ⟨p, hp, rfl⟩ := List.mem_map.mp hq
    rw [(hf p hp).traced]
    exact h.forked p hp ((hf p hp).forked hphase)
  stays q hq hlead hphase := by
    obtain ⟨p, hp, rfl⟩ := List.mem_map.mp hq
    rw [(hf p hp).pid] at hlead
    exact h.stays p hp hlead ((hf p hp).stays hlead hphase)
  placed q hq htraced := by
    obtain ⟨p, hp, rfl⟩ := List.mem_map.mp hq
    exact hplaced p hp ((hf p hp).traced.symm.trans htraced)
  current := by
    refine h.current.mono fun pgid pid _ hmem => ?_
    obtain ⟨p, hp, hpid, htarget, htraced⟩ := hmem
    exact ⟨f p, List.mem_map_of_mem hp, (hf p hp).pid.trans hpid, (hf p hp).target.trans htarget,
      (hf p hp).traced.trans htraced⟩

theorem modify (h : Inv shell w) {f : Process → Process}
    (hf : ∀ p ∈ w.procs, p.pid = pid →
      Keeps w.point.pgid p (f p) ∧ (p.traced = false → Placed shell w.point (f p))) :
    Inv shell (w.modify pid f) := by
  refine h.map (fun p hp => ?_) fun p hp htraced => ?_
  · split
    · next hpid => exact (hf p hp hpid).1
    · exact (Signalled.refl p).keeps
  · split
    · next hpid => exact (hf p hp hpid).2 htraced
    · exact h.placed p hp htraced

theorem signals (h : Inv shell w) {f : Process → Process} (hf : ∀ p, Signalled p (f p)) :
    Inv shell { w with procs := w.procs.map f } := by
  exact h.map (fun p _ => (hf p).keeps) fun p hp htraced => (hf p).placed (h.placed p hp htraced)

theorem signal (h : Inv shell w) {f : Process → Process} (hf : ∀ p, Signalled p (f p)) :
    Inv shell (w.modify pid f) := by
  refine h.signals fun p => ?_
  split
  · exact hf p
  · exact .refl p

theorem stopGroup (h : Inv shell w) : Inv shell (w.stopGroup pgid) := by
  refine h.signals fun p => ?_
  split
  · exact ⟨rfl, rfl, rfl, rfl, rfl⟩
  · exact .refl p

/-- A process is collected that the shell is not launching. -/
theorem reap (h : Inv shell w) (hpid : pid ∉ w.point.pids) :
    Inv shell { w with procs := w.procs.filter fun p => p.pid ≠ pid } where
  nodup := h.nodup.sublist (List.filter_sublist.map _)
  sound p hp := h.sound p (List.mem_of_mem_filter hp)
  forked p hp := h.forked p (List.mem_of_mem_filter hp)
  stays p hp := h.stays p (List.mem_of_mem_filter hp)
  placed p hp := h.placed p (List.mem_of_mem_filter hp)
  current := by
    refine h.current.mono fun g k hk hmem => ?_
    obtain ⟨p, hp, rfl, htarget⟩ := hmem
    refine ⟨p, List.mem_filter.mpr ⟨hp, decide_eq_true ?_⟩, rfl, htarget⟩
    rintro rfl
    exact hpid hk

/-- No process is between its fork and its first `setpgid`, so all are where they belong. -/
theorem placed_of_joins (h : Inv shell w) (hjoins : w.point.joins = none) (point : Point) :
    ∀ p ∈ w.procs, p.traced = false → Placed shell point p := by
  intro p hp htraced
  obtain hgroup | hgroup | ⟨-, -, hjoin⟩ := h.placed p hp htraced
  · exact .inl hgroup
  · exact .inr (.inl hgroup)
  · rw [hjoins] at hjoin
    cases hjoin

theorem goto (h : Inv shell w) {point : Point} {foreground : ℕ}
    (hpgid : point.pgid = 0 ∨ point.pgid = w.point.pgid)
    (hplaced : ∀ p ∈ w.procs, p.traced = false → Placed shell point p)
    (hcurrent : Current point w.procs) : Inv shell ⟨foreground, w.procs, point⟩ where
  nodup := h.nodup
  sound := h.sound
  forked := h.forked
  stays p hp hlead := by
    obtain hzero | hsame := hpgid
    · exact absurd (hlead.trans hzero) (h.sound p hp).pid_ne_zero
    · exact h.stays p hp (hlead.trans hsame)
  placed := hplaced
  current := hcurrent

theorem add (h : Inv shell w) {point : Point} (hfresh : w.fresh shell p.pid)
    (hjoin : p.traced = false → p.join ≠ shell) (hforked : p.phase = .forked → p.traced = false)
    (hphase : p.phase ≠ .regrouped)
    (hpgid : point.pgid = p.pid ∨ point.pgid = 0 ∨ point.pgid = w.point.pgid)
    (hplaced : ∀ q ∈ p :: w.procs, q.traced = false → Placed shell point q)
    (hcurrent : Current point (p :: w.procs)) :
    Inv shell { w with procs := p :: w.procs, point := point } where
  nodup := by
    refine List.nodup_cons.mpr ⟨fun hmem => ?_, h.nodup⟩
    obtain ⟨q, hq, hpid⟩ := List.mem_map.mp hmem
    exact (hfresh.2.2 q hq).1 hpid
  sound := List.forall_mem_cons.mpr ⟨⟨hfresh.1, hfresh.2.1, hjoin⟩, h.sound⟩
  forked := List.forall_mem_cons.mpr ⟨hforked, h.forked⟩
  stays := by
    refine List.forall_mem_cons.mpr ⟨fun _ => hphase, fun q hq hlead => ?_⟩
    obtain hnew | hzero | hsame := hpgid
    · exact absurd (hlead.trans hnew) (hfresh.2.2 q hq).1
    · exact absurd (hlead.trans hzero) (h.sound q hq).pid_ne_zero
    · exact h.stays q hq (hlead.trans hsame)
  placed := hplaced
  current := hcurrent

theorem eq_of_pid (h : Inv shell w) (hp : p ∈ w.procs) (hq : q ∈ w.procs) (hpid : p.pid = q.pid) :
    p = q :=
  List.inj_on_of_nodup_map h.nodup hp hq hpid

/-- A stage that has not started its program is in the group of the shell or of its job. -/
theorem group_of_not_started (h : Inv shell w) (hp : p ∈ w.procs) (htraced : p.traced = false)
    (hphase : p.phase.started = false) :
    p.group = p.target ∨
      p.phase = .forked ∧ p.group = shell ∧ w.point.joins = some p.pid := by
  obtain hgroup | ⟨hstarted, -⟩ | hforked := h.placed p hp htraced
  · exact .inl hgroup
  · rw [hstarted] at hphase
    cases hphase
  · exact .inr hforked

/-- The first stage of the job that is being launched is in its own group, once it has been moved
    there. -/
theorem leader (h : Inv shell w) (hlead : p.pid = w.point.pgid) (hp : p ∈ w.procs) :
    p.traced = false ∧
      (p.group = p.pid ∨ p.phase = .forked ∧ w.point.joins = some p.pid) := by
  have hmember : Member p.pid w.procs p.pid := by
    have hzero := (h.sound p hp).pid_ne_zero
    have hcurrent := h.current
    cases hpoint : w.point with
    | launching fg pgid pids =>
      rw [hpoint] at hlead hcurrent
      obtain ⟨hpgid, -⟩ | ⟨hmem, hall⟩ := hcurrent
      · exact absurd (hlead.trans hpgid) hzero
      · exact hlead ▸ hall pgid hmem
    | joining fg pgid pids pid =>
      rw [hpoint] at hlead hcurrent
      obtain ⟨hfirst, hall⟩ := hcurrent
      exact hlead ▸ hall pgid (List.mem_cons.mpr hfirst)
    | prompt | waiting pgid rest stopped | snooping pid =>
      rw [hpoint] at hlead
      exact absurd hlead hzero
  obtain ⟨q, hq, hpid, htarget, htraced⟩ := hmember
  obtain rfl := h.eq_of_pid hq hp hpid
  refine ⟨htraced, ?_⟩
  obtain hgroup | ⟨hmoved, -⟩ | ⟨hforked, -, hjoins⟩ := h.placed q hp htraced
  · exact .inl (hgroup.trans htarget)
  · exact absurd hmoved (h.stays q hp hlead)
  · exact .inr ⟨hforked, hjoins⟩

/-- **The group of the job exists** when a stage joins it. -/
theorem pgid_exists (h : Inv shell w) {fg : Bool} {pids : List ℕ}
    (hpoint : w.point = .joining fg pgid pids pid) : pgid = pid ∨ w.groupExists shell pgid := by
  have hcurrent := h.current
  rw [hpoint] at hcurrent
  obtain ⟨hfirst, hall⟩ := hcurrent
  obtain ⟨q, hq, hpid, -⟩ := hall pgid (List.mem_cons.mpr hfirst)
  obtain ⟨-, hgroup | ⟨-, hjoins⟩⟩ := h.leader (p := q) (by rw [hpoint]; exact hpid) hq
  · exact .inr (.inr ⟨q, hq, hgroup.trans hpid⟩)
  · rw [hpoint] at hjoins
    exact .inl (hpid.symm.trans (Option.some.inj hjoins).symm)

/-- The same for the `setpgid` of the stage, which may come after that of the shell. -/
theorem target_exists (h : Inv shell w) (hp : p ∈ w.procs) (htraced : p.traced = false)
    (hphase : p.phase.started = false) :
    p.target = p.pid ∨ w.groupExists shell p.target := by
  obtain hgroup | ⟨-, -, hjoins⟩ := h.group_of_not_started hp htraced hphase
  · exact .inr (.inr ⟨p, hp, hgroup⟩)
  · cases hpoint : w.point with
    | joining fg pgid pids pid =>
      have hcurrent := h.current
      rw [hpoint] at hjoins hcurrent
      cases hjoins
      obtain ⟨q, hq, hpid, htarget, -⟩ := hcurrent.2 p.pid List.mem_cons_self
      rw [h.eq_of_pid hq hp hpid] at htarget
      rw [htarget]
      exact h.pgid_exists hpoint
    | prompt | launching fg pgid pids | waiting pgid rest stopped | snooping pid =>
      rw [hpoint] at hjoins
      cases hjoins

end Inv

/-! ### Steps of the processes -/

theorem World.modify_modify {f f' : Process → Process} (hf : ∀ p, (f p).pid = p.pid) :
    (w.modify pid f).modify pid f' = w.modify pid (f' ∘ f) := by
  simp only [World.modify, List.map_map, World.mk.injEq, true_and, and_true]
  refine List.map_congr_left fun p _ => ?_
  by_cases hp : p.pid = pid <;> simp [hp, hf]

namespace Inv

theorem childGroup (h : Inv shell w) (hp : p ∈ w.procs) (hphase : p.phase = .forked) :
    Inv shell ((setpgid shell w false p.pid p.join).modify p.pid fun p =>
      { p with phase := .grouped, ignores := false }) := by
  have htraced := h.forked p hp hphase
  have hstarted : p.phase.started = false := by rw [hphase]; rfl
  have hset : setpgid shell w false p.pid p.join =
      w.modify p.pid fun q => { q with group := p.target } := by
    have hexists := h.target_exists hp htraced hstarted
    rw [Process.target] at hexists ⊢
    simp only [setpgid, if_pos hexists, Bool.false_eq_true, false_and, if_false]
  rw [hset, World.modify_modify (f := fun q => { q with group := p.target }) fun _ => rfl]
  refine h.modify fun q hq hpid => ?_
  rw [h.eq_of_pid hq hp hpid]
  exact ⟨⟨rfl, rfl, rfl, fun hforked => (nomatch hforked), fun _ hmoved => nomatch hmoved⟩,
    fun _ => .inl rfl⟩

theorem childExec (h : Inv shell w) (hp : p ∈ w.procs) (hphase : p.phase = .grouped) :
    Inv shell (w.modify p.pid fun p => { p with phase := .execed }) := by
  refine h.modify fun q hq hpid => ?_
  rw [h.eq_of_pid hq hp hpid]
  refine ⟨⟨rfl, rfl, rfl, fun hforked => (nomatch hforked), fun _ hmoved => nomatch hmoved⟩,
    fun htraced => ?_⟩
  obtain hgroup | ⟨hforked, -⟩ := h.group_of_not_started hp htraced (by rw [hphase]; rfl)
  · exact .inl hgroup
  · simp [hphase] at hforked

theorem regroup (h : Inv shell w) (hp : p ∈ w.procs) (hphase : p.phase.started = true)
    (hlead : p.pid = w.point.pgid → g = 0 ∨ g = p.pid) (hshell : g = shell → p.traced = true) :
    Inv shell ((setpgid shell w false p.pid g).modify p.pid fun q =>
      if q.group = p.group then q else { q with phase := .regrouped }) := by
  have hforked : p.phase ≠ .forked := by
    intro hforked
    rw [hforked] at hphase
    cases hphase
  simp only [setpgid, Bool.false_eq_true, false_and, if_false]
  generalize hg : (if g = 0 then p.pid else g) = g'
  split
  · rw [World.modify_modify (f := fun q => { q with group := g' }) fun _ => rfl]
    refine h.modify fun q hq hpid => ?_
    rw [h.eq_of_pid hq hp hpid, Function.comp_apply]
    split
    · next hsame =>
      have hsignalled : Signalled p { p with group := g' } := ⟨rfl, hsame, rfl, rfl, rfl⟩
      exact ⟨hsignalled.keeps, fun htraced => hsignalled.placed (h.placed p hp htraced)⟩
    · next hmoves =>
      refine ⟨⟨rfl, rfl, rfl, fun hforked => (nomatch hforked), fun hpgid => ?_⟩,
        fun htraced => .inr (.inl ⟨rfl, ?_⟩)⟩
      · -- the first stage is in the group that it asks for
        obtain ⟨-, hgroup | ⟨hphase, -⟩⟩ := h.leader hpgid hp
        · have hself : g' = p.pid := by
            rw [← hg]
            obtain rfl | rfl := hlead hpgid <;> simp
          exact absurd (hself.trans hgroup.symm) hmoves
        · exact absurd hphase hforked
      · rw [← hg]
        split
        · exact ⟨(h.sound p hp).pid_ne_zero, (h.sound p hp).pid_ne_shell⟩
        · next hzero => exact ⟨hzero, fun hg => by simp [hshell hg] at htraced⟩
  · refine h.modify fun q hq hpid => ?_
    rw [h.eq_of_pid hq hp hpid, if_pos rfl]
    exact ⟨(Signalled.refl p).keeps, h.placed p hp⟩

theorem spawn (h : Inv shell w) (hp : p ∈ w.procs) (hphase : p.phase ≠ .forked) {child : ℕ}
    (hfresh : w.fresh shell child) {ignores : Bool} :
    Inv shell { w with
      procs := ⟨child, p.group, p.group, .execed, p.traced, ignores, false, false⟩ ::
        w.procs } := by
  have hgroup : p.traced = false → p.group ≠ 0 ∧ p.group ≠ shell := fun htraced =>
    (h.placed p hp htraced).group_ne hphase (h.sound p hp) htraced
  refine h.add hfresh (fun htraced => (hgroup htraced).2) (fun hforked => nomatch hforked)
    (fun hmoved => nomatch hmoved) (.inr (.inr rfl)) ?_ ?_
  · refine List.forall_mem_cons.mpr ⟨fun htraced => .inl ?_, h.placed⟩
    simp [Process.target, (hgroup htraced).1]
  · refine h.current.mono fun g k _ hmem => ?_
    obtain ⟨q, hq, hmem⟩ := hmem
    exact ⟨q, List.mem_cons_of_mem _ hq, hmem⟩

/-- **Step lemma** for the processes. -/
theorem procStep (h : Inv shell w) {act : Act} (hok : Orderly shell w (.proc pid act))
    (hstep : w.procStep shell pid act = some w') : Inv shell w' := by
  cases act with
  | reap =>
    rw [World.procStep, Option.ite_none_right_eq_some] at hstep
    obtain ⟨-, hstep⟩ := hstep
    cases hstep
    exact h.reap hok
  | group =>
    obtain ⟨p, hruns, rfl⟩ := Option.map_eq_some_iff.mp hstep
    obtain ⟨hp, rfl, hphase⟩ := World.mem_of_runs hruns
    exact h.childGroup hp (of_decide_eq_true hphase)
  | exec =>
    obtain ⟨p, hruns, rfl⟩ := Option.map_eq_some_iff.mp hstep
    obtain ⟨hp, rfl, hphase⟩ := World.mem_of_runs hruns
    exact h.childExec hp (of_decide_eq_true hphase)
  | regroup g =>
    obtain ⟨p, hruns, rfl⟩ := Option.map_eq_some_iff.mp hstep
    obtain ⟨hp, rfl, hphase⟩ := World.mem_of_runs hruns
    refine h.regroup hp hphase hok.1 fun hshell => ?_
    obtain ⟨q, hq, hpid, htraced⟩ := hok.2 hshell
    rwa [← h.eq_of_pid hq hp hpid]
  | spawn child =>
    obtain ⟨p, hruns, hspawn⟩ := Option.bind_eq_some_iff.mp hstep
    obtain ⟨hp, -, hphase⟩ := World.mem_of_runs hruns
    rw [Option.ite_none_right_eq_some] at hspawn
    obtain ⟨hfresh, hspawn⟩ := hspawn
    cases hspawn
    exact h.spawn hp (of_decide_eq_true hphase) hfresh
  | exit | stop | cont =>
    cases hstep
    exact h.signal fun _ => ⟨rfl, rfl, rfl, rfl, rfl⟩
  | ignore b =>
    obtain ⟨p, -, rfl⟩ := Option.map_eq_some_iff.mp hstep
    exact h.signal fun _ => ⟨rfl, rfl, rfl, rfl, rfl⟩
  | grab g =>
    obtain ⟨p, -, rfl⟩ := Option.map_eq_some_iff.mp hstep
    split
    · rw [tcsetpgrp]
      split
      · exact h.goto (.inr rfl) h.placed h.current
      · exact h
    · exact h.stopGroup
  | read =>
    obtain ⟨p, -, rfl⟩ := Option.map_eq_some_iff.mp hstep
    split
    · exact h
    · exact h.stopGroup

end Inv

/-! ### Steps of the shell -/

/-- What a call of the shell can do. -/
inductive ShellMove (shell : ℕ) (w : World) : Call → World → Prop where
  | launch {fg : Bool} (hpoint : w.point = .prompt) :
    ShellMove shell w (.launch fg) { w with point := .launching fg 0 [] }
  | fork {fg : Bool} {pgid : ℕ} {pids : List ℕ} {pid : ℕ}
      (hpoint : w.point = .launching fg pgid pids) (hfresh : w.fresh shell pid) :
    ShellMove shell w (.fork pid) { w with
      procs := ⟨pid, shell, pgid, .forked, false, true, false, false⟩ :: w.procs
      point := .joining fg (if pgid = 0 then pid else pgid) pids pid }
  | noFork : ShellMove shell w .noFork w
  | join {fg : Bool} {pgid : ℕ} {pids : List ℕ} {pid : ℕ}
      (hpoint : w.point = .joining fg pgid pids pid) :
    ShellMove shell w .join { setpgid shell w true pid pgid with
      point := .launching fg pgid (pids ++ [pid]) }
  | give {pgid : ℕ} {pids : List ℕ} (hpoint : w.point = .launching true pgid pids) :
    ShellMove shell w .launched { termGive shell w pgid with point := .waiting pgid pids [] }
  | leave {pgid : ℕ} {pids : List ℕ} (hpoint : w.point = .launching false pgid pids) :
    ShellMove shell w .launched { w with point := .prompt }
  | wait {pgid pid : ℕ} {rest stopped : List ℕ} {w' : World}
      (hpoint : w.point = .waiting pgid (pid :: rest) stopped)
      (hwait : w.waitOne pgid pid rest stopped = some w') : ShellMove shell w .wait w'
  | timeout {pgid pid : ℕ} {rest stopped : List ℕ}
      (hpoint : w.point = .waiting pgid (pid :: rest) stopped) :
    ShellMove shell w .timeout { w with point := .waiting pgid [] stopped }
  | take {pgid : ℕ} {stopped : List ℕ} (hpoint : w.point = .waiting pgid [] stopped) :
    ShellMove shell w .take ⟨shell, w.procs, .prompt⟩
  | resume {pgid : ℕ} {pids : List ℕ} (hpoint : w.point = .prompt) :
    ShellMove shell w (.resume pgid pids)
      { (termGive shell w pgid).continue pgid with point := .waiting pgid pids [] }
  | snoop {pid : ℕ} (hpoint : w.point = .prompt) (hfresh : w.fresh shell pid) :
    ShellMove shell w (.snoop pid) { w with
      procs := ⟨pid, shell, shell, .grouped, true, false, false, false⟩ :: w.procs
      point := .snooping pid }
  | snooped {pid : ℕ} (hpoint : w.point = .snooping pid) :
    ShellMove shell w .snooped
      { w with procs := w.procs.filter fun p => p.pid ≠ pid, point := .prompt }

theorem shellStep_move {call : Call} (h : w.shellStep shell call = some w') :
    ShellMove shell w call w' := by
  unfold World.shellStep at h
  split at h
  all_goals try
    rw [Option.ite_none_right_eq_some] at h
    obtain ⟨hguard, h⟩ := h
  case h_7 hpoint => exact .wait hpoint h
  all_goals cases h
  case h_1 hpoint => exact .launch hpoint
  case h_2 hpoint => exact .fork hpoint hguard
  case h_3 => exact .noFork
  case h_4 hpoint => exact .join hpoint
  case h_5 hpoint => exact .give hpoint
  case h_6 hpoint => exact .leave hpoint
  case h_8 hpoint => exact .timeout hpoint
  case h_9 hpoint =>
    rw [termTake, tcsetpgrp, if_pos (.inl rfl)]
    exact .take hpoint
  case h_10 hpoint => exact .resume hpoint
  case h_11 hpoint => exact .snoop hpoint hguard
  case h_12 hpoint => exact .snooped hpoint

theorem termGive_procs : (termGive shell w g).procs = w.procs := by
  rw [termGive, tcsetpgrp]
  split
  · split <;> rfl
  · rfl

namespace Inv

theorem waits (h : Inv shell w) (hjoins : w.point.joins = none) {rest stopped : List ℕ}
    {foreground : ℕ} : Inv shell ⟨foreground, w.procs, .waiting pgid rest stopped⟩ :=
  h.goto (.inl rfl) (h.placed_of_joins hjoins _) trivial

theorem prompt (h : Inv shell w) (hjoins : w.point.joins = none) {foreground : ℕ} :
    Inv shell ⟨foreground, w.procs, .prompt⟩ :=
  h.goto (.inl rfl) (h.placed_of_joins hjoins _) trivial

theorem fork (h : Inv shell w) (hshell : shell ≠ 0) {fg : Bool} {pids : List ℕ}
    (hpoint : w.point = .launching fg pgid pids) (hfresh : w.fresh shell pid) :
    Inv shell { w with
      procs := ⟨pid, shell, pgid, .forked, false, true, false, false⟩ :: w.procs
      point := .joining fg (if pgid = 0 then pid else pgid) pids pid } := by
  have hcurrent := h.current
  have hplaced := h.placed_of_joins (by rw [hpoint]; rfl)
  rw [hpoint] at hcurrent
  have hpgid : pgid = 0 ∧ pids = [] ∨ pgid ≠ 0 ∧ pgid ≠ shell ∧ pgid ∈ pids := by
    refine hcurrent.imp id fun ⟨hmem, hall⟩ => ?_
    obtain ⟨q, hq, rfl, -⟩ := hall pgid hmem
    exact ⟨(h.sound q hq).pid_ne_zero, (h.sound q hq).pid_ne_shell, hmem⟩
  have hmembers : ∀ k ∈ pids, Member pgid w.procs k := by
    obtain ⟨-, rfl⟩ | ⟨-, hall⟩ := hcurrent
    · exact fun k hk => nomatch hk
    · exact hall
  refine h.add hfresh (fun _ => ?_) (fun _ => rfl) (fun hmoved => nomatch hmoved) ?_
    (List.forall_mem_cons.mpr ⟨fun _ => .inr (.inr ⟨rfl, rfl, rfl⟩), hplaced _⟩)
    ⟨?_, List.forall_mem_cons.mpr ⟨⟨_, List.mem_cons_self, rfl, rfl, rfl⟩, fun k hk => ?_⟩⟩
  · obtain ⟨rfl, -⟩ | ⟨-, hne, -⟩ := hpgid
    · exact hshell.symm
    · exact hne
  · rw [hpoint]
    obtain ⟨rfl, -⟩ | ⟨hzero, -⟩ := hpgid
    · exact .inl rfl
    · exact .inr (.inr (if_neg hzero))
  · obtain ⟨rfl, -⟩ | ⟨hzero, -, hmem⟩ := hpgid
    · exact .inl rfl
    · rw [if_neg hzero]
      exact .inr hmem
  · obtain ⟨-, rfl⟩ | ⟨hzero, -⟩ := hpgid
    · cases hk
    · rw [if_neg hzero]
      obtain ⟨r, hr, hmember⟩ := hmembers k hk
      exact ⟨r, List.mem_cons_of_mem _ hr, hmember⟩

/-- After its `setpgid` the shell has the stage in the group of the job, whether or not the stage
    has moved itself and started its program. -/
theorem join (h : Inv shell w) {fg : Bool} {pids : List ℕ}
    (hpoint : w.point = .joining fg pgid pids pid) :
    Inv shell { setpgid shell w true pid pgid with
      point := .launching fg pgid (pids ++ [pid]) } := by
  have hcurrent := h.current
  rw [hpoint] at hcurrent
  obtain ⟨hfirst, hall⟩ := hcurrent
  obtain ⟨p, hp, rfl, htarget, htraced⟩ := hall pid List.mem_cons_self
  let f : Process → Process := fun q =>
    if q.phase.started = true then q else { q with group := pgid }
  have hset : setpgid shell w true p.pid pgid = w.modify p.pid f := by
    have hzero : pgid ≠ 0 := htarget ▸ ((h.sound p hp).target_ne htraced).1
    simp only [setpgid, if_neg hzero, if_pos (h.pgid_exists hpoint), true_and, f]
  have hkeeps : Keeps w.point.pgid p (f p) := by
    simp only [f]
    split
    · exact (Signalled.refl p).keeps
    · exact ⟨rfl, rfl, rfl, id, fun _ => id⟩
  have hplaced : ∀ point, Placed shell point (f p) := by
    intro point
    simp only [f]
    split
    · next hstarted =>
      obtain hgroup | hmoved | ⟨hforked, -⟩ := h.placed p hp htraced
      · exact .inl hgroup
      · exact .inr (.inl hmoved)
      · rw [hforked] at hstarted
        cases hstarted
    · exact .inl htarget.symm
  rw [hset]
  have hmodify : Inv shell (w.modify p.pid f) := by
    refine h.modify fun q hq hpid => ?_
    rw [h.eq_of_pid hq hp hpid]
    exact ⟨hkeeps, fun _ => hplaced _⟩
  have hmembers := hmodify.current
  change Current w.point _ at hmembers
  rw [hpoint] at hmembers
  refine hmodify.goto (.inr ?_) (fun q hq htraced => ?_) (.inr ⟨?_, fun k hk => ?_⟩)
  · change pgid = w.point.pgid
    rw [hpoint]
    rfl
  · obtain hother | hother | ⟨-, -, hjoins⟩ := hmodify.placed q hq htraced
    · exact .inl hother
    · exact .inr (.inl hother)
    · -- the process that was about to be moved
      change w.point.joins = some q.pid at hjoins
      rw [hpoint] at hjoins
      have hmem : f p ∈ (w.modify p.pid f).procs := List.mem_map.mpr ⟨p, hp, if_pos rfl⟩
      rw [← hmodify.eq_of_pid hmem hq (hkeeps.pid.trans (Option.some.inj hjoins))]
      exact hplaced _
  · obtain rfl | hmem := hfirst
    · exact List.mem_append_right _ List.mem_cons_self
    · exact List.mem_append_left _ hmem
  · refine hmembers.2 k ?_
    simpa [or_comm] using hk

theorem waitOne (h : Inv shell w) {pgid' : ℕ} {rest rest' stopped stopped' : List ℕ}
    (hpoint : w.point = .waiting pgid' rest' stopped')
    (hstep : w.waitOne pgid pid rest stopped = some w') : Inv shell w' := by
  have hjoins : w.point.joins = none := by rw [hpoint]; rfl
  have hpids : pid ∉ w.point.pids := by
    rw [hpoint]
    exact List.not_mem_nil
  rw [World.waitOne] at hstep
  split at hstep
  · cases hstep
    exact h.waits hjoins
  · split at hstep
    · cases hstep
      exact (h.reap hpids).waits hjoins
    · rw [Option.ite_none_right_eq_some] at hstep
      obtain ⟨-, hstep⟩ := hstep
      cases hstep
      exact h.waits hjoins

theorem given (h : Inv shell w) (hjoins : w.point.joins = none) {pids : List ℕ} :
    Inv shell { termGive shell w pgid with point := .waiting pgid pids [] } := by
  change Inv shell ⟨_, (termGive shell w pgid).procs, _⟩
  rw [termGive_procs]
  exact h.waits hjoins

theorem resume (h : Inv shell w) (hjoins : w.point.joins = none) {pids : List ℕ} :
    Inv shell { (termGive shell w pgid).continue pgid with point := .waiting pgid pids [] } := by
  refine (h.given hjoins).signals fun p => ?_
  split
  · exact ⟨rfl, rfl, rfl, rfl, rfl⟩
  · exact .refl p

/-- The command of `snoop` stays in the group of the shell. -/
theorem snoop (h : Inv shell w) (hjoins : w.point.joins = none) (hfresh : w.fresh shell pid) :
    Inv shell { w with
      procs := ⟨pid, shell, shell, .grouped, true, false, false, false⟩ :: w.procs
      point := .snooping pid } :=
  h.add hfresh (fun htraced => nomatch htraced) (fun hforked => nomatch hforked)
    (fun hmoved => nomatch hmoved) (.inr (.inl rfl))
    (List.forall_mem_cons.mpr ⟨fun htraced => (nomatch htraced), h.placed_of_joins hjoins _⟩)
    trivial

/-- **Step lemma** for the shell. -/
theorem shellStep (h : Inv shell w) (hshell : shell ≠ 0) {call : Call}
    (hstep : w.shellStep shell call = some w') : Inv shell w' := by
  have hquiet : ∀ {point}, w.point = point → point.joins = none → w.point.joins = none :=
    fun hpoint hjoins => hpoint ▸ hjoins
  cases shellStep_move hstep with
  | launch hpoint =>
    exact h.goto (.inl rfl) (h.placed_of_joins (hquiet hpoint rfl) _) (.inl ⟨rfl, rfl⟩)
  | fork hpoint hfresh => exact h.fork hshell hpoint hfresh
  | noFork => exact h
  | join hpoint => exact h.join hpoint
  | give hpoint => exact h.given (hquiet hpoint rfl)
  | leave hpoint => exact h.prompt (hquiet hpoint rfl)
  | wait hpoint hwait => exact h.waitOne hpoint hwait
  | timeout hpoint => exact h.waits (hquiet hpoint rfl)
  | take hpoint => exact h.prompt (hquiet hpoint rfl)
  | resume hpoint => exact h.resume (hquiet hpoint rfl)
  | snoop hpoint hfresh => exact h.snoop (hquiet hpoint rfl) hfresh
  | @snooped pid hpoint =>
    have hpids : pid ∉ w.point.pids := by
      rw [hpoint]
      exact List.not_mem_nil
    exact (h.reap hpids).prompt (hquiet hpoint rfl)

/-- **Step lemma**. -/
theorem step (h : Inv shell w) (hshell : shell ≠ 0) {e : Event} (hok : Orderly shell w e)
    (hstep : w.step shell e = some w') : Inv shell w' := by
  cases e with
  | shell call => exact h.shellStep hshell hstep
  | proc pid act => exact h.procStep hok hstep

end Inv

theorem start_inv : Inv shell (World.start shell) :=
  ⟨.nil, by simp [World.start], by simp [World.start], by simp [World.start],
    by simp [World.start], trivial⟩

theorem exec_inv (hshell : shell ≠ 0) {es : List Event}
    (hok : Guarded (World.step shell) (Orderly shell) (World.start shell) es)
    (h : exec (World.step shell) (World.start shell) es = some w) : Inv shell w :=
  exec_invariant_of_guarded (fun _ _ _ hw he hstep => Inv.step hw hshell he hstep) start_inv hok h

/-- **Every stage gets into its group in time**, in every interleaving of the shell and the
    processes. A process that starts a program or a builtin has left the group of the shell, unless
    it runs under `snoop`. When the shell has forked the stages of a job, each of them is in the
    group that the first one leads, unless its program has already moved to another. -/
theorem pipeline_groups (hshell : shell ≠ 0) {es : List Event}
    (hok : Guarded (World.step shell) (Orderly shell) (World.start shell) es)
    (h : exec (World.step shell) (World.start shell) es = some w) :
    (∀ p ∈ w.procs, p.traced = false → p.phase ≠ .forked → p.group ≠ shell) ∧
      ∀ fg pgid pids, w.point = .launching fg pgid pids → ∀ pid ∈ pids,
        pgid ∈ pids ∧ ∃ p ∈ w.procs, p.pid = pid ∧ p.traced = false ∧
          (p.group = pgid ∨ pid ≠ pgid ∧ p.phase = .regrouped) := by
  have hinv : Inv shell w := exec_inv hshell hok h
  refine ⟨fun p hp htraced hphase =>
    ((hinv.placed p hp htraced).group_ne hphase (hinv.sound p hp) htraced).2,
    fun fg pgid pids hpoint pid hpid => ?_⟩
  have hcurrent := hinv.current
  have hplaced := hinv.placed
  have hstays := hinv.stays
  rw [hpoint] at hcurrent hplaced hstays
  obtain ⟨-, rfl⟩ | ⟨hlead, hall⟩ := hcurrent
  · cases hpid
  · obtain ⟨p, hp, rfl, htarget, htraced⟩ := hall pid hpid
    refine ⟨hlead, p, hp, rfl, htraced, ?_⟩
    obtain hgroup | ⟨hmoved, -⟩ | ⟨-, -, hjoins⟩ := hplaced p hp htraced
    · exact .inl (hgroup.trans htarget)
    · exact .inr ⟨fun hpgid => hstays p hp hpgid hmoved, hmoved⟩
    · cases hjoins

/-- The first of two stages has ended before the second one is forked; the second one moves itself
    after the shell has done so. -/
def twoStages : List Event :=
  [.shell (.launch true), .shell (.fork 7), .proc 7 .group, .proc 7 .exec, .shell .join,
    .proc 7 .exit, .shell (.fork 8), .shell .join, .proc 8 .group, .proc 8 .exec]

theorem pipeline_groups_twoStages :
    ∃ w, exec (World.step 3) (World.start 3) twoStages = some w ∧
      w.point = .launching true 7 [7, 8] ∧
      ∃ p ∈ w.procs, p.pid = 8 ∧ p.traced = false ∧
        (p.group = 7 ∨ 8 ≠ 7 ∧ p.phase = .regrouped) := by
  have hok : Guarded (World.step 3) (Orderly 3) (World.start 3) twoStages := by decide +kernel
  have hend : (exec (World.step 3) (World.start 3) twoStages).map World.point =
      some (.launching true 7 [7, 8]) := by decide +kernel
  obtain ⟨w, hw, hpoint⟩ := Option.map_eq_some_iff.mp hend
  exact ⟨w, hw, hpoint, ((pipeline_groups (by decide) hok hw).2 _ _ _ hpoint 8 (by decide)).2⟩

/-- `snoop ls` runs `ls` in the group of the shell. -/
example : (exec (World.step 3) (World.start 3) [.shell (.snoop 7), .proc 7 .exec]).map
    (fun w => w.procs.map fun p => (p.pid, p.phase, p.group)) = some [(7, .execed, 3)] := by
  decide +kernel

/-! ### The terminal -/

/-- The shell has the terminal, unless it waits for a job. -/
def Owned (shell : ℕ) (w : World) : Prop :=
  w.point.waits = false → w.foreground = shell

theorem setpgid_keeps {byParent : Bool} :
    (setpgid shell w byParent pid pgid).foreground = w.foreground ∧
      (setpgid shell w byParent pid pgid).point = w.point := by
  rw [setpgid]
  generalize (if pgid = 0 then pid else pgid) = g
  split <;> exact ⟨rfl, rfl⟩

namespace Owned

theorem of_eq (h : Owned shell w) (hpoint : w'.point.waits = false → w.point.waits = false)
    (hforeground : w'.foreground = w.foreground) : Owned shell w' := fun hwaits =>
  hforeground.trans (h (hpoint hwaits))

theorem of_waits (hwaits : w.point.waits = true) : Owned shell w := by
  intro hpoint
  rw [hwaits] at hpoint
  cases hpoint

theorem waitOne {rest stopped : List ℕ} (hstep : w.waitOne pgid pid rest stopped = some w') :
    Owned shell w' := by
  refine of_waits ?_
  rw [World.waitOne] at hstep
  split at hstep
  · cases hstep
    rfl
  · split at hstep
    · cases hstep
      rfl
    · rw [Option.ite_none_right_eq_some] at hstep
      obtain ⟨-, hstep⟩ := hstep
      cases hstep
      rfl

/-- **Step lemma** for the shell. -/
theorem shellStep (h : Owned shell w) {call : Call} (hstep : w.shellStep shell call = some w') :
    Owned shell w' := by
  have hquiet : ∀ {point}, w.point = point → point.waits = false → w.point.waits = false :=
    fun hpoint hwaits => hpoint ▸ hwaits
  cases shellStep_move hstep with
  | launch hpoint | fork hpoint _ | leave hpoint | snoop hpoint _ | snooped hpoint =>
    exact h.of_eq (fun _ => hquiet hpoint rfl) rfl
  | noFork => exact h
  | join hpoint => exact h.of_eq (fun _ => hquiet hpoint rfl) setpgid_keeps.1
  | wait hpoint hwait => exact waitOne hwait
  | give | timeout | resume => exact of_waits rfl
  | take => exact fun _ => rfl

/-- A stage of a job moves the terminal only while the shell waits: before that its group is in
    the background. -/
theorem grab (h : Owned shell w) (hinv : Inv shell w) (hp : p ∈ w.procs)
    (hphase : p.phase ≠ .forked)
    (hok : w.point.waits = true ∨ p.traced = false ∧ p.ignores = false) :
    Owned shell (if p.group = w.foreground ∨ p.ignores = true then tcsetpgrp shell w g
      else w.stopGroup p.group) := by
  split
  · next hgrab =>
    rw [tcsetpgrp]
    split
    · intro hwaits
      obtain hwaiting | ⟨htraced, hheeds⟩ := hok
      · exact absurd (hwaiting.symm.trans hwaits) Bool.noConfusion
      · obtain hgroup | hignores := hgrab
        · have hne := (hinv.placed p hp htraced).group_ne hphase (hinv.sound p hp) htraced
          exact absurd (hgroup.trans (h hwaits)) hne.2
        · exact absurd (hignores.symm.trans hheeds) Bool.noConfusion
    · exact h
  · exact h

/-- **Step lemma** for the processes. -/
theorem procStep (h : Owned shell w) (hinv : Inv shell w) {act : Act}
    (hok : Polite w (.proc pid act)) (hstep : w.procStep shell pid act = some w') :
    Owned shell w' := by
  cases act with
  | reap =>
    rw [World.procStep, Option.ite_none_right_eq_some] at hstep
    obtain ⟨-, hstep⟩ := hstep
    cases hstep
    exact h
  | group | regroup g =>
    obtain ⟨p, -, rfl⟩ := Option.map_eq_some_iff.mp hstep
    exact h.of_eq (fun hwaits => (congrArg Point.waits setpgid_keeps.2).symm.trans hwaits)
      setpgid_keeps.1
  | exec | ignore b =>
    obtain ⟨p, -, rfl⟩ := Option.map_eq_some_iff.mp hstep
    exact h
  | spawn child =>
    obtain ⟨p, -, hspawn⟩ := Option.bind_eq_some_iff.mp hstep
    rw [Option.ite_none_right_eq_some] at hspawn
    obtain ⟨-, hspawn⟩ := hspawn
    cases hspawn
    exact h
  | exit | stop | cont =>
    cases hstep
    exact h
  | grab g =>
    obtain ⟨p, hruns, rfl⟩ := Option.map_eq_some_iff.mp hstep
    obtain ⟨hp, rfl, hphase⟩ := World.mem_of_runs hruns
    refine h.grab hinv hp (of_decide_eq_true hphase) (hok.imp id fun ⟨htraces, hdeaf⟩ => ?_)
    exact ⟨eq_false_of_ne_true fun htraced => htraces ⟨p, hp, rfl, htraced⟩,
      eq_false_of_ne_true fun hignores => hdeaf ⟨p, hp, rfl, hignores⟩⟩
  | read =>
    obtain ⟨p, -, rfl⟩ := Option.map_eq_some_iff.mp hstep
    split <;> exact h

/-- **Step lemma**. -/
theorem step (h : Owned shell w) (hinv : Inv shell w) {e : Event} (hok : Polite w e)
    (hstep : w.step shell e = some w') : Owned shell w' := by
  cases e with
  | shell call => exact h.shellStep hstep
  | proc pid act => exact h.procStep hinv hok hstep

end Owned

theorem exec_owned (hshell : shell ≠ 0) {es : List Event}
    (hok : Guarded (World.step shell) (fun w e => Orderly shell w e ∧ Polite w e)
      (World.start shell) es)
    (h : exec (World.step shell) (World.start shell) es = some w) :
    Inv shell w ∧ Owned shell w :=
  exec_invariant_of_guarded (I := fun w => Inv shell w ∧ Owned shell w)
    (fun _ _ _ ⟨hinv, howned⟩ ⟨horderly, hpolite⟩ hstep =>
      ⟨hinv.step hshell horderly hstep, howned.step hinv hpolite hstep⟩)
    ⟨start_inv, fun _ => rfl⟩ hok h

/-- **The shell reads with the terminal in its hands**, in every interleaving, if programs are
    orderly and polite: while it does not wait for a job in the foreground, the terminal belongs to
    its own group. Stages and background jobs, copies of the shell among them, may ask for the
    terminal at any time. -/
theorem prompt_owns_terminal (hshell : shell ≠ 0) {es : List Event}
    (hok : Guarded (World.step shell) (fun w e => Orderly shell w e ∧ Polite w e)
      (World.start shell) es)
    (h : exec (World.step shell) (World.start shell) es = some w)
    (hpoint : w.point.waits = false) : w.foreground = shell :=
  (exec_owned hshell hok h).2 hpoint

/-- A copy of the shell that runs in the background asks for the terminal. -/
def backgroundCopy : List Event :=
  [.shell (.launch false), .shell (.fork 7), .proc 7 .group, .shell .join, .shell .launched,
    .proc 7 (.grab 7)]

theorem prompt_owns_terminal_backgroundCopy :
    ∃ w, exec (World.step 3) (World.start 3) backgroundCopy = some w ∧ w.point = .prompt ∧
      w.foreground = 3 := by
  have hok : Guarded (World.step 3) (fun w e => Orderly 3 w e ∧ Polite w e) (World.start 3)
      backgroundCopy := by decide +kernel
  have hend : (exec (World.step 3) (World.start 3) backgroundCopy).map World.point =
      some .prompt := by decide +kernel
  obtain ⟨w, hw, hpoint⟩ := Option.map_eq_some_iff.mp hend
  exact ⟨w, hw, hpoint, prompt_owns_terminal (by decide) hok hw (by rw [hpoint]; rfl)⟩

/-- A shell under `snoop` takes the terminal for a group of its own, and when it has ended
    `snoop_command` does not call `term_take`. -/
example : (exec (World.step 3) (World.start 3)
    [.shell (.snoop 7), .proc 7 .exec, .proc 7 (.ignore true), .proc 7 (.regroup 0),
      .proc 7 (.grab 7), .proc 7 .exit, .shell .snooped]).map
    (fun w => (w.point, w.foreground)) = some (.prompt, 7) := by
  decide +kernel

/-- A shell in the background ignores `SIGTTOU`, so that its `tcsetpgrp` succeeds. -/
example : (exec (World.step 3) (World.start 3)
    [.shell (.launch false), .shell (.fork 7), .proc 7 .group, .shell .join, .shell .launched,
      .proc 7 .exec, .proc 7 (.ignore true), .proc 7 (.grab 7)]).map
    (fun w => (w.point, w.foreground)) = some (.prompt, 7) := by
  decide +kernel

/-- The shell gives the terminal away only after it has forked all stages. A stage that reads the
    terminal before that is stopped by `SIGTTIN`. -/
theorem reader_is_stopped (hinv : Inv shell w) (howned : Owned shell w)
    (hpoint : w.point.waits = false) (htraces : ¬ w.traces pid) (hdeaf : ¬ w.deaf pid)
    (hstep : w.step shell (.proc pid .read) = some w') :
    ∃ p ∈ w'.procs, p.pid = pid ∧ p.stopped = true := by
  obtain ⟨p, hruns, rfl⟩ := Option.map_eq_some_iff.mp hstep
  obtain ⟨hp, rfl, hphase⟩ := World.mem_of_runs hruns
  have htraced : p.traced = false :=
    eq_false_of_ne_true fun htraced => htraces ⟨p, hp, rfl, htraced⟩
  have hheeds : p.ignores = false :=
    eq_false_of_ne_true fun hignores => hdeaf ⟨p, hp, rfl, hignores⟩
  have hgroup : p.group ≠ w.foreground := by
    rw [howned hpoint]
    exact ((hinv.placed p hp htraced).group_ne (of_decide_eq_true hphase) (hinv.sound p hp)
      htraced).2
  rw [if_neg hgroup]
  exact ⟨{ p with stopped := true }, List.mem_map.mpr ⟨p, hp, if_pos ⟨rfl, hheeds⟩⟩, rfl, rfl⟩

/-- `fg_wait` takes such a stage for one that the user has stopped. -/
example : (exec (World.step 3) (World.start 3)
    [.shell (.launch true), .shell (.fork 7), .proc 7 .group, .proc 7 .exec, .proc 7 .read,
      .shell .join, .shell .launched, .shell .wait]).map World.point =
    some (.waiting 7 [] [7]) := by
  decide +kernel

end MiniOs.Shell.JobControl

import Mathlib.Data.List.DropRight
import Mathlib.Logic.Function.Basic
import MiniOs.Shell.JobTable

/-!
# The shell and its children

The shell as three parties that take steps in any order: the kernel, which changes
the state of a child; the SIGCHLD handler of `bg.c`, which runs to its end whenever it
is entered but can be entered between any two steps of the program; and the program,
whose commands launch jobs, drain the handler's queue (`check_bg_jobs`), and resume,
signal and trace jobs.

The handler touches the watch list, the queue and the kernel's statuses and nothing
else; the job table is touched by the program only. So the program's change to the
table is one step, and each of its calls of `bg_watch_pid` and `bg_unwatch_pid`, which
block SIGCHLD, is a step of its own, taken from the list `calls`.

A pid can be given out again once its process has been collected, so a process is
told apart by a number the shell does not see: `uid`. With it the model records the
processes of each job (`regs`) and who collected a process (`collector`); nothing the
shell does depends on these.
-/

namespace MiniOs.Shell

variable {pid : Pid} {st : WaitStatus}

def maxWatch : ℕ := maxBgJobs * maxJobProcs

/-- The status of a process that is gone. -/
abbrev Terminal := { st : WaitStatus // st.terminal = true }

theorem terminal_exited (code : ℕ) : (WaitStatus.exited code).terminal = true := rfl

theorem terminal_signaled (sig : ℕ) : (WaitStatus.signaled sig).terminal = true := rfl

def Terminal.exited (code : ℕ) : Terminal := ⟨.exited code, terminal_exited code⟩

/-- The status of a process that was killed. -/
def Terminal.signaled (sig : ℕ) : Terminal := ⟨.signaled sig, terminal_signaled sig⟩

abbrev Change := { st : WaitStatus // st.terminal = false }

theorem terminal_stopped (sig : ℕ) : (WaitStatus.stopped sig).terminal = false := rfl

theorem terminal_continued : WaitStatus.continued.terminal = false := rfl

inductive Phase where
  | running
  | stopped
  | zombie (st : Terminal)
  deriving DecidableEq

/-- A child whose terminating status has not been collected. `pending` is its last stop
    or continue, until it is collected or the next one takes its place; `stage` tells
    the commands of a pipeline from the feeder and tee processes. -/
structure Child where
  pid : Pid
  uid : ℕ
  stage : Bool
  phase : Phase
  pending : Option Change
  deriving DecidableEq

/-- What `waitpid` with `WUNTRACED`, and with `WCONTINUED` if asked for, has to report. -/
def Child.status (c : Child) (wcontinued : Bool) : Option WaitStatus :=
  match c.phase with
  | .zombie st => some st
  | _ => (c.pending.map Subtype.val).filter (fun st => wcontinued || !st.wifcontinued)

/-- The child after its status has been collected. -/
def Child.afterWait (c : Child) : Option Child :=
  match c.phase with
  | .zombie _ => none
  | _ => some { c with pending := none }

/-- `waitpid(pid, ..)`: the child and its status, if it has one to report. -/
def waitpid (children : List Child) (pid : Pid) (wcontinued : Bool) :
    Option (Child × WaitStatus) :=
  (children.find? (fun c => c.pid = pid)).bind
    (fun c => (c.status wcontinued).map (fun st => (c, st)))

/-- The children after the status of `pid` has been collected. -/
def takeStatus (children : List Child) (pid : Pid) : List Child :=
  children.filterMap (fun c => if c.pid = pid then c.afterWait else some c)

def changeChild (children : List Child) (pid : Pid) (f : Child → Child) : List Child :=
  children.map (fun c => if c.pid = pid then f c else c)

/-- Who collected a terminating status: the handler, the `waitpid(-1)` sweep of
    `check_bg_jobs`, or a command that waits for a process itself. -/
inductive Collector where
  | handler
  | sweep
  | own
  deriving DecidableEq

/-- An entry of `reaped_pid` and `reaped_status`. -/
structure Record where
  pid : Pid
  uid : ℕ
  status : WaitStatus
  deriving DecidableEq

/-- A stage forked by the command that is being launched. -/
structure Kid where
  pid : Pid
  uid : ℕ
  name : List Byte
  deriving DecidableEq

inductive Pc where
  /-- Between commands, or in one that has nothing outstanding. -/
  | idle
  /-- In `execute_command` or a pipeline: the stages `fg_wait` saw stop, and those not
      waited for yet. -/
  | launching (stopped kids : List Kid)
  /-- In the first loop of `check_bg_jobs`, with what is left of the copied queue. -/
  | draining (copied : List Record)
  /-- In its second loop. -/
  | sweeping
  /-- In `resume_fg`, before its wait. -/
  | resuming (job : ℕ) (timer : Bool) (pids : List Pid)
  /-- In the wait of `resume_fg`: `done` and `rest` are the array `pids` up to and from
      the loop index. -/
  | waiting (job : ℕ) (timer : Bool) (done rest stopped : List Pid)
  /-- In `snoop_pid`. -/
  | snooping (pid : Pid) (wasWatched : Bool)
  deriving DecidableEq

/-- The shell and its children. `watched` is `watched[0 .. watch_hi)`, `queue` the
    entries `[0 .. reaped_n)` of the reaped arrays, and `handler` the loop index of the
    handler while it runs. -/
structure World where
  children : List Child
  nextUid : ℕ
  table : JobTable
  watched : List Pid
  queue : List Record
  handler : Option ℕ
  calls : List WatchCall
  pc : Pc
  out : List Line
  regs : ℕ → List (Pid × ℕ)
  collector : ℕ → Option Collector
  timedOut : List ℕ

/-- After `init_bg`. -/
def boot : World :=
  { children := []
    nextUid := 0
    table := initTable
    watched := []
    queue := []
    handler := none
    calls := []
    pc := .idle
    out := []
    regs := fun _ => []
    collector := fun _ => none
    timedOut := [] }

def bgWatchPid (watched : List Pid) (pid : Pid) : List Pid :=
  if pid = 0 ∨ pid ∈ watched then watched
  else
    match watched.idxOf? 0 with
    | some slot => watched.set slot pid
    | none => if watched.length < maxWatch then watched ++ [pid] else watched

/-- `bg_unwatch_pid`, with the loop that lowers `watch_hi`. -/
def bgUnwatchPid (watched : List Pid) (pid : Pid) : List Pid :=
  (watched.map (fun p => if p = pid then 0 else p)).rdropWhile (· = 0)

def WatchCall.run (watched : List Pid) : WatchCall → List Pid
  | watch pid => bgWatchPid watched pid
  | unwatch pid => bgUnwatchPid watched pid

namespace World

def collect (w : World) (c : Child) (st : WaitStatus) (who : Collector) : World :=
  { w with
    children := takeStatus w.children c.pid
    collector :=
      if st.terminal then Function.update w.collector c.uid (some who) else w.collector }

/-- The kernel changes the state of the child `pid`. -/
def change (w : World) (pid : Pid) (f : Child → Child) : World :=
  { w with children := changeChild w.children pid f }

/-- The program performs an operation on the job table. -/
def perform (w : World) (e : Effect) : World :=
  { w with table := e.table, calls := e.calls, out := w.out ++ e.lines }

/-- A registration, which also settles the processes of the new job. -/
def register (w : World) (e : Effect) (kids : List Kid) : World :=
  { w.perform e with
    pc := .idle
    regs :=
      if e.table.nextJobNumber = w.table.nextJobNumber then w.regs
      else Function.update w.regs e.table.nextJobNumber
        ((kids.take maxJobProcs).map (fun k => (k.pid, k.uid))) }

end World

/-- A status change of a child. -/
inductive KernelEvent where
  | exit (pid : Pid) (st : Terminal)
  | stop (pid : Pid) (sig : ℕ)
  | cont (pid : Pid)

def phaseOf (children : List Child) (pid : Pid) : Option Phase :=
  (children.find? (fun c => c.pid = pid)).map Child.phase

/-- The kernel's step. Once a child is a zombie, an uncollected stop or continue of it
    is no longer reported. -/
def kernelStep (w : World) : KernelEvent → Option World
  | .exit pid st =>
    match phaseOf w.children pid with
    | some .running | some .stopped =>
      some (w.change pid (fun c => { c with phase := .zombie st, pending := none }))
    | _ => none
  | .stop pid sig =>
    match phaseOf w.children pid with
    | some .running =>
      some (w.change pid
        (fun c => { c with phase := .stopped, pending := some ⟨.stopped sig, rfl⟩ }))
    | _ => none
  | .cont pid =>
    match phaseOf w.children pid with
    | some .stopped =>
      some (w.change pid
        (fun c => { c with phase := .running, pending := some ⟨.continued, rfl⟩ }))
    | _ => none

/-- The body of the loop of `sigchld_handler`, at index `i`. -/
def handlerVisit (w : World) (i : ℕ) : World :=
  let pid := w.watched.getD i 0
  if pid = 0 then w
  else
    match waitpid w.children pid true with
    | none => w
    | some (c, st) =>
      { w.collect c st .handler with
        watched := if st.terminal then w.watched.set i 0 else w.watched
        queue := w.queue ++ [⟨pid, c.uid, st⟩] }

/-- The signal is delivered, or the handler goes round its loop or returns. -/
inductive HandlerEvent where
  | enter
  | iter

def handlerStep (w : World) : HandlerEvent → Option World
  | .enter => if w.handler = none then some { w with handler := some 0 } else none
  | .iter =>
    match w.handler with
    | none => none
    | some i =>
      if i < w.watched.length ∧ w.queue.length < maxWatch then
        some { handlerVisit w i with handler := some (i + 1) }
      else
        some { w with handler := none }

/-- A step of the program. -/
inductive MainEvent where
  /-- The next of the outstanding calls of `bg_watch_pid` and `bg_unwatch_pid`. -/
  | call
  /-- `fork` of a stage, or of a feeder or tee process. -/
  | fork (pid : Pid) (stage : Bool) (name : List Byte)
  /-- `fg_wait` or `snoop_command` waits for the next stage. If the kernel has no such
      child any more, `waitpid` fails and `status` is whatever it was; `garbage` says
      whether it reads as a stop. -/
  | fgWait (garbage : Bool)
  /-- The end of a background launch, of a foreground job that stopped, and of one
      that did not. -/
  | registerBg (pgid : Pid) (cmdline : List Byte)
  | registerStopped (pgid : Pid) (cmdline : List Byte)
  | launchDone
  /-- `redirs_wait` collects a feeder or tee process. -/
  | helperWait (pid : Pid)
  /-- The steps of `check_bg_jobs`: the locked copy of the queue, one `record_status`
      of the first loop, the end of that loop, one round of the sweep, its end. -/
  | drainCopy
  | drainApply
  | drainEnd
  | sweepCollect (pid : Pid)
  | sweepEnd
  /-- `ping`, after its `check_bg_jobs`, with a stop signal or with SIGCONT. -/
  | pingStop (jobNumber : ℕ)
  | pingCont (jobNumber : ℕ)
  | resumeBg (jobNumber : ℕ)
  /-- `resume_fg` up to its wait, the start of the wait, one process waited for, the
      alarm, and the end. -/
  | resumeFg (jobNumber : ℕ) (timer : Bool)
  | resumeWait
  | waitNext
  | waitTimeout
  | waitEnd
  /-- `snoop_pid`: its start, the exit of the traced process, and a detach or a failed
      attach. -/
  | snoopBegin (pid : Pid)
  | snoopExited (st : Terminal)
  | snoopDetached
  /-- A builtin that is a stage of a pipeline or a command in the background
      (`activities &`) runs in a forked copy of the shell: `activities` and `ping` call
      `check_bg_jobs` there, and `snoop -p` hands the exit of the process it traced to
      `bg_child_exited`. -/
  | copyDrain
  | copySnoop (pid : Pid) (st : Terminal)

def forkChild (w : World) (pid : Pid) (stage : Bool) (name : List Byte) : Option World :=
  -- the kernel does not reuse the pid of a child that has not been collected
  if pid = 0 ∨ pid ∈ w.children.map Child.pid then none
  else
    let w' : World :=
      { w with
        children := w.children ++ [⟨pid, w.nextUid, stage, .running, none⟩]
        nextUid := w.nextUid + 1 }
    let kid : Kid := ⟨pid, w.nextUid, name⟩
    match w.pc, stage with
    | .idle, true => some { w' with pc := .launching [] [kid] }
    | .launching stopped kids, true => some { w' with pc := .launching stopped (kids ++ [kid]) }
    | .idle, false => some w'
    | .launching _ _, false => some w'
    | _, _ => none

/-- One round of the loop of `fg_wait`. -/
def fgWait (w : World) (garbage : Bool) : Option World :=
  match w.pc with
  | .launching stopped (k :: kids) =>
    if k.pid ∈ w.children.map Child.pid then
      match waitpid w.children k.pid false with
      | none => none
      | some (c, st) =>
        some { w.collect c st .own with
          pc := .launching (if st.wifstopped then stopped ++ [k] else stopped) kids }
    else
      -- waitpid fails without writing status, which is tested all the same
      some { w with pc := .launching (if garbage then stopped ++ [k] else stopped) kids }
  | _ => none

/-- One round of the loop of `resume_fg`. A status that is neither a stop nor the end
    of the process cannot be reported without `WCONTINUED`. -/
def waitNext (w : World) : Option World :=
  match w.pc with
  | .waiting n timer done (p :: rest) stopped =>
    if p ∈ w.children.map Child.pid then
      match waitpid w.children p false with
      | none => none
      | some (c, st) =>
        some { w.collect c st .own with
          pc := if st.wifstopped then .waiting n timer (done ++ [p]) rest (stopped ++ [p])
            else .waiting n timer (done ++ [0]) rest stopped }
    else
      -- ECHILD: the process has been collected elsewhere
      some { w with pc := .waiting n timer (done ++ [0]) rest stopped }
  | _ => none

/-- The end of `resume_fg` after its loop. -/
def waitEnd (w : World) : Option World :=
  match w.pc with
  | .waiting n _ _ [] stopped =>
    let e := if stopped ≠ [] then bgSetStopped w.table n stopped else bgRemoveJob w.table n
    let lines := if stopped ≠ [] then
      (findJob w.table n).toList.map (fun j => Line.stopped n j.cmdline) else []
    some { w.perform { e with lines := lines } with pc := .idle }
  | _ => none

/-- `resume_fg` when its alarm has fired. -/
def waitTimeout (w : World) : Option World :=
  match w.pc with
  | .waiting n true done (p :: rest) _ =>
    let e := bgRemoveJob w.table n
    some { w.perform ⟨e.table, e.calls ++ (done ++ p :: rest).map WatchCall.watch,
        [.timedOut], false⟩ with
      pc := .idle
      timedOut := n :: w.timedOut }
  | _ => none

def resumeFg (w : World) (n : ℕ) (timer : Bool) : Option World :=
  match w.pc, findJob w.table n with
  | .idle, some j =>
    some { w.perform ⟨(bgSetRunning w.table n).table, j.pids.map WatchCall.unwatch,
        [.foreground j.cmdline], false⟩ with
      pc := .resuming n timer j.pids }
  | _, _ => none

/-- `snoop_pid` from the exit of the traced process on. A process that is not a child
    of the shell is traced as well. -/
def snoopExited (w : World) (st : Terminal) : Option World :=
  match w.pc with
  | .snooping pid _ =>
    match w.children.find? (fun c => c.pid = pid) with
    | none => some { w.perform (bgChildExited w.table pid st) with pc := .idle }
    | some c =>
      if c.phase = .zombie st then
        some { (w.collect c st .own).perform (bgChildExited w.table pid st) with pc := .idle }
      else none
  | _ => none

/-- The lines `check_bg_jobs` prints in a forked copy of the shell, which has the
    queue and the table but no children. -/
def copyLines : JobTable → List Record → List Line
  | _, [] => []
  | t, r :: rest =>
    (recordStatus t r.pid r.status).lines ++ copyLines (recordStatus t r.pid r.status).table rest

/-- The pids and names of the stages, as `add_job` gets them. -/
def Kid.stages (kids : List Kid) : List (Pid × List Byte) := kids.map (fun k => (k.pid, k.name))

/-- The program's step, when it has no outstanding call. -/
def program (w : World) : MainEvent → Option World
  | .call => none
  | .fork pid stage name => forkChild w pid stage name
  | .fgWait garbage => fgWait w garbage
  | .registerBg pgid cmdline =>
    match w.pc with
    | .launching [] kids =>
      some (w.register (registerBgGroup w.table pgid (Kid.stages kids) cmdline) kids)
    | _ => none
  | .registerStopped pgid cmdline =>
    match w.pc with
    | .launching (k :: kids) [] =>
      some (w.register (registerStoppedJob w.table pgid (Kid.stages (k :: kids)) cmdline)
        (k :: kids))
    | _ => none
  | .launchDone =>
    match w.pc with
    | .launching [] [] => some { w with pc := .idle }
    | _ => none
  | .helperWait pid =>
    match w.pc, w.children.find? (fun c => c.pid = pid) with
    | .idle, some ⟨p, uid, false, .zombie st, pending⟩ =>
      some (w.collect ⟨p, uid, false, .zombie st, pending⟩ st .own)
    | _, _ => none
  | .drainCopy =>
    match w.pc with
    | .idle => some { w with pc := .draining w.queue, queue := [] }
    | _ => none
  | .drainApply =>
    match w.pc with
    | .draining (r :: rest) =>
      some { w.perform (recordStatus w.table r.pid r.status) with pc := .draining rest }
    | _ => none
  | .drainEnd =>
    match w.pc with
    | .draining [] => some { w with pc := .sweeping }
    | _ => none
  | .sweepCollect pid =>
    match w.pc, waitpid w.children pid true with
    | .sweeping, some (c, st) =>
      some ((w.collect c st .sweep).perform (recordStatus w.table pid st))
    | _, _ => none
  | .sweepEnd =>
    if w.pc = .sweeping ∧ ∀ c ∈ w.children, c.status true = none then
      some { w with pc := .idle }
    else none
  | .pingStop n =>
    match w.pc with
    | .idle => some (w.perform (bgSetStopped w.table n (stoppedPids w.table n (fun _ => true))))
    | _ => none
  | .pingCont n =>
    match w.pc with
    | .idle => some (w.perform (bgSetRunning w.table n))
    | _ => none
  | .resumeBg n =>
    match w.pc, findJob w.table n with
    | .idle, some j =>
      some (w.perform { bgSetRunning w.table n with lines := [.running n j.cmdline] })
    | _, _ => none
  | .resumeFg n timer => resumeFg w n timer
  | .resumeWait =>
    match w.pc with
    | .resuming n timer pids => some { w with pc := .waiting n timer [] pids [] }
    | _ => none
  | .waitNext => waitNext w
  | .waitTimeout => waitTimeout w
  | .waitEnd => waitEnd w
  | .snoopBegin pid =>
    match w.pc with
    | .idle =>
      -- the answer of bg_unwatch_pid and its change to the list are one locked section
      if pid = 0 then none
      else some { w with
        watched := bgUnwatchPid w.watched pid
        pc := .snooping pid (pid ∈ w.watched) }
    | _ => none
  | .snoopExited st => snoopExited w st
  | .snoopDetached =>
    match w.pc with
    | .snooping pid wasWatched =>
      some { w with calls := if wasWatched then [.watch pid] else [], pc := .idle }
    | _ => none
  | .copyDrain =>
    match w.pc with
    | .launching _ _ => some { w with out := w.out ++ copyLines w.table w.queue }
    | _ => none
  | .copySnoop pid st =>
    match w.pc with
    | .launching _ _ => some { w with out := w.out ++ (bgChildExited w.table pid st).lines }
    | _ => none

/-- The program's step: it does not run while the handler does, and makes its
    outstanding calls first. -/
def mainStep (w : World) (e : MainEvent) : Option World :=
  if w.handler = none then
    match w.calls, e with
    | c :: rest, .call => some { w with watched := c.run w.watched, calls := rest }
    | [], e => program w e
    | _ :: _, _ => none
  else none

/-- A step of one of the three parties. -/
inductive Event where
  | kernel (e : KernelEvent)
  | handler (e : HandlerEvent)
  | main (e : MainEvent)

def step (w : World) : Event → Option World
  | .kernel e => kernelStep w e
  | .handler e => handlerStep w e
  | .main e => mainStep w e

theorem waitpid_eq_some {children : List Child} {b : Bool} {c : Child}
    (h : waitpid children pid b = some (c, st)) :
    c ∈ children ∧ c.pid = pid ∧ c.status b = some st := by
  obtain ⟨c', hfind, hst⟩ := Option.bind_eq_some_iff.mp h
  obtain ⟨st', hst, heq⟩ := Option.map_eq_some_iff.mp hst
  cases heq
  refine ⟨List.mem_of_find?_eq_some hfind, ?_, hst⟩
  simpa using List.find?_some hfind

/-- What the program does in a step: its next outstanding call, or its own next step. -/
theorem mainStep_cases {w w' : World} {e : MainEvent} (h : mainStep w e = some w') :
    w.handler = none ∧
      ((∃ c rest, w.calls = c :: rest ∧ e = .call ∧
        w' = { w with watched := c.run w.watched, calls := rest }) ∨
      w.calls = [] ∧ program w e = some w') := by
  by_cases hhandler : w.handler = none
  · refine ⟨hhandler, ?_⟩
    rw [mainStep.eq_def, if_pos hhandler] at h
    split at h
    · next c rest hcalls =>
      cases h
      exact .inl ⟨c, rest, hcalls, rfl, rfl⟩
    · next hcalls => exact .inr ⟨hcalls, h⟩
    · cases h
  · rw [mainStep.eq_def, if_neg hhandler] at h
    cases h

/-- What the handler does in a step: it starts, returns, passes over an entry, or
    collects the status of the process in it. -/
theorem handlerStep_cases {w w' : World} {e : HandlerEvent} (h : handlerStep w e = some w') :
    (∃ i, w' = { w with handler := i }) ∨
    ∃ i c st, e = .iter ∧ w.handler = some i ∧ i < w.watched.length ∧ w.queue.length < maxWatch ∧
      w.watched.getD i 0 = c.pid ∧ c.pid ≠ 0 ∧ waitpid w.children c.pid true = some (c, st) ∧
      w' = { w.collect c st .handler with
        watched := if st.terminal then w.watched.set i 0 else w.watched
        queue := w.queue ++ [⟨c.pid, c.uid, st⟩]
        handler := some (i + 1) } := by
  cases e with
  | enter =>
    rw [handlerStep] at h
    split_ifs at h
    cases h
    exact .inl ⟨_, rfl⟩
  | iter =>
    rw [handlerStep] at h
    split at h
    · cases h
    · next i hi =>
      split_ifs at h with hloop
      · cases h
        rw [handlerVisit]
        split_ifs with hzero
        · exact .inl ⟨_, rfl⟩
        · split
          · exact .inl ⟨_, rfl⟩
          · next c st hwait =>
            obtain ⟨-, hpid, -⟩ := waitpid_eq_some hwait
            rw [← hpid] at hwait hzero ⊢
            exact .inr ⟨i, c, st, rfl, hi, hloop.1, hloop.2, hpid.symm, hzero, hwait, rfl⟩
      · cases h
        exact .inl ⟨_, rfl⟩

/-! ### The kernel's children -/

theorem Child.status_zombie {c : Child} {st : Terminal} (h : c.phase = .zombie st) (b : Bool) :
    c.status b = some st.val := by
  rw [Child.status, h]

theorem waitpid_zombie {children : List Child} {c : Child} {st : Terminal}
    (hfind : children.find? (fun c => c.pid = pid) = some c) (hphase : c.phase = .zombie st)
    (b : Bool) : waitpid children pid b = some (c, st.val) := by
  rw [waitpid, hfind]
  show (c.status b).map _ = _
  rw [Child.status_zombie hphase]
  rfl

theorem Child.status_terminal {c : Child} {b : Bool} (h : c.status b = some st) :
    (st.terminal = true ↔ c.afterWait = none) ∧
      (st.terminal = false → c.pending.map Subtype.val = some st ∧
        c.afterWait = some { c with pending := none }) := by
  obtain ⟨pid, uid, stage, phase, pending⟩ := c
  cases phase with
  | zombie t =>
    cases h
    exact ⟨⟨fun _ => rfl, fun _ => t.2⟩, fun hf => absurd (hf.symm.trans t.2) Bool.false_ne_true⟩
  | running =>
    obtain ⟨hp, -⟩ := Option.filter_eq_some_iff.mp h
    obtain ⟨ch, rfl, rfl⟩ := Option.map_eq_some_iff.mp hp
    exact ⟨⟨fun ht => absurd (ch.2.symm.trans ht) Bool.false_ne_true, fun h => nomatch h⟩,
      fun _ => ⟨rfl, rfl⟩⟩
  | stopped =>
    obtain ⟨hp, -⟩ := Option.filter_eq_some_iff.mp h
    obtain ⟨ch, rfl, rfl⟩ := Option.map_eq_some_iff.mp hp
    exact ⟨⟨fun ht => absurd (ch.2.symm.trans ht) Bool.false_ne_true, fun h => nomatch h⟩,
      fun _ => ⟨rfl, rfl⟩⟩

/-- Without `WCONTINUED` a status that does not end a process is a stop. -/
theorem Child.wifstopped_of_status {c : Child} (h : c.status false = some st)
    (hst : st.terminal = false) : st.wifstopped = true := by
  have hcont : st.terminal = true ∨ (false || !st.wifcontinued) = true := by
    rw [Child.status] at h
    split at h
    · next t _ =>
      cases h
      exact .inl t.2
    · exact .inr (Option.filter_eq_some_iff.mp h).2
  cases st with
  | exited code => cases hst
  | signaled sig => cases hst
  | stopped sig => rfl
  | continued => rcases hcont with hcont | hcont <;> cases hcont

theorem eq_of_pid {children : List Child} (hnd : (children.map Child.pid).Nodup) {c c' : Child}
    (hc : c ∈ children) (hc' : c' ∈ children) (hpid : c.pid = c'.pid) : c = c' :=
  List.inj_on_of_nodup_map hnd hc hc' hpid

theorem mem_takeStatus {children : List Child} {c' : Child} :
    c' ∈ takeStatus children pid ↔
      c' ∈ children ∧ c'.pid ≠ pid ∨ ∃ c ∈ children, c.pid = pid ∧ c.afterWait = some c' := by
  rw [takeStatus, List.mem_filterMap]
  constructor
  · rintro ⟨c, hc, heq⟩
    by_cases hpid : c.pid = pid
    · rw [if_pos hpid] at heq
      exact .inr ⟨c, hc, hpid, heq⟩
    · rw [if_neg hpid] at heq
      cases heq
      exact .inl ⟨hc, hpid⟩
  · rintro (⟨hc, hpid⟩ | ⟨c, hc, hpid, heq⟩)
    · exact ⟨c', hc, if_neg hpid⟩
    · exact ⟨c, hc, by rw [if_pos hpid]; exact heq⟩

/-- What identifies a child: its pid, the number of the incarnation, and its kind. -/
def Child.id (c : Child) : Pid × ℕ × Bool := (c.pid, c.uid, c.stage)

theorem Child.afterWait_id {c c' : Child} (h : c.afterWait = some c') : c'.id = c.id := by
  obtain ⟨pid, uid, stage, phase, pending⟩ := c
  cases phase <;> cases h <;> rfl

theorem ids_changeChild {children : List Child} {f : Child → Child} (hf : ∀ c, (f c).id = c.id) :
    (changeChild children pid f).map Child.id = children.map Child.id := by
  rw [changeChild, List.map_map]
  refine List.map_congr_left (fun c _ => ?_)
  show (if c.pid = pid then f c else c).id = c.id
  split
  · exact hf c
  · rfl

/-- Collecting a stop or a continue leaves the children who they are. -/
theorem ids_takeStatus_change {children : List Child}
    (h : ∀ c ∈ children, c.pid = pid → c.afterWait ≠ none) :
    (takeStatus children pid).map Child.id = children.map Child.id := by
  induction children with
  | nil => rfl
  | cons c rest ih =>
    have hrest := ih (fun d hd => h d (List.mem_cons_of_mem c hd))
    rw [takeStatus, List.filterMap_cons]
    by_cases hpid : c.pid = pid
    · rw [if_pos hpid]
      cases hafter : c.afterWait with
      | none => exact absurd hafter (h c List.mem_cons_self hpid)
      | some d =>
        show d.id :: (takeStatus rest pid).map Child.id = c.id :: rest.map Child.id
        rw [hrest, Child.afterWait_id hafter]
    · rw [if_neg hpid]
      show c.id :: (takeStatus rest pid).map Child.id = c.id :: rest.map Child.id
      rw [hrest]

theorem ids_takeStatus_exit {children : List Child}
    (h : ∀ c ∈ children, c.pid = pid → c.afterWait = none) :
    (takeStatus children pid).map Child.id = (children.map Child.id).filter (·.1 ≠ pid) := by
  induction children with
  | nil => rfl
  | cons c rest ih =>
    have hrest := ih (fun d hd => h d (List.mem_cons_of_mem c hd))
    rw [takeStatus, List.filterMap_cons, List.map_cons]
    by_cases hpid : c.pid = pid
    · rw [if_pos hpid, h c List.mem_cons_self hpid,
        List.filter_cons_of_neg (by simp [Child.id, hpid])]
      exact hrest
    · rw [if_neg hpid, List.filter_cons_of_pos (by simp [Child.id, hpid])]
      show c.id :: (takeStatus rest pid).map Child.id = _
      rw [hrest]

theorem mem_changeChild {children : List Child} {f : Child → Child} {c' : Child}
    (h : c' ∈ changeChild children pid f) :
    c' ∈ children ∧ c'.pid ≠ pid ∨ ∃ c ∈ children, c.pid = pid ∧ c' = f c := by
  obtain ⟨c, hc, rfl⟩ := List.mem_map.mp h
  by_cases hpid : c.pid = pid
  · rw [if_pos hpid]
    exact .inr ⟨c, hc, hpid, rfl⟩
  · rw [if_neg hpid]
    exact .inl ⟨hc, hpid⟩

theorem pids_of_ids {l m : List Child} (h : l.map Child.id = m.map Child.id) :
    l.map Child.pid = m.map Child.pid := by
  have hfst := congrArg (List.map Prod.fst) h
  rwa [List.map_map, List.map_map] at hfst

/-- The child whose status has been collected, and the others. -/
theorem takeStatus_cases {children : List Child} (hnd : (children.map Child.pid).Nodup)
    {c : Child} {b : Bool} (hwait : waitpid children c.pid b = some (c, st)) {c' : Child}
    (hc' : c' ∈ takeStatus children c.pid) :
    c' ∈ children ∧ c'.pid ≠ c.pid ∨
      st.terminal = false ∧ c' = { c with pending := none } ∧ ∃ ch ∈ c.pending, ch.1 = st := by
  obtain ⟨hc, -, hst⟩ := waitpid_eq_some hwait
  rcases mem_takeStatus.mp hc' with hother | ⟨d, hd, hpid, hafter⟩
  · exact .inl hother
  · cases eq_of_pid hnd hd hc hpid
    obtain ⟨hterm, hchange⟩ := Child.status_terminal hst
    have hlive : st.terminal = false := by
      rw [← Bool.not_eq_true, hterm, hafter]
      exact Option.some_ne_none c'
    obtain ⟨hpending, hnone⟩ := hchange hlive
    obtain ⟨ch, hch, hval⟩ := Option.map_eq_some_iff.mp hpending
    exact .inr ⟨hlive, Option.some_inj.mp (hafter.symm.trans hnone), ch, hch, hval⟩

theorem pids_takeStatus_sublist (children : List Child) (pid : Pid) :
    ((takeStatus children pid).map Child.pid).Sublist (children.map Child.pid) := by
  induction children with
  | nil => exact List.Sublist.refl _
  | cons c rest ih =>
    rw [takeStatus, List.filterMap_cons, List.map_cons]
    by_cases hpid : c.pid = pid
    · rw [if_pos hpid]
      cases hafter : c.afterWait with
      | none => exact ih.cons _
      | some d =>
        have hd : d.pid = c.pid := congrArg Prod.fst (Child.afterWait_id hafter)
        show (d.pid :: (takeStatus rest pid).map Child.pid).Sublist _
        rw [hd]
        exact ih.cons_cons _
    · rw [if_neg hpid]
      exact ih.cons_cons _

/-! ### The statuses between the kernel and the table -/

/-- What `check_bg_jobs` has copied out of the queue and not applied yet. -/
def Pc.copied : Pc → List Record
  | draining copied => copied
  | _ => []

/-- The collected statuses that have not been applied, in the order in which they will
    be. -/
def World.backlog (w : World) : List Record := w.pc.copied ++ w.queue

end MiniOs.Shell

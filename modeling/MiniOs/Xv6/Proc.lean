import Mathlib.Algebra.Group.Int.Defs
import Mathlib.Algebra.Group.Nat.Defs
import Mathlib.Logic.Function.Basic
import Mathlib.Data.List.Basic

/-!
# The process table and its lock-protected sections

The data model of `kernel/proc.h` and the code of `kernel/proc.c` that runs
while one `p->lock` is held. Every definition here touches one slot of the
table, and besides it only the counters `nextpid` and `mlfq_seq`, each of which
has a lock of its own.

The page tables, trap frames, open files and names of a process are left out:
no scheduling decision reads them. Whether an allocation succeeds is a choice
of the environment.
-/

namespace MiniOs.Xv6

/-- `NPROC` of `param.h`. -/
def NPROC : ℕ := 64

/-- A slot of `proc[NPROC]`; a `struct proc *` points to one. -/
abbrev Slot := Fin NPROC

/-- The scheduler compiled in: `USE_RR`, `USE_FCFS` or `USE_MLFQ`. -/
inductive Build where
  | rr
  | fcfs
  | mlfq
  deriving DecidableEq, Repr

inductive ProcState where
  | unused
  | used
  | sleeping
  | runnable
  | running
  | zombie
  deriving DecidableEq, Repr

/-- A sleep channel is a kernel address: null, `&ticks`, a slot of the process
    table (what `kwait` sleeps on), or some other object. -/
inductive Chan where
  | null
  | ticks
  | proc (i : Slot)
  | other (addr : ℕ)
  deriving DecidableEq, Repr

/-- The scheduling fields of `struct proc`. -/
structure Proc where
  state : ProcState
  chan : Chan
  killed : Bool
  xstate : Int
  pid : Int
  parent : Option Slot
  queue : ℕ
  enqTime : ℕ
  ticksUsed : ℕ
  ctime : Int
  firstRunTime : Int
  etime : Int
  rtime : Int
  wtime : Int
  deriving DecidableEq, Repr

/-- The kernel's shared variables. `cpu c` is `cpus[c].proc`. The stamp counter
    `mlfqSeq` counts every enqueue; what `mlfq_enqueue` stores is its residue
    modulo `2^64`, so the wrap-around of `uint64` is kept. -/
@[ext]
structure Kernel where
  proc : Slot → Proc
  nextpid : Int
  ticks : ℕ
  mlfqSeq : ℕ
  cpu : ℕ → Option Slot

/-- The conversion of the `uint` tick counter to the `int` fields of a process. -/
def asInt (u : ℕ) : Int := if u < 2 ^ 31 then u else (u : Int) - 2 ^ 32

def timeSlice : List ℕ := [1, 4, 8, 16]

/-- `time_slice[q]`; the default is never read by the theorems below, which
    prove every index in range. -/
def timeSliceAt (q : ℕ) : ℕ := timeSlice.getD q 0

/-- Run `f` on the fields of slot `i`. -/
def Kernel.modify (k : Kernel) (i : Slot) (f : Proc → Proc) : Kernel :=
  { k with proc := Function.update k.proc i (f (k.proc i)) }

namespace Kernel

variable (k : Kernel) (i j : Slot) (f : Proc → Proc)

@[simp] theorem modify_proc_self : (k.modify i f).proc i = f (k.proc i) := by
  simp [modify]

theorem modify_proc_of_ne {i j : Slot} (h : j ≠ i) : (k.modify i f).proc j = k.proc j := by
  simp [modify, Function.update_of_ne h]

@[simp] theorem modify_ticks : (k.modify i f).ticks = k.ticks := rfl
@[simp] theorem modify_mlfqSeq : (k.modify i f).mlfqSeq = k.mlfqSeq := rfl
@[simp] theorem modify_cpu : (k.modify i f).cpu = k.cpu := rfl

end Kernel

def mlfqEnqueue (k : Kernel) (i : Slot) : Kernel :=
  { k.modify i (fun p => { p with enqTime := k.mlfqSeq % 2 ^ 64 }) with
    mlfqSeq := k.mlfqSeq + 1 }

/-- The pair of lines `p->state = RUNNABLE` and, under `USE_MLFQ`,
    `mlfq_enqueue(p)`, which `userinit`, `kfork`, `yield`, `wakeup` and `kkill`
    share. -/
def makeRunnable (b : Build) (k : Kernel) (i : Slot) : Kernel :=
  let k := k.modify i (fun p => { p with state := .runnable })
  if b = .mlfq then mlfqEnqueue k i else k

/-- `sched()`: the CPU goes back to its scheduler loop. -/
def sched (k : Kernel) (c : ℕ) : Kernel := { k with cpu := Function.update k.cpu c none }

@[simp] theorem sched_proc (k : Kernel) (c : ℕ) : (sched k c).proc = k.proc := rfl
@[simp] theorem sched_ticks (k : Kernel) (c : ℕ) : (sched k c).ticks = k.ticks := rfl
@[simp] theorem sched_mlfqSeq (k : Kernel) (c : ℕ) : (sched k c).mlfqSeq = k.mlfqSeq := rfl
@[simp] theorem sched_cpu (k : Kernel) (c : ℕ) :
    (sched k c).cpu = Function.update k.cpu c none := rfl

def freeproc (b : Build) (p : Proc) : Proc :=
  let p := { p with pid := 0, parent := none, chan := .null, killed := false, xstate := 0,
                    state := .unused }
  if b = .mlfq then { p with queue := 0, ticksUsed := 0, enqTime := 0 } else p

/-- `allocpid()` and `p->state = USED`: the start of `allocproc`'s section. -/
def takeSlot (k : Kernel) (i : Slot) : Kernel :=
  { k.modify i (fun p => { p with pid := k.nextpid, state := .used }) with
    nextpid := k.nextpid + 1 }

/-- `allocproc()` when both allocations succeed. -/
def allocproc (b : Build) (k : Kernel) (i : Slot) : Kernel :=
  (takeSlot k i).modify i (fun p =>
    let p := { p with ctime := asInt k.ticks, firstRunTime := -1, etime := -1,
                      rtime := 0, wtime := 0 }
    if b = .mlfq then { p with queue := 0, ticksUsed := 0 } else p)

/-- `allocproc()` when an allocation fails: the slot is freed again, but its
    pid has been used up. -/
def allocprocFail (b : Build) (k : Kernel) (i : Slot) : Kernel :=
  (takeSlot k i).modify i (freeproc b)

def kforkFail (b : Build) (k : Kernel) (i : Slot) : Kernel :=
  (allocproc b k i).modify i (freeproc b)

def yieldProc (b : Build) (k : Kernel) (c : ℕ) (i : Slot) : Kernel :=
  sched (makeRunnable b k i) c

def sleepProc (b : Build) (k : Kernel) (c : ℕ) (i : Slot) (chan : Chan) : Kernel :=
  sched (k.modify i (fun p =>
    let p := { p with chan := chan, state := .sleeping }
    if b = .mlfq then { p with ticksUsed := 0 } else p)) c

/-- The body of `wakeup`'s loop at slot `i`; `me` is `myproc()`. -/
def wakeupSlot (b : Build) (chan : Chan) (me : Option Slot) (k : Kernel) (i : Slot) : Kernel :=
  if me ≠ some i ∧ (k.proc i).state = .sleeping ∧ (k.proc i).chan = chan then
    makeRunnable b k i
  else k

/-- The section of `kkill` at the slot whose pid matches. The state is not
    looked at before `killed` is set. -/
def kkillSlot (b : Build) (k : Kernel) (i : Slot) : Kernel :=
  let k := k.modify i (fun p => { p with killed := true })
  if (k.proc i).state = .sleeping then makeRunnable b k i else k

/-- The last section of `kexit(status)`, up to `sched()`. -/
def zombify (k : Kernel) (c : ℕ) (i : Slot) (status : Int) : Kernel :=
  sched (k.modify i (fun p => { p with xstate := status, state := .zombie,
                                       etime := asInt k.ticks })) c

/-- Whether the tick `mlfq_tick` is about to charge uses up the slice. -/
def sliceEnds (p : Proc) : Prop := timeSliceAt p.queue ≤ p.ticksUsed + 1

instance (p : Proc) : Decidable (sliceEnds p) := inferInstanceAs (Decidable (_ ≤ _))

/-- The first section of `mlfq_tick()`: charge the tick, and at the end of the
    slice move down one queue. -/
def chargeTick (p : Proc) : Proc :=
  if sliceEnds p then
    { p with queue := if p.queue < 3 then p.queue + 1 else p.queue, ticksUsed := 0 }
  else { p with ticksUsed := p.ticksUsed + 1 }

@[simp] theorem chargeTick_state (p : Proc) : (chargeTick p).state = p.state := by
  unfold chargeTick
  split <;> rfl

/-- The fields `mlfq_boost` writes. -/
def boostProc (p : Proc) : Proc :=
  if p.state ≠ .unused then { p with queue := 0, ticksUsed := 0 } else p

/-- The body of `mlfq_boost`'s loop. -/
def boostSlot (k : Kernel) (i : Slot) : Kernel := k.modify i boostProc

/-- The fields `update_times` writes. -/
def timesProc (p : Proc) : Proc :=
  if p.state = .running then { p with rtime := p.rtime + 1 }
  else if p.state = .runnable then { p with wtime := p.wtime + 1 }
  else p

/-- The body of `update_times`'s loop. -/
def timesSlot (k : Kernel) (i : Slot) : Kernel := k.modify i timesProc

@[simp] theorem boostProc_state (p : Proc) : (boostProc p).state = p.state := by
  unfold boostProc
  split <;> rfl

@[simp] theorem boostProc_enqTime (p : Proc) : (boostProc p).enqTime = p.enqTime := by
  unfold boostProc
  split <;> rfl

@[simp] theorem boostProc_wtime (p : Proc) : (boostProc p).wtime = p.wtime := by
  unfold boostProc
  split <;> rfl

/-- A live process comes out of the boost in queue 0 with a fresh slice. -/
theorem boostProc_fresh {p : Proc} (h : p.state ≠ .unused) :
    (boostProc p).queue = 0 ∧ (boostProc p).ticksUsed = 0 := by
  simp [boostProc, h]

theorem timesProc_eq (p : Proc) :
    timesProc p = { p with rtime := (timesProc p).rtime, wtime := (timesProc p).wtime } := by
  unfold timesProc
  split
  · rfl
  · split <;> rfl

theorem timesProc_wtime (p : Proc) :
    (timesProc p).wtime = if p.state = .runnable then p.wtime + 1 else p.wtime := by
  unfold timesProc
  by_cases hr : p.state = .running
  · simp [hr]
  · simp only [hr, if_false]
    split <;> rfl

def noteDispatch (ticks : ℕ) (p : Proc) : Proc :=
  if p.firstRunTime = -1 then { p with firstRunTime := asInt ticks } else p

/-- The fields of a process after the scheduler has switched to it. The lock is
    released by the process itself: in `yield`, in `forkret`, or at the end of
    `sleep`, which first clears `p->chan` (null already in the two other cases). -/
def dispatched (ticks : ℕ) (p : Proc) : Proc :=
  { noteDispatch ticks { p with state := .running } with chan := .null }

/-- The scheduler's section that runs the chosen process. -/
def runProc (k : Kernel) (c : ℕ) (i : Slot) : Kernel :=
  { k.modify i (dispatched k.ticks) with cpu := Function.update k.cpu c (some i) }

theorem runProc_proc (k : Kernel) (c : ℕ) (i : Slot) :
    (runProc k c i).proc = (k.modify i (dispatched k.ticks)).proc := rfl

@[simp] theorem dispatched_state (t : ℕ) (p : Proc) : (dispatched t p).state = .running := by
  unfold dispatched noteDispatch
  split <;> rfl

@[simp] theorem dispatched_queue (t : ℕ) (p : Proc) : (dispatched t p).queue = p.queue := by
  unfold dispatched noteDispatch
  split <;> rfl

@[simp] theorem dispatched_enqTime (t : ℕ) (p : Proc) : (dispatched t p).enqTime = p.enqTime := by
  unfold dispatched noteDispatch
  split <;> rfl

@[simp] theorem dispatched_ticksUsed (t : ℕ) (p : Proc) :
    (dispatched t p).ticksUsed = p.ticksUsed := by
  unfold dispatched noteDispatch
  split <;> rfl

/-- A slot of the zeroed `proc[]` array. -/
def zeroProc : Proc where
  state := .unused
  chan := .null
  killed := false
  xstate := 0
  pid := 0
  parent := none
  queue := 0
  enqTime := 0
  ticksUsed := 0
  ctime := 0
  firstRunTime := 0
  etime := 0
  rtime := 0
  wtime := 0

def procinit : Kernel where
  proc := fun _ => zeroProc
  nextpid := 1
  ticks := 0
  mlfqSeq := 0
  cpu := fun _ => none

/-- `initproc`: `userinit` runs on an empty table, so `allocproc` finds slot 0. -/
def initproc : Slot := ⟨0, by decide⟩

def firstChild : Slot := ⟨1, by decide⟩

theorem two_lt_NPROC : 2 < NPROC := by decide

/-- The slot that it finds when `init` forks once more. -/
def secondChild : Slot := ⟨2, two_lt_NPROC⟩

def userinit (b : Build) (k : Kernel) : Kernel :=
  makeRunnable b (allocproc b k initproc) initproc

/-- The kernel when the CPUs enter `scheduler()`. -/
def boot (b : Build) : Kernel := userinit b procinit

end MiniOs.Xv6

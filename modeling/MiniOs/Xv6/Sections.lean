import MiniOs.Lib.Trace
import MiniOs.Xv6.Proc

/-!
# Interleavings of the lock-protected sections

Any number of CPUs run the sections of `proc.c` one after another: each section
runs under the `p->lock` of the slot it writes, so two sections on one slot never
overlap, and sections on different slots do not see each other's half-done work.
The order in which the CPUs get to their sections is free. No program order is
imposed on a CPU, so the runs below contain every run of the real kernel.
-/

namespace MiniOs.Xv6

open Trace

variable {c : ℕ} {i x : Slot}

/-- A lock-protected section; `c` is the CPU that runs it, `i` the slot whose
    lock it holds where that is not the slot of the running process. -/
inductive Section where
  | allocproc (c : ℕ) (i : Slot)
  | allocprocFail (c : ℕ) (i : Slot)
  | kforkFail (c : ℕ) (i : Slot)
  | kforkParent (c : ℕ) (i : Slot)
  | kforkRunnable (c : ℕ) (i : Slot)
  | yield (c : ℕ)
  | sleep (c : ℕ) (chan : Chan)
  | wakeup (c : ℕ) (chan : Chan) (i : Slot)
  | kkill (c : ℕ) (pid : Int) (i : Slot)
  | setkilled (c : ℕ)
  | reparent (c : ℕ) (i : Slot)
  | kexit (c : ℕ) (status : Int)
  | kwait (c : ℕ) (i : Slot)
  | mlfqTick (c : ℕ)
  | mlfqBoost (i : Slot)
  | updateTimes (i : Slot)
  | clock
  | dispatch (c : ℕ) (i : Slot)
  deriving DecidableEq, Repr

/-- The effect of a section, or `none` where the code cannot run it. The scans
    of `allocproc`, `kkill`, `kwait` and `scheduler` release each lock before
    they take the next, so the slot a scan stops at is only known to satisfy
    the test made under its own lock. -/
def sectionStep (b : Build) (k : Kernel) : Section → Option Kernel
  | .allocproc c i =>
    if (k.cpu c).isSome ∧ (k.proc i).state = .unused then some (allocproc b k i) else none
  | .allocprocFail c i =>
    if (k.cpu c).isSome ∧ (k.proc i).state = .unused then some (allocprocFail b k i) else none
  | .kforkFail c i =>
    if (k.cpu c).isSome ∧ (k.proc i).state = .unused then some (kforkFail b k i) else none
  | .kforkParent c i =>
    -- np->parent = p, under wait_lock
    if (k.cpu c).isSome ∧ (k.proc i).state = .used ∧ (k.proc i).parent = none then
      some (k.modify i (fun p => { p with parent := k.cpu c }))
    else none
  | .kforkRunnable c i =>
    if (k.cpu c).isSome ∧ (k.proc i).state = .used ∧ (k.proc i).parent = k.cpu c then
      some (makeRunnable b k i)
    else none
  | .yield c => (k.cpu c).map (yieldProc b k c)
  | .sleep c chan => (k.cpu c).map (fun i => sleepProc b k c i chan)
  | .wakeup c chan i => some (wakeupSlot b chan (k.cpu c) k i)
  | .kkill c pid i =>
    if (k.cpu c).isSome ∧ (k.proc i).pid = pid then some (kkillSlot b k i) else none
  | .setkilled c => (k.cpu c).map (fun i => k.modify i (fun p => { p with killed := true }))
  | .reparent c i =>
    if (k.cpu c).isSome ∧ (k.proc i).parent = k.cpu c then
      some (k.modify i (fun p => { p with parent := some initproc }))
    else none
  | .kexit c status =>
    -- kexit panics when init exits
    (k.cpu c).bind (fun i => if i ≠ initproc then some (zombify k c i status) else none)
  | .kwait c i =>
    if (k.cpu c).isSome ∧ (k.proc i).parent = k.cpu c ∧ (k.proc i).state = .zombie then
      some (k.modify i (freeproc b))
    else none
  | .mlfqTick c =>
    if b = .mlfq then (k.cpu c).map (fun i => k.modify i chargeTick) else none
  | .mlfqBoost i => if b = .mlfq then some (boostSlot k i) else none
  | .updateTimes i => some (timesSlot k i)
  | .clock => some { k with ticks := (k.ticks + 1) % 2 ^ 32 }
  | .dispatch c i =>
    if k.cpu c = none ∧ (k.proc i).state = .runnable then some (runProc k c i) else none

/-- A section that runs. `wakeup` and `kkill` have two outcomes: the slot sleeps and is
    made `RUNNABLE`, or it is not. -/
inductive SectionRuns (b : Build) (k : Kernel) : Section → Kernel → Prop where
  | allocproc {c : ℕ} {i : Slot} (hc : (k.cpu c).isSome) (hu : (k.proc i).state = .unused) :
      SectionRuns b k (.allocproc c i) (allocproc b k i)
  | allocprocFail {c : ℕ} {i : Slot} (hc : (k.cpu c).isSome) (hu : (k.proc i).state = .unused) :
      SectionRuns b k (.allocprocFail c i) (allocprocFail b k i)
  | kforkFail {c : ℕ} {i : Slot} (hc : (k.cpu c).isSome) (hu : (k.proc i).state = .unused) :
      SectionRuns b k (.kforkFail c i) (kforkFail b k i)
  | kforkParent {c : ℕ} {i : Slot} (hg : (k.cpu c).isSome ∧ (k.proc i).state = .used ∧
      (k.proc i).parent = none) :
      SectionRuns b k (.kforkParent c i) (k.modify i (fun p => { p with parent := k.cpu c }))
  | kforkRunnable {c : ℕ} {i : Slot} (hg : (k.cpu c).isSome ∧ (k.proc i).state = .used ∧
      (k.proc i).parent = k.cpu c) : SectionRuns b k (.kforkRunnable c i) (makeRunnable b k i)
  | yield {c : ℕ} {i : Slot} (hc : k.cpu c = some i) :
      SectionRuns b k (.yield c) (yieldProc b k c i)
  | sleep {c : ℕ} {chan : Chan} {i : Slot} (hc : k.cpu c = some i) :
      SectionRuns b k (.sleep c chan) (sleepProc b k c i chan)
  | wakeup {c : ℕ} {chan : Chan} {i : Slot} (hs : k.cpu c ≠ some i ∧
      (k.proc i).state = .sleeping ∧ (k.proc i).chan = chan) :
      SectionRuns b k (.wakeup c chan i) (makeRunnable b k i)
  | wakeupOther {c : ℕ} {chan : Chan} {i : Slot} (hs : ¬ (k.cpu c ≠ some i ∧
      (k.proc i).state = .sleeping ∧ (k.proc i).chan = chan)) :
      SectionRuns b k (.wakeup c chan i) k
  | kkill {c : ℕ} {pid : Int} {i : Slot} (hg : (k.cpu c).isSome ∧ (k.proc i).pid = pid)
      (hs : (k.proc i).state = .sleeping) : SectionRuns b k (.kkill c pid i)
        (makeRunnable b (k.modify i (fun p => { p with killed := true })) i)
  | kkillAwake {c : ℕ} {pid : Int} {i : Slot} (hg : (k.cpu c).isSome ∧ (k.proc i).pid = pid)
      (hs : (k.proc i).state ≠ .sleeping) :
      SectionRuns b k (.kkill c pid i) (k.modify i (fun p => { p with killed := true }))
  | setkilled {c : ℕ} {i : Slot} (hc : k.cpu c = some i) :
      SectionRuns b k (.setkilled c) (k.modify i (fun p => { p with killed := true }))
  | reparent {c : ℕ} {i : Slot} (hc : (k.cpu c).isSome) (hp : (k.proc i).parent = k.cpu c) :
      SectionRuns b k (.reparent c i) (k.modify i (fun p => { p with parent := some initproc }))
  | kexit {c : ℕ} {status : Int} {i : Slot} (hc : k.cpu c = some i) (hi : i ≠ initproc) :
      SectionRuns b k (.kexit c status) (zombify k c i status)
  | kwait {c : ℕ} {i : Slot} (hc : (k.cpu c).isSome) (hp : (k.proc i).parent = k.cpu c)
      (hz : (k.proc i).state = .zombie) : SectionRuns b k (.kwait c i) (k.modify i (freeproc b))
  | mlfqTick {c : ℕ} {i : Slot} (hb : b = .mlfq) (hc : k.cpu c = some i) :
      SectionRuns b k (.mlfqTick c) (k.modify i chargeTick)
  | mlfqBoost {i : Slot} (hb : b = .mlfq) : SectionRuns b k (.mlfqBoost i) (boostSlot k i)
  | updateTimes {i : Slot} : SectionRuns b k (.updateTimes i) (timesSlot k i)
  | clock : SectionRuns b k .clock { k with ticks := (k.ticks + 1) % 2 ^ 32 }
  | dispatch {c : ℕ} {i : Slot} (hc : k.cpu c = none) (hr : (k.proc i).state = .runnable) :
      SectionRuns b k (.dispatch c i) (runProc k c i)

/-- **Inversion of a section**. -/
theorem sectionStep_runs {b : Build} {k k' : Kernel} {e : Section}
    (h : sectionStep b k e = some k') : SectionRuns b k e k' := by
  cases e <;>
    simp only [sectionStep, Option.ite_none_right_eq_some, Option.some.injEq,
      Option.map_eq_some_iff, Option.bind_eq_some_iff] at h
  case allocproc c i =>
    obtain ⟨⟨hc, hu⟩, rfl⟩ := h
    exact .allocproc hc hu
  case allocprocFail c i =>
    obtain ⟨⟨hc, hu⟩, rfl⟩ := h
    exact .allocprocFail hc hu
  case kforkFail c i =>
    obtain ⟨⟨hc, hu⟩, rfl⟩ := h
    exact .kforkFail hc hu
  case kforkParent c i =>
    obtain ⟨hg, rfl⟩ := h
    exact .kforkParent hg
  case kforkRunnable c i =>
    obtain ⟨hg, rfl⟩ := h
    exact .kforkRunnable hg
  case yield c =>
    obtain ⟨i, hc, rfl⟩ := h
    exact .yield hc
  case sleep c chan =>
    obtain ⟨i, hc, rfl⟩ := h
    exact .sleep hc
  case wakeup c chan i =>
    subst h
    unfold wakeupSlot
    split
    · next hs => exact .wakeup hs
    · next hs => exact .wakeupOther hs
  case kkill c pid i =>
    obtain ⟨hg, rfl⟩ := h
    unfold kkillSlot
    simp only [Kernel.modify_proc_self]
    split
    · next hs => exact .kkill hg hs
    · next hs => exact .kkillAwake hg hs
  case setkilled c =>
    obtain ⟨i, hc, rfl⟩ := h
    exact .setkilled hc
  case reparent c i =>
    obtain ⟨⟨hc, hp⟩, rfl⟩ := h
    exact .reparent hc hp
  case kexit c status =>
    obtain ⟨i, hc, hi, rfl⟩ := h
    exact .kexit hc hi
  case kwait c i =>
    obtain ⟨⟨hc, hp, hz⟩, rfl⟩ := h
    exact .kwait hc hp hz
  case mlfqTick c =>
    obtain ⟨hb, i, hc, rfl⟩ := h
    exact .mlfqTick hb hc
  case mlfqBoost i =>
    obtain ⟨hb, rfl⟩ := h
    exact .mlfqBoost hb
  case updateTimes i =>
    subst h
    exact .updateTimes
  case clock =>
    subst h
    exact .clock
  case dispatch c i =>
    obtain ⟨⟨hc, hr⟩, rfl⟩ := h
    exact .dispatch hc hr

/-- Section `e` creates slot `x`, puts it to sleep, boosts it or charges it a
    tick: the sections that write `ticks_used` of a live process. -/
def Touches (k : Kernel) (x : Slot) : Section → Prop
  | .allocproc _ i => i = x
  | .sleep c _ => k.cpu c = some x
  | .mlfqTick c => k.cpu c = some x
  | .mlfqBoost i => i = x ∧ (k.proc i).state ≠ .unused
  | _ => False

/-- Section `e` makes slot `x` `RUNNABLE` and puts it at the end of its queue. -/
def Enqueues (k : Kernel) (x : Slot) : Section → Prop
  | .kforkRunnable _ i => i = x
  | .yield c => k.cpu c = some x
  | .wakeup c chan i =>
    i = x ∧ k.cpu c ≠ some i ∧ (k.proc i).state = .sleeping ∧ (k.proc i).chan = chan
  | .kkill _ _ i => i = x ∧ (k.proc i).state = .sleeping
  | _ => False

/-- The new fields of slot `x` after a section `e` in kernel `k`. The scheduling
    fields are given exactly; `keep` covers the sections that only touch the
    parent, the kill flag or the statistics. -/
inductive SlotChange (b : Build) (k : Kernel) (x : Slot) : Section → Proc → Prop where
  | keep {e : Section} {q : Proc} (hn : ¬ Touches k x e) (hs : q.state = (k.proc x).state)
      (hq : q.queue = (k.proc x).queue) (he : q.enqTime = (k.proc x).enqTime)
      (ht : q.ticksUsed = (k.proc x).ticksUsed) : SlotChange b k x e q
  | create {c : ℕ} {q : Proc} (hu : (k.proc x).state = .unused) (hs : q.state = .used)
      (hq : b = .mlfq → q.queue = 0) (ht : b = .mlfq → q.ticksUsed = 0) :
      SlotChange b k x (.allocproc c x) q
  | abort {e : Section} {q : Proc} (hu : (k.proc x).state = .unused) (hs : q.state = .unused)
      (hq : b = .mlfq → q.queue = 0) (ht : b = .mlfq → q.ticksUsed = 0)
      (he : ∃ c, e = .allocprocFail c x ∨ e = .kforkFail c x) : SlotChange b k x e q
  | enqueue {e : Section} {q : Proc} (hx : Enqueues k x e)
      (hs : (k.proc x).state = .used ∨ (k.proc x).state = .running ∨
        (k.proc x).state = .sleeping)
      (hr : q.state = .runnable) (hq : q.queue = (k.proc x).queue)
      (he : b = .mlfq → q.enqTime = k.mlfqSeq % 2 ^ 64)
      (ht : q.ticksUsed = (k.proc x).ticksUsed) : SlotChange b k x e q
  | sleep {c : ℕ} {chan : Chan} {q : Proc} (hc : k.cpu c = some x) (hs : q.state = .sleeping)
      (hq : q.queue = (k.proc x).queue) (ht : b = .mlfq → q.ticksUsed = 0) :
      SlotChange b k x (.sleep c chan) q
  | exit {c : ℕ} {status : Int} {q : Proc} (hc : k.cpu c = some x) (hs : q.state = .zombie)
      (hq : q.queue = (k.proc x).queue) (ht : q.ticksUsed = (k.proc x).ticksUsed) :
      SlotChange b k x (.kexit c status) q
  | free {c : ℕ} {q : Proc} (hz : (k.proc x).state = .zombie) (hs : q.state = .unused)
      (hq : b = .mlfq → q.queue = 0) (ht : b = .mlfq → q.ticksUsed = 0) :
      SlotChange b k x (.kwait c x) q
  | charge {c : ℕ} (hb : b = .mlfq) (hc : k.cpu c = some x) :
      SlotChange b k x (.mlfqTick c) (chargeTick (k.proc x))
  | boost {q : Proc} (hb : b = .mlfq) (hu : (k.proc x).state ≠ .unused)
      (hs : q.state = (k.proc x).state) (hq : q.queue = 0) (ht : q.ticksUsed = 0)
      (he : q.enqTime = (k.proc x).enqTime) : SlotChange b k x (.mlfqBoost x) q
  | run {c : ℕ} {q : Proc} (hr : (k.proc x).state = .runnable) (hs : q.state = .running)
      (hq : q.queue = (k.proc x).queue) (he : q.enqTime = (k.proc x).enqTime)
      (ht : q.ticksUsed = (k.proc x).ticksUsed) : SlotChange b k x (.dispatch c x) q

variable {b : Build} {k k' : Kernel}

theorem makeRunnable_proc_self (b : Build) (k : Kernel) (i : Slot) :
    (makeRunnable b k i).proc i = { k.proc i with
      state := .runnable
      enqTime := if b = .mlfq then k.mlfqSeq % 2 ^ 64 else (k.proc i).enqTime } := by
  unfold makeRunnable
  by_cases hb : b = .mlfq <;> simp [hb, mlfqEnqueue]

theorem makeRunnable_proc_of_ne (b : Build) (k : Kernel) {j : Slot} (h : j ≠ i) :
    (makeRunnable b k i).proc j = k.proc j := by
  unfold makeRunnable
  by_cases hb : b = .mlfq <;> simp [hb, mlfqEnqueue, Kernel.modify_proc_of_ne _ _ h]

theorem makeRunnable_cpu (b : Build) (k : Kernel) (i : Slot) :
    (makeRunnable b k i).cpu = k.cpu := by
  unfold makeRunnable
  split <;> rfl

theorem makeRunnable_ticks (b : Build) (k : Kernel) (i : Slot) :
    (makeRunnable b k i).ticks = k.ticks := by
  unfold makeRunnable
  split <;> rfl

theorem makeRunnable_mlfqSeq (b : Build) (k : Kernel) (i : Slot) :
    (makeRunnable b k i).mlfqSeq = if b = .mlfq then k.mlfqSeq + 1 else k.mlfqSeq := by
  unfold makeRunnable
  split <;> rfl

theorem slotChange_makeRunnable {e : Section} (he : ∀ x, ¬ Touches k x e) (hi : Enqueues k i e)
    (hs : (k.proc i).state = .used ∨ (k.proc i).state = .running ∨ (k.proc i).state = .sleeping)
    (x : Slot) : SlotChange b k x e ((makeRunnable b k i).proc x) := by
  by_cases hx : x = i
  · subst hx
    rw [makeRunnable_proc_self]
    exact .enqueue hi hs rfl rfl (fun hb => if_pos hb) rfl
  · rw [makeRunnable_proc_of_ne b k hx]
    exact .keep (he x) rfl rfl rfl rfl

/-- A section that writes only slot `i`, seen from any slot. -/
theorem slotChange_modify {e : Section} {f : Proc → Proc} (he : ∀ x, x ≠ i → ¬ Touches k x e)
    (h : SlotChange b k i e (f (k.proc i))) (x : Slot) :
    SlotChange b k x e ((k.modify i f).proc x) := by
  by_cases hx : x = i
  · subst hx
    rw [Kernel.modify_proc_self]
    exact h
  · rw [Kernel.modify_proc_of_ne k f hx]
    exact .keep (he x hx) rfl rfl rfl rfl

theorem takeSlot_proc_self (k : Kernel) (i : Slot) :
    (takeSlot k i).proc i = { k.proc i with pid := k.nextpid, state := .used } := by
  simp [takeSlot]

theorem takeSlot_proc_of_ne (k : Kernel) {j : Slot} (h : j ≠ i) :
    (takeSlot k i).proc j = k.proc j := by
  simp [takeSlot, Kernel.modify_proc_of_ne _ _ h]

theorem allocproc_proc_of_ne (b : Build) (k : Kernel) {j : Slot} (h : j ≠ i) :
    (allocproc b k i).proc j = k.proc j := by
  rw [allocproc, Kernel.modify_proc_of_ne _ _ h, takeSlot_proc_of_ne k h]

theorem freeproc_state (b : Build) (p : Proc) : (freeproc b p).state = .unused := by
  unfold freeproc
  split <;> rfl

theorem freeproc_queue (p : Proc) : (freeproc .mlfq p).queue = 0 := rfl

theorem freeproc_ticksUsed (p : Proc) : (freeproc .mlfq p).ticksUsed = 0 := rfl

theorem slotChange_allocproc (hu : (k.proc i).state = .unused) (x : Slot) :
    SlotChange b k x (.allocproc c i) ((allocproc b k i).proc x) := by
  by_cases hx : x = i
  · subst hx
    simp only [allocproc, Kernel.modify_proc_self, takeSlot_proc_self]
    refine .create hu ?_ ?_ ?_
    · split <;> rfl
    · intro hb
      simp [hb]
    · intro hb
      simp [hb]
  · rw [allocproc_proc_of_ne b k hx]
    exact .keep (Ne.symm hx) rfl rfl rfl rfl

theorem slotChange_freeproc {e : Section} {q : Proc} (hu : (k.proc i).state = .unused)
    (he : ∃ c, e = .allocprocFail c i ∨ e = .kforkFail c i) :
    SlotChange b k i e (freeproc b q) := by
  refine .abort hu (freeproc_state b q) ?_ ?_ he
  · rintro rfl
    exact freeproc_queue q
  · rintro rfl
    exact freeproc_ticksUsed q

theorem slotChange_allocprocFail (hu : (k.proc i).state = .unused) (x : Slot) :
    SlotChange b k x (.allocprocFail c i) ((allocprocFail b k i).proc x) := by
  by_cases hx : x = i
  · subst hx
    rw [allocprocFail, Kernel.modify_proc_self]
    exact slotChange_freeproc hu ⟨c, Or.inl rfl⟩
  · rw [allocprocFail, Kernel.modify_proc_of_ne _ _ hx, takeSlot_proc_of_ne k hx]
    exact .keep id rfl rfl rfl rfl

theorem slotChange_kforkFail (hu : (k.proc i).state = .unused) (x : Slot) :
    SlotChange b k x (.kforkFail c i) ((kforkFail b k i).proc x) := by
  by_cases hx : x = i
  · subst hx
    rw [kforkFail, Kernel.modify_proc_self]
    exact slotChange_freeproc hu ⟨c, Or.inr rfl⟩
  · rw [kforkFail, Kernel.modify_proc_of_ne _ _ hx, allocproc_proc_of_ne b k hx]
    exact .keep id rfl rfl rfl rfl

theorem slotChange_kkill {pid : Int} (hs : (k.proc i).state = .sleeping) (x : Slot) :
    SlotChange b k x (.kkill c pid i)
      ((makeRunnable b (k.modify i (fun p => { p with killed := true })) i).proc x) := by
  by_cases hx : x = i
  · subst hx
    rw [makeRunnable_proc_self, Kernel.modify_proc_self]
    exact .enqueue ⟨rfl, hs⟩ (Or.inr (Or.inr hs)) rfl rfl (fun hb => if_pos hb) rfl
  · rw [makeRunnable_proc_of_ne _ _ hx, Kernel.modify_proc_of_ne _ _ hx]
    exact .keep id rfl rfl rfl rfl

/-- A slot is `RUNNING` exactly while one CPU has it as its current process. -/
structure CpuInv (k : Kernel) : Prop where
  running_of_cpu : ∀ c i, k.cpu c = some i → (k.proc i).state = .running
  cpu_of_running : ∀ i, (k.proc i).state = .running → ∃ c, k.cpu c = some i
  cpu_unique : ∀ c d i, k.cpu c = some i → k.cpu d = some i → c = d

theorem not_cpu_of_ne (hc : k.cpu c = some i) (x : Slot) (hx : x ≠ i) :
    ¬ k.cpu c = some x := by
  rw [hc]
  exact fun h => hx (Option.some.inj h).symm

theorem slotChange_sleep {chan : Chan} (hc : k.cpu c = some i) (x : Slot) :
    SlotChange b k x (.sleep c chan) ((sleepProc b k c i chan).proc x) := by
  rw [sleepProc, sched_proc]
  refine slotChange_modify (not_cpu_of_ne hc) (.sleep hc ?_ ?_ ?_) x
  · split <;> rfl
  · split <;> rfl
  · intro hb
    simp [hb]

theorem slotChange_kwait (hz : (k.proc i).state = .zombie) (x : Slot) :
    SlotChange b k x (.kwait c i) ((k.modify i (freeproc b)).proc x) := by
  refine slotChange_modify (fun _ _ => id) (.free hz (freeproc_state b _) ?_ ?_) x
  · rintro rfl
    exact freeproc_queue _
  · rintro rfl
    exact freeproc_ticksUsed _

theorem slotChange_mlfqBoost (hb : b = .mlfq) (x : Slot) :
    SlotChange b k x (.mlfqBoost i) ((boostSlot k i).proc x) := by
  have hother : ∀ y, y ≠ i → ¬ Touches k y (.mlfqBoost i) := fun y hy h => hy h.1.symm
  refine slotChange_modify hother ?_ x
  by_cases hu : (k.proc i).state = .unused
  · simp only [boostProc, hu, ne_eq, not_true_eq_false, if_false]
    exact .keep (fun h => h.2 hu) rfl rfl rfl rfl
  · obtain ⟨hq, ht⟩ := boostProc_fresh hu
    exact .boost hb hu (boostProc_state _) hq ht (boostProc_enqTime _)

/-- **Inversion** as slot `x` sees it, one case for each kind of effect. -/
theorem sectionStep_slotChange {e : Section} (hk : CpuInv k) (h : sectionStep b k e = some k')
    (x : Slot) : SlotChange b k x e (k'.proc x) := by
  cases sectionStep_runs h with
  | allocproc hc hu => exact slotChange_allocproc hu x
  | allocprocFail hc hu => exact slotChange_allocprocFail hu x
  | kforkFail hc hu => exact slotChange_kforkFail hu x
  | @kforkRunnable c i hg =>
    have hen : Enqueues k i (.kforkRunnable c i) := rfl
    exact slotChange_makeRunnable (fun _ => id) hen (Or.inl hg.2.1) x
  | @yield c i hc =>
    have hen : Enqueues k i (.yield c) := hc
    exact slotChange_makeRunnable (fun _ => id) hen (Or.inr (Or.inl (hk.running_of_cpu c i hc))) x
  | sleep hc => exact slotChange_sleep hc x
  | @wakeup c chan i hs =>
    have hen : Enqueues k i (.wakeup c chan i) := ⟨rfl, hs⟩
    exact slotChange_makeRunnable (fun _ => id) hen (Or.inr (Or.inr hs.2.1)) x
  | wakeupOther hs => exact .keep id rfl rfl rfl rfl
  | kkill hg hs => exact slotChange_kkill hs x
  | kexit hc hi =>
    rw [zombify, sched_proc]
    exact slotChange_modify (fun _ _ => id) (.exit hc rfl rfl rfl) x
  | kwait hc hp hz => exact slotChange_kwait hz x
  | mlfqTick hb hc => exact slotChange_modify (not_cpu_of_ne hc) (.charge hb hc) x
  | mlfqBoost hb => exact slotChange_mlfqBoost hb x
  | updateTimes =>
    refine slotChange_modify (fun _ _ => id) ?_ x
    rw [timesProc_eq]
    exact .keep id rfl rfl rfl rfl
  | clock => exact .keep id rfl rfl rfl rfl
  | dispatch hc hr =>
    rw [runProc_proc]
    exact slotChange_modify (fun _ _ => id) (.run hr (dispatched_state _ _) (dispatched_queue _ _)
      (dispatched_enqTime _ _) (dispatched_ticksUsed _ _)) x
  -- the parent or the kill flag is written
  | _ => exact slotChange_modify (fun _ _ => id) (.keep id rfl rfl rfl rfl) x

/-- A section that neither starts nor stops a process keeps `CpuInv`. -/
theorem CpuInv.of_same (hk : CpuInv k) (hc : k'.cpu = k.cpu)
    (hs : ∀ x, (k'.proc x).state = .running ↔ (k.proc x).state = .running) : CpuInv k' where
  running_of_cpu c i h := by
    rw [hc] at h
    exact (hs i).mpr (hk.running_of_cpu c i h)
  cpu_of_running i h := by
    rw [hc]
    exact hk.cpu_of_running i ((hs i).mp h)
  cpu_unique c d i h h' := by
    rw [hc] at h h'
    exact hk.cpu_unique c d i h h'

theorem CpuInv.modify (hk : CpuInv k) {f : Proc → Proc}
    (hf : (f (k.proc i)).state = .running ↔ (k.proc i).state = .running) :
    CpuInv (k.modify i f) := by
  refine hk.of_same rfl (fun x => ?_)
  by_cases hx : x = i
  · subst hx
    rw [Kernel.modify_proc_self]
    exact hf
  · rw [Kernel.modify_proc_of_ne k f hx]

theorem CpuInv.makeRunnable (hk : CpuInv k) (hi : (k.proc i).state ≠ .running) :
    CpuInv (makeRunnable b k i) := by
  refine hk.of_same (makeRunnable_cpu b k i) (fun x => ?_)
  by_cases hx : x = i
  · subst hx
    rw [makeRunnable_proc_self]
    simp [hi]
  · rw [makeRunnable_proc_of_ne b k hx]

theorem CpuInv.leave (hk : CpuInv k) (hci : k.cpu c = some i)
    (hc : k'.cpu = Function.update k.cpu c none) (hi : (k'.proc i).state ≠ .running)
    (ho : ∀ x, x ≠ i → k'.proc x = k.proc x) : CpuInv k' := by
  -- no other CPU runs `i`
  have hne : ∀ d x, k'.cpu d = some x → d ≠ c ∧ k.cpu d = some x ∧ x ≠ i := by
    intro d x hd
    by_cases hdc : d = c
    · subst hdc
      simp [hc] at hd
    · rw [hc, Function.update_of_ne hdc] at hd
      refine ⟨hdc, hd, ?_⟩
      rintro rfl
      exact hdc (hk.cpu_unique d c x hd hci)
  refine ⟨?_, ?_, ?_⟩
  · intro d x hd
    obtain ⟨-, hd, hxi⟩ := hne d x hd
    rw [ho x hxi]
    exact hk.running_of_cpu d x hd
  · intro x hx
    have hxi : x ≠ i := by
      rintro rfl
      exact hi hx
    rw [ho x hxi] at hx
    obtain ⟨d, hd⟩ := hk.cpu_of_running x hx
    have hdc : d ≠ c := by
      rintro rfl
      rw [hci] at hd
      exact hxi (Option.some.inj hd).symm
    exact ⟨d, by rw [hc, Function.update_of_ne hdc]; exact hd⟩
  · intro d d' x hd hd'
    exact hk.cpu_unique d d' x (hne d x hd).2.1 (hne d' x hd').2.1

theorem CpuInv.enter (hk : CpuInv k) (hci : k.cpu c = none) (hr : (k.proc i).state = .runnable)
    (hc : k'.cpu = Function.update k.cpu c (some i)) (hi : (k'.proc i).state = .running)
    (ho : ∀ x, x ≠ i → k'.proc x = k.proc x) :
    CpuInv k' := by
  have hni : ∀ d, k.cpu d ≠ some i := by
    intro d hd
    have := hk.running_of_cpu d i hd
    rw [hr] at this
    cases this
  have hcases : ∀ d x, k'.cpu d = some x → (d = c ∧ x = i) ∨ (k.cpu d = some x ∧ x ≠ i) := by
    intro d x hd
    by_cases hdc : d = c
    · subst hdc
      rw [hc, Function.update_self] at hd
      exact Or.inl ⟨rfl, (Option.some.inj hd).symm⟩
    · rw [hc, Function.update_of_ne hdc] at hd
      refine Or.inr ⟨hd, ?_⟩
      rintro rfl
      exact hni d hd
  refine ⟨?_, ?_, ?_⟩
  · intro d x hd
    obtain ⟨-, rfl⟩ | ⟨hd, hxi⟩ := hcases d x hd
    · exact hi
    · rw [ho x hxi]
      exact hk.running_of_cpu d x hd
  · intro x hx
    by_cases hxi : x = i
    · subst hxi
      exact ⟨c, by rw [hc, Function.update_self]⟩
    · rw [ho x hxi] at hx
      obtain ⟨d, hd⟩ := hk.cpu_of_running x hx
      have hdc : d ≠ c := by
        rintro rfl
        rw [hci] at hd
        cases hd
      exact ⟨d, by rw [hc, Function.update_of_ne hdc]; exact hd⟩
  · intro d d' x hd hd'
    obtain ⟨rfl, rfl⟩ | ⟨hd, hxi⟩ := hcases d x hd
    · obtain ⟨rfl, -⟩ | ⟨-, hne⟩ := hcases d' x hd'
      · rfl
      · exact absurd rfl hne
    · obtain ⟨-, hxi'⟩ | ⟨hd', -⟩ := hcases d' x hd'
      · exact absurd hxi' hxi
      · exact hk.cpu_unique d d' x hd hd'

theorem CpuInv.takeSlot (hk : CpuInv k) (hu : (k.proc i).state = .unused) :
    CpuInv (takeSlot k i) := by
  refine hk.of_same rfl (fun x => ?_)
  by_cases hx : x = i
  · subst hx
    simp [takeSlot_proc_self, hu]
  · rw [takeSlot_proc_of_ne k hx]

theorem CpuInv.allocproc (hk : CpuInv k) (hu : (k.proc i).state = .unused) :
    CpuInv (allocproc b k i) := by
  refine (hk.takeSlot hu).modify ?_
  dsimp only
  split <;> rfl

theorem CpuInv.free (hk : CpuInv k) (hi : (k.proc i).state ≠ .running) :
    CpuInv (k.modify i (freeproc b)) := by
  refine hk.modify ?_
  simp [freeproc_state, hi]

theorem sectionStep_cpuInv {e : Section} (hk : CpuInv k) (h : sectionStep b k e = some k') :
    CpuInv k' := by
  cases sectionStep_runs h with
  | allocproc hc hu => exact hk.allocproc hu
  | allocprocFail hc hu => exact (hk.takeSlot hu).free (by simp [takeSlot_proc_self])
  | kforkFail hc hu =>
    refine (hk.allocproc hu).free ?_
    simp only [Xv6.allocproc, Kernel.modify_proc_self, takeSlot_proc_self]
    split <;> simp
  | kforkRunnable hg => exact hk.makeRunnable (by simp [hg])
  | yield hc =>
    refine hk.leave hc ?_ ?_ ?_
    · rw [yieldProc, sched_cpu, makeRunnable_cpu]
    · simp [yieldProc, makeRunnable_proc_self]
    · intro x hx
      rw [yieldProc, sched_proc, makeRunnable_proc_of_ne b k hx]
  | sleep hc =>
    refine hk.leave hc rfl ?_ ?_
    · simp only [sleepProc, sched_proc, Kernel.modify_proc_self]
      split <;> simp
    · intro x hx
      rw [sleepProc, sched_proc, Kernel.modify_proc_of_ne _ _ hx]
  | wakeup hs => exact hk.makeRunnable (by simp [hs.2.1])
  | wakeupOther hs => exact hk
  | @kkill c pid i hg hs =>
    have hm : CpuInv (k.modify i (fun p => { p with killed := true })) := hk.modify Iff.rfl
    exact hm.makeRunnable (by simp [hs])
  | kexit hc hi =>
    refine hk.leave hc rfl ?_ ?_
    · simp [zombify]
    · intro x hx
      rw [zombify, sched_proc, Kernel.modify_proc_of_ne _ _ hx]
  | kwait hc hp hz => exact hk.free (by simp [hz])
  | mlfqTick hb hc => exact hk.modify (by rw [chargeTick_state])
  | mlfqBoost hb => exact hk.modify (by rw [boostProc_state])
  | updateTimes => exact hk.modify (by rw [timesProc_eq])
  | clock => exact hk.of_same rfl (fun _ => Iff.rfl)
  | dispatch hc hr =>
    refine hk.enter hc hr rfl ?_ ?_
    · rw [runProc_proc, Kernel.modify_proc_self, dispatched_state]
    · intro x hx
      rw [runProc_proc, Kernel.modify_proc_of_ne _ _ hx]
  | _ => exact hk.modify Iff.rfl

theorem boot_proc_of_ne (b : Build) (hx : x ≠ initproc) :
    (boot b).proc x = zeroProc := by
  rw [boot, userinit, makeRunnable_proc_of_ne _ _ hx, allocproc_proc_of_ne b procinit hx]
  rfl

theorem boot_cpuInv (b : Build) : CpuInv (boot b) := by
  have hinit : CpuInv procinit := by
    refine ⟨?_, ?_, ?_⟩
    · intro c i h
      cases h
    · intro i h
      cases h
    · intro c d i h
      cases h
  refine CpuInv.makeRunnable (hinit.allocproc rfl) ?_
  simp only [Xv6.allocproc, Kernel.modify_proc_self, takeSlot_proc_self]
  split <;> simp

theorem exec_cpuInv {es : List Section} (hk : CpuInv k)
    (h : exec (sectionStep b) k es = some k') : CpuInv k' :=
  exec_invariant (fun _ _ _ hk h => sectionStep_cpuInv hk h) hk h

theorem Enqueues.not_touches {e : Section} {y : Slot} (h : Enqueues k x e) :
    ¬ Touches k y e := by
  cases e <;> simp_all [Enqueues, Touches]

theorem Enqueues.unique {e : Section} {y : Slot} (hx : Enqueues k x e) (hy : Enqueues k y e) :
    x = y := by
  cases e <;> simp_all [Enqueues]

theorem sectionStep_mlfqSeq_le {e : Section} (h : sectionStep b k e = some k') :
    k.mlfqSeq ≤ k'.mlfqSeq := by
  have hrun : ∀ (k₁ : Kernel) (i : Slot), k₁.mlfqSeq ≤ (makeRunnable b k₁ i).mlfqSeq := by
    intro k₁ i
    rw [makeRunnable_mlfqSeq]
    split <;> omega
  cases sectionStep_runs h with
  | @kforkRunnable c i hg => exact hrun k i
  | @yield c i hc => exact hrun k i
  | @wakeup c chan i hs => exact hrun k i
  | @kkill c pid i hg hs => exact hrun (k.modify i _) i
  | _ => exact Nat.le_refl _

theorem Enqueues.mlfqSeq {e : Section} (hx : Enqueues k x e) (h : sectionStep .mlfq k e = some k') :
    k'.mlfqSeq = k.mlfqSeq + 1 := by
  cases sectionStep_runs h with
  | kforkRunnable hg => rw [makeRunnable_mlfqSeq, if_pos rfl]
  | yield hc => rw [yieldProc, sched_mlfqSeq, makeRunnable_mlfqSeq, if_pos rfl]
  | wakeup hs => rw [makeRunnable_mlfqSeq, if_pos rfl]
  | wakeupOther hs => exact absurd hx.2 hs
  | kkill hg hs => rw [makeRunnable_mlfqSeq, if_pos rfl, Kernel.modify_mlfqSeq]
  | kkillAwake hg hs => exact absurd hx.2 hs
  | _ => cases hx

end MiniOs.Xv6

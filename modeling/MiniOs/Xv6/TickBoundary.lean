import MiniOs.Xv6.SliceAccounting
import MiniOs.Xv6.Uniprocessor

/-!
# Tick boundaries under MLFQ

A timer interrupt first runs `clockintr`, which may wake sleepers and boost, and
then `mlfq_tick` for the process it interrupted. Two promises are checked here
against that order: that a boost gives every process a fresh queue-0 slice, and
that the process that runs after a tick is never below a waiting one.

A killed process that is interrupted in user mode never gets to `mlfq_tick`:
`usertrap` sends it to `kexit` first.
-/

namespace MiniOs.Xv6

open Trace

variable {k k' : Kernel} {i x : Slot}

theorem higherWaiting_iff {q : ℕ} : higherWaiting k i q = true ↔
    ∃ j, j ≠ i ∧ Waiting k j ∧ (k.proc j).queue < q := by
  simp only [higherWaiting, List.any_eq_true, decide_eq_true_eq]
  constructor
  · rintro ⟨j, -, hj⟩
    exact ⟨j, hj⟩
  · rintro ⟨j, hj⟩
    exact ⟨j, mem_slots j, hj⟩

/-- The two outcomes of `mlfq_tick`: the process gives up the CPU at the end of
    its slice or to a process in a higher queue, or it keeps the CPU. -/
theorem mlfqTick_cases (k : Kernel) (i : Slot) :
    ((sliceEnds (k.proc i) ∨ ∃ j, Waiting k j ∧ (k.proc j).queue < (k.proc i).queue) ∧
      mlfqTick k i = yieldProc .mlfq (k.modify i chargeTick) 0 i) ∨
    ((∀ j, j ≠ i → Waiting k j → (k.proc i).queue ≤ (k.proc j).queue) ∧
      ¬ sliceEnds (k.proc i) ∧ mlfqTick k i = k.modify i chargeTick) := by
  by_cases hend : sliceEnds (k.proc i)
  · exact Or.inl ⟨Or.inl hend, if_pos hend⟩
  · have hqueue : ((k.modify i chargeTick).proc i).queue = (k.proc i).queue := by
      rw [Kernel.modify_proc_self]
      exact (chargeTick_of_not_sliceEnds hend).2
    have hother : ∀ j, j ≠ i → (k.modify i chargeTick).proc j = k.proc j :=
      fun j hj => k.modify_proc_of_ne chargeTick hj
    have htick : mlfqTick k i =
        if higherWaiting (k.modify i chargeTick) i (k.proc i).queue then
          yieldProc .mlfq (k.modify i chargeTick) 0 i
        else k.modify i chargeTick := by
      rw [mlfqTick, if_neg hend, hqueue]
    by_cases hhigh : higherWaiting (k.modify i chargeTick) i (k.proc i).queue = true
    · obtain ⟨j, hj, hw, hlt⟩ := higherWaiting_iff.mp hhigh
      rw [Waiting, hother j hj] at hw
      rw [hother j hj] at hlt
      exact Or.inl ⟨Or.inr ⟨j, hw, hlt⟩, htick.trans (if_pos hhigh)⟩
    · refine Or.inr ⟨?_, hend, htick.trans (if_neg hhigh)⟩
      intro j hj hw
      by_contra hlt
      refine hhigh (higherWaiting_iff.mpr ⟨j, hj, ?_, ?_⟩)
      · rw [Waiting, hother j hj]
        exact hw
      · rw [hother j hj]
        omega

/-- A process that `mlfq_tick` preempts is at the end of the queue it was charged
    to, and the CPU is free. -/
theorem preempted (k : Kernel) (i : Slot) :
    ((yieldProc .mlfq (k.modify i chargeTick) 0 i).proc i).state = .runnable ∧
    ((yieldProc .mlfq (k.modify i chargeTick) 0 i).proc i).queue =
      (chargeTick (k.proc i)).queue ∧
    (yieldProc .mlfq (k.modify i chargeTick) 0 i).cpu 0 = none := by
  rw [yieldProc, sched_proc, makeRunnable_proc_self, Kernel.modify_proc_self, sched_cpu,
    Function.update_self]
  exact ⟨rfl, rfl, rfl⟩

theorem timerTrap_idle {b : Build} {user : Bool} (hc : k.cpu 0 = none) :
    timerTrap b k user = clockintr b k := by
  simp only [timerTrap, hc]

theorem timerTrap_exits {b : Build} {user : Bool} (hc : k.cpu 0 = some i)
    (hx : exitsInstead k user i) : timerTrap b k user = clockintr b k := by
  simp only [timerTrap, hc, if_pos hx]

theorem timerTrap_ticked {user : Bool} (hc : k.cpu 0 = some i)
    (hx : ¬ exitsInstead k user i) :
    timerTrap .mlfq k user = mlfqTick (clockintr .mlfq k) i := by
  simp only [timerTrap, hc, if_neg hx, tickProc, if_true]

/-- Every live process is at the start of a queue-0 slice. -/
def AllFresh (k : Kernel) : Prop :=
  ∀ x, (k.proc x).state ≠ .unused → (k.proc x).queue = 0 ∧ (k.proc x).ticksUsed = 0

theorem clockintr_allFresh (hboost : (k.ticks + 1) % 2 ^ 32 % 48 = 0) :
    AllFresh (clockintr .mlfq k) := by
  intro x hx
  obtain ⟨hstate, hqueue, hticks⟩ := clockintr_proc .mlfq k x
  rw [hstate] at hx
  rw [hqueue, hticks]
  exact boostPoint_fresh hboost hx

theorem sliceEnds_of_fresh {p : Proc} (hq : p.queue = 0) (ht : p.ticksUsed = 0) :
    sliceEnds p := by
  rw [sliceEnds, hq, ht]
  decide

/-- The interrupted process leaves a boosting interrupt in queue 1. -/
theorem queue_after_boost_tick {p : Proc} (hq : p.queue = 0) (ht : p.ticksUsed = 0) :
    (chargeTick p).queue = 1 := by
  rw [(chargeTick_of_sliceEnds (sliceEnds_of_fresh hq ht)).2, hq]
  rfl

/-- **Completeness of the boost**: after a timer interrupt that boosts, every live
    process has a fresh queue-0 slice exactly when no process is charged a tick
    after the boost: the CPU was idle, or the interrupted process was in user mode
    and had been killed. -/
theorem boost_complete_iff (hist : List Event) (k k' : Kernel) (user : Bool)
    (hk : exec (step .mlfq) (boot .mlfq) hist = some k)
    (hk' : step .mlfq k (.timer user) = some k') (hboost : k'.ticks % 48 = 0) :
    AllFresh k' ↔ ∀ i, k.cpu 0 = some i → user = true ∧ (k.proc i).killed = true := by
  simp only [step, Option.ite_none_right_eq_some, Option.some.injEq] at hk'
  obtain ⟨-, rfl⟩ := hk'
  rw [timerTrap_ticks] at hboost
  have hfresh := clockintr_allFresh hboost
  constructor
  · intro hall i hc
    by_contra hx
    have hcpu : CpuInv (clockintr .mlfq k) :=
      clockintr_cpuInv (exec_step_cpuInv (boot_cpuInv .mlfq) hk)
    have hrun : ((clockintr .mlfq k).proc i).state = .running :=
      hcpu.running_of_cpu 0 i (by rw [clockintr_cpu, hc])
    obtain ⟨hq, ht⟩ := hfresh i (by rw [hrun]; decide)
    rw [timerTrap_ticked hc hx] at hall
    rcases mlfqTick_cases (clockintr .mlfq k) i with ⟨-, hyield⟩ | ⟨-, hno, -⟩
    · obtain ⟨hstate, hqueue, -⟩ := preempted (clockintr .mlfq k) i
      rw [hyield] at hall
      have hzero := (hall i (by rw [hstate]; decide)).1
      rw [hqueue, queue_after_boost_tick hq ht] at hzero
      cases hzero
    · exact hno (sliceEnds_of_fresh hq ht)
  · intro hall
    cases hc : k.cpu 0 with
    | none =>
      rw [timerTrap_idle hc]
      exact hfresh
    | some i =>
      rw [timerTrap_exits hc (hall i hc)]
      exact hfresh

/-- `init`, interrupted by the 48th tick, is demoted although all were boosted. -/
theorem boost_incomplete :
    ∃ hist k k', exec (step .mlfq) (boot .mlfq) hist = some k ∧
      step .mlfq k (.timer true) = some k' ∧ k'.ticks % 48 = 0 ∧
      (k.proc initproc).state = .running ∧ (k'.proc initproc).state ≠ .unused ∧
      (k'.proc initproc).queue = 1 := by
  have hrun : ∃ k ∈ step .mlfq (idleBoot 47) (.dispatch initproc),
      ∃ k' ∈ step .mlfq k (.timer true), k'.ticks % 48 = 0 ∧
      (k.proc initproc).state = .running ∧ (k'.proc initproc).state ≠ .unused ∧
      (k'.proc initproc).queue = 1 := by
    decide +kernel
  obtain ⟨k, hk, k', hk', hafter⟩ := hrun
  have hidle := exec_idleBoot (n := 47) (by decide)
  exact ⟨_, k, k', exec_concat_eq_some.mpr ⟨_, hidle, hk⟩, hk', hafter⟩

/-- A boost that finds the CPU idle is complete. -/
theorem boost_complete_idle :
    ∃ hist k k', exec (step .mlfq) (boot .mlfq) hist = some k ∧
      step .mlfq k (.timer false) = some k' ∧ k'.ticks = 48 ∧ AllFresh k' := by
  have hidle := exec_idleBoot (n := 47) (by decide)
  have hstep := step_idleBoot (n := 47) (by decide)
  refine ⟨_, idleBoot 47, idleBoot 48, hidle, hstep, rfl, ?_⟩
  refine (boost_complete_iff _ _ _ false hidle hstep (by decide)).mpr (fun i hc => ?_)
  cases hc

/-- The process `mlfq_tick` leaves on the CPU is in no lower queue than a waiting
    one. -/
theorem queue_le_of_kept {c j : Slot} (hk : CpuInv k) (hi : k.cpu 0 = some i)
    (hc : (mlfqTick k i).cpu 0 = some c) (hj : Waiting (mlfqTick k i) j) :
    ((mlfqTick k i).proc c).queue ≤ ((mlfqTick k i).proc j).queue := by
  rcases mlfqTick_cases k i with ⟨-, hyield⟩ | ⟨hhigh, hend, hkeep⟩
  · rw [hyield, (preempted k i).2.2] at hc
    cases hc
  · rw [hkeep] at hc hj ⊢
    rw [Kernel.modify_cpu, hi] at hc
    cases hc
    have hji : j ≠ i := by
      rintro rfl
      rw [Waiting, Kernel.modify_proc_self, chargeTick_state, hk.running_of_cpu 0 j hi] at hj
      cases hj
    rw [Waiting, Kernel.modify_proc_of_ne k _ hji] at hj
    rw [Kernel.modify_proc_self, (chargeTick_of_not_sliceEnds hend).2,
      Kernel.modify_proc_of_ne k _ hji]
    exact hhigh j hji hj

/-- A process that has just been dispatched is in no lower queue than a waiting
    one. -/
theorem queue_le_of_dispatch {c j : Slot} (h : step .mlfq k (.dispatch c) = some k')
    (hj : Waiting k' j) : (k'.proc c).queue ≤ (k'.proc j).queue := by
  obtain ⟨hscan, rfl⟩ := mlfqScan_of_dispatch h
  have hjc : j ≠ c := by
    rintro rfl
    exact not_waiting_runProc k 0 j hj
  rw [Waiting, runProc_proc, Kernel.modify_proc_of_ne k _ hjc] at hj
  rw [runProc_proc, Kernel.modify_proc_self, dispatched_queue, Kernel.modify_proc_of_ne k _ hjc]
  have hplace := place_le_place.mp (place_le_of_mlfqScan hscan hj)
  omega

/-- **Strict priority at tick boundaries.** A dispatch picks a `RUNNABLE` process
    that is first by queue and stamp, and there is one whenever any process is
    `RUNNABLE`. After a timer interrupt has been handled, unless it was taken in
    user mode by a process that had been killed and now exits, the process on the
    CPU, or the next one dispatched, is in no lower queue than any `RUNNABLE`
    process, and the interrupted process has lost the CPU only at the end of its
    slice or to a process in a higher queue. -/
theorem mlfq_strict_priority (hist : List Event) (k : Kernel)
    (hk : exec (step .mlfq) (boot .mlfq) hist = some k) :
    (∀ i k', step .mlfq k (.dispatch i) = some k' →
      Waiting k i ∧ ∀ j, Waiting k j → place k i ≤ place k j) ∧
    (k.cpu 0 = none → ∀ j, Waiting k j → ∃ i k', step .mlfq k (.dispatch i) = some k') ∧
    ∀ user i k', k.cpu 0 = some i → ¬ (user = true ∧ (k.proc i).killed = true) →
      step .mlfq k (.timer user) = some k' →
      (∀ c, k'.cpu 0 = some c → ∀ j, Waiting k' j → (k'.proc c).queue ≤ (k'.proc j).queue) ∧
      (∀ es m c m', exec (step .mlfq) k' es = some m → step .mlfq m (.dispatch c) = some m' →
        ∀ j, Waiting m' j → (m'.proc c).queue ≤ (m'.proc j).queue) ∧
      (k'.cpu 0 ≠ some i → sliceEnds ((clockintr .mlfq k).proc i) ∨
        ∃ j, Waiting (clockintr .mlfq k) j ∧
          ((clockintr .mlfq k).proc j).queue < ((clockintr .mlfq k).proc i).queue) := by
  refine ⟨?_, ?_, ?_⟩
  · intro i k' hdisp
    have hscan := (mlfqScan_of_dispatch hdisp).1
    exact ⟨waiting_of_mlfqScan hscan, fun j hj => place_le_of_mlfqScan hscan hj⟩
  · intro hidle j hj
    obtain ⟨i, hscan⟩ := exists_mlfqScan hj
    exact ⟨i, runProc k 0 i, if_pos ⟨hidle, waiting_of_mlfqScan hscan, hscan⟩⟩
  · intro user i k' hc hx hk'
    simp only [step, Option.ite_none_right_eq_some, Option.some.injEq] at hk'
    obtain ⟨-, rfl⟩ := hk'
    have hcpu : CpuInv (clockintr .mlfq k) :=
      clockintr_cpuInv (exec_step_cpuInv (boot_cpuInv .mlfq) hk)
    have hci : (clockintr .mlfq k).cpu 0 = some i := by rw [clockintr_cpu, hc]
    rw [timerTrap_ticked hc hx]
    refine ⟨fun c hc' j hj => queue_le_of_kept hcpu hci hc' hj, ?_, ?_⟩
    · intro es m c m' _ hdisp j hj
      exact queue_le_of_dispatch hdisp hj
    · intro hlost
      rcases mlfqTick_cases (clockintr .mlfq k) i with ⟨hwhy, -⟩ | ⟨-, -, hkeep⟩
      · exact hwhy
      · rw [hkeep, Kernel.modify_cpu, hci] at hlost
        exact absurd rfl hlost

/-- The first process forked by `init` is back on the CPU after it has been demoted to queue
    1 and killed by `init`, which then goes to sleep by `sleep`. -/
def killedChild (sleep : Event) : List Event :=
  [.dispatch initproc, .allocproc firstChild, .kforkParent firstChild,
    .kforkRunnable firstChild, sleep, .dispatch firstChild, .timer true, .device 0,
    .dispatch initproc, .kkill 2 firstChild, sleep, .dispatch firstChild]

/-- A killed process goes on to exit after a tick: it is still on the CPU although
    `init` waits in a higher queue, and it then leaves the CPU although neither its
    slice has ended nor anybody waits. -/
theorem killed_process_ignores_tick :
    (∃ hist k k' c, exec (step .mlfq) (boot .mlfq) hist = some k ∧
      step .mlfq k (.timer true) = some k' ∧ k.cpu 0 = some c ∧ k'.cpu 0 = some c ∧
      Waiting k' initproc ∧ (k'.proc initproc).queue < (k'.proc c).queue) ∧
    ∃ hist k k' k'' c, exec (step .mlfq) (boot .mlfq) hist = some k ∧
      step .mlfq k (.timer true) = some k' ∧ step .mlfq k' (.kexit (-1)) = some k'' ∧
      k.cpu 0 = some c ∧ k''.cpu 0 = none ∧ ¬ sliceEnds ((clockintr .mlfq k).proc c) ∧
      ∀ j, ¬ Waiting (clockintr .mlfq k) j := by
  constructor
  · have hrun : ∃ k ∈ exec (step .mlfq) (boot .mlfq) (killedChild .sleepTicks),
        ∃ k' ∈ step .mlfq k (.timer true), ∃ c ∈ k.cpu 0, k'.cpu 0 = some c ∧
        Waiting k' initproc ∧ (k'.proc initproc).queue < (k'.proc c).queue := by
      decide +kernel
    obtain ⟨k, hk, k', hk', c, hc, hafter⟩ := hrun
    exact ⟨_, k, k', c, hk, hk', hc, hafter⟩
  · have hrun : ∃ k ∈ exec (step .mlfq) (boot .mlfq) (killedChild (.sleepOn 0)),
        ∃ k' ∈ step .mlfq k (.timer true), ∃ k'' ∈ step .mlfq k' (.kexit (-1)),
        ∃ c ∈ k.cpu 0, k''.cpu 0 = none ∧ ¬ sliceEnds ((clockintr .mlfq k).proc c) ∧
        ∀ j, ¬ Waiting (clockintr .mlfq k) j := by
      decide +kernel
    obtain ⟨k, hk, k', hk', k'', hk'', c, hc, hafter⟩ := hrun
    exact ⟨_, k, k', k'', c, hk, hk', hk'', hc, hafter⟩

/-- `init` loses the CPU at the first tick, for one of the two reasons. -/
theorem mlfq_strict_priority_init :
    ∃ k k', exec (step .mlfq) (boot .mlfq) [.dispatch initproc] = some k ∧
      step .mlfq k (.timer true) = some k' ∧ k'.cpu 0 ≠ some initproc ∧
      (sliceEnds ((clockintr .mlfq k).proc initproc) ∨ ∃ j, Waiting (clockintr .mlfq k) j ∧
        ((clockintr .mlfq k).proc j).queue < ((clockintr .mlfq k).proc initproc).queue) := by
  have hrun : ∃ k ∈ exec (step .mlfq) (boot .mlfq) [.dispatch initproc],
      ∃ k' ∈ step .mlfq k (.timer true), k.cpu 0 = some initproc ∧
      ¬ (true = true ∧ (k.proc initproc).killed = true) ∧ k'.cpu 0 ≠ some initproc := by
    decide +kernel
  obtain ⟨k, hk, k', hk', hc, hkilled, hlost⟩ := hrun
  have hpriority := (mlfq_strict_priority _ k hk).2.2 true initproc k' hc hkilled hk'
  exact ⟨k, k', hk, hk', hlost, hpriority.2.2 hlost⟩

end MiniOs.Xv6

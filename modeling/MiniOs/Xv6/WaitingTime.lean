import MiniOs.Xv6.Uniprocessor

/-!
# Waiting-time accounting

`update_times` adds one to `wtime` of every process it finds `RUNNABLE`. It runs
at the end of `clockintr`, after the same interrupt has woken the sleepers on
`&ticks`, so the state it looks at is not the state the process was in during the
tick.
-/

namespace MiniOs.Xv6

open Trace

variable {b : Build} {k k' : Kernel} {x : Slot}

def WritesWtime (x : Slot) : Section → Prop
  | .updateTimes i => i = x
  | .allocproc _ i => i = x
  | .kforkFail _ i => i = x
  | _ => False

theorem modify_wtime {i : Slot} {f : Proc → Proc} (hf : (f (k.proc i)).wtime = (k.proc i).wtime) :
    ((k.modify i f).proc x).wtime = (k.proc x).wtime := by
  by_cases hx : x = i
  · subst hx
    rw [Kernel.modify_proc_self, hf]
  · rw [Kernel.modify_proc_of_ne k f hx]

theorem makeRunnable_wtime (b : Build) (k : Kernel) (i x : Slot) :
    ((makeRunnable b k i).proc x).wtime = (k.proc x).wtime := by
  by_cases hx : x = i
  · subst hx
    rw [makeRunnable_proc_self]
  · rw [makeRunnable_proc_of_ne b k hx]

theorem freeproc_wtime (b : Build) (p : Proc) : (freeproc b p).wtime = p.wtime := by
  unfold freeproc
  split <;> rfl

theorem chargeTick_wtime (p : Proc) : (chargeTick p).wtime = p.wtime := by
  unfold chargeTick
  split <;> rfl

theorem dispatched_wtime (t : ℕ) (p : Proc) : (dispatched t p).wtime = p.wtime := by
  unfold dispatched noteDispatch
  split <;> rfl

theorem allocproc_wtime (b : Build) (k : Kernel) (i : Slot) :
    ((allocproc b k i).proc i).wtime = 0 := by
  rw [allocproc, Kernel.modify_proc_self]
  dsimp only
  split <;> rfl

/-- **Frame lemma**: every other section leaves `wtime` alone. -/
theorem sectionStep_wtime {d : Section} (h : sectionStep b k d = some k')
    (hd : ¬ WritesWtime x d) : (k'.proc x).wtime = (k.proc x).wtime := by
  cases sectionStep_runs h with
  | allocproc hc hu => rw [allocproc_proc_of_ne b k (Ne.symm hd)]
  | @allocprocFail c i hc hu =>
    have htake : (takeSlot k i).proc =
        (k.modify i (fun p => { p with pid := k.nextpid, state := .used })).proc := rfl
    rw [allocprocFail, modify_wtime (freeproc_wtime b _), htake]
    exact modify_wtime rfl
  | kforkFail hc hu =>
    rw [kforkFail, modify_wtime (freeproc_wtime b _), allocproc_proc_of_ne b k (Ne.symm hd)]
  | @kforkRunnable c i hg => exact makeRunnable_wtime b k i x
  | @yield c i hc => exact makeRunnable_wtime b k i x
  | sleep hc =>
    rw [sleepProc, sched_proc]
    refine modify_wtime ?_
    dsimp only
    split <;> rfl
  | @wakeup c chan i hs => exact makeRunnable_wtime b k i x
  | wakeupOther hs => rfl
  | kkill hg hs =>
    rw [makeRunnable_wtime]
    exact modify_wtime rfl
  | kexit hc hi =>
    rw [zombify, sched_proc]
    exact modify_wtime rfl
  | kwait hc hp hz => exact modify_wtime (freeproc_wtime b _)
  | mlfqTick hb hc => exact modify_wtime (chargeTick_wtime _)
  | mlfqBoost hb => exact modify_wtime (boostProc_wtime _)
  | updateTimes => rw [timesSlot, Kernel.modify_proc_of_ne k _ (Ne.symm hd)]
  | clock => rfl
  | dispatch hc hr =>
    rw [runProc_proc]
    exact modify_wtime (dispatched_wtime _ _)
  | _ => exact modify_wtime rfl

/-- A run of sections none of which writes `wtime` of `x`. -/
theorem reaches_wtime {Q : Section → Prop} (h : Reaches (sectionStep b) Q k k')
    (hQ : ∀ d, Q d → ¬ WritesWtime x d) : (k'.proc x).wtime = (k.proc x).wtime := by
  refine h.invariant (I := fun m => (m.proc x).wtime = (k.proc x).wtime) ?_ rfl
  intro m d m' hm hd hstep
  rw [sectionStep_wtime hstep (hQ d hd), hm]

/-- Steps that neither tick nor create a process in slot `x` leave its `wtime`. -/
theorem step_wtime {e : Event} (h : step b k e = some k') (ht : ∀ user, e ≠ .timer user)
    (ha : e ≠ .allocproc x) (hf : e ≠ .kforkFail x) :
    (k'.proc x).wtime = (k.proc x).wtime := by
  refine reaches_wtime (step_sections h) ?_
  intro d hd hw
  cases d <;> simp only [WritesWtime] at hw
  case updateTimes i =>
    obtain ⟨user, rfl⟩ := hd
    exact ht user rfl
  case allocproc c i =>
    subst hw
    exact ha hd
  case kforkFail c i =>
    subst hw
    exact hf hd

/-- **What an interrupt adds**: one tick for every process that was `RUNNABLE` when
    it was taken, and one for every process that slept on `&ticks`. -/
theorem timerTrap_wtime (hk : CpuInv k) (user : Bool) (x : Slot) :
    ((timerTrap b k user).proc x).wtime =
      if Waiting k x ∨ ((k.proc x).state = .sleeping ∧ (k.proc x).chan = .ticks) then
        (k.proc x).wtime + 1
      else (k.proc x).wtime := by
  have htrap : ((timerTrap b k user).proc x).wtime = ((clockintr b k).proc x).wtime := by
    have htick : ∀ i, k.cpu 0 = some i →
        ((tickProc b (clockintr b k) i).proc x).wtime = ((clockintr b k).proc x).wtime := by
      intro i hc
      have hsections := tickProc_sections (b := b) (k := clockintr b k) .setkilled (i := i)
        (by rw [clockintr_cpu, hc])
      refine reaches_wtime hsections ?_
      intro d hd hw
      cases d <;> simp_all [WritesWtime, Within]
    unfold timerTrap
    split
    · rfl
    · next i hc =>
      split
      · rfl
      · exact htick i hc
  have hboost : ((boostPoint b k).proc x).wtime = ((tickAndWake b k).proc x).wtime ∧
      ((boostPoint b k).proc x).state = ((tickAndWake b k).proc x).state := by
    unfold boostPoint
    split
    · rw [mlfqBoost_eq]
      exact ⟨boostProc_wtime _, boostProc_state _⟩
    · exact ⟨rfl, rfl⟩
  rw [htrap, clockintr, updateTimes_eq]
  dsimp only
  rw [timesProc_wtime, hboost.1, hboost.2]
  obtain ⟨t, hproc⟩ := tickAndWake_proc b k x
  rw [hproc]
  by_cases hs : (k.proc x).state = .sleeping ∧ (k.proc x).chan = .ticks
  · -- a sleeper is not the running process, so `wakeup` does not skip it
    have hme : k.cpu 0 ≠ some x := by
      intro hc
      rw [hk.running_of_cpu 0 x hc] at hs
      cases hs.1
    have hwoken : WokenBy .ticks (k.cpu 0) x (k.proc x) := ⟨hme, hs⟩
    rw [if_pos hwoken, if_pos rfl, if_pos (Or.inr hs)]
  · have hwoken : ¬ WokenBy .ticks (k.cpu 0) x (k.proc x) := fun h => hs h.2
    rw [if_neg hwoken]
    simp only [hs, or_false]
    rfl

/-- No process sleeps in `sys_pause`. -/
def NoTickSleeper (k : Kernel) : Prop :=
  ∀ x, ¬ ((k.proc x).state = .sleeping ∧ (k.proc x).chan = .ticks)

instance (k : Kernel) : Decidable (NoTickSleeper k) :=
  inferInstanceAs (Decidable (∀ _, _))

/-- An observer's count of the timer interrupts that found each process `RUNNABLE`,
    from the creation of the process on. -/
def waitedStep (k : Kernel) : Event → (Slot → ℕ) → Slot → ℕ
  | .timer _, n => fun x => if Waiting k x then n x + 1 else n x
  | .allocproc i, n => Function.update n i 0
  | .kforkFail i, n => Function.update n i 0
  | _, n => n

/-- The count after the run `es` from `k`. -/
def waitedTicks (b : Build) (k : Kernel) (es : List Event) : Slot → ℕ :=
  observe (step b) waitedStep k (fun _ => 0) es

/-- **Step lemma**: while timer interrupts find no process asleep on `&ticks`, the
    count stays equal to `wtime`. -/
theorem step_waited {e : Event} {n : Slot → ℕ} (hk : CpuInv k) (h : step b k e = some k')
    (hok : ∀ user, e = .timer user → NoTickSleeper k) (hn : (k.proc x).wtime = n x) :
    (k'.proc x).wtime = waitedStep k e n x := by
  have hother : (∀ user, e ≠ .timer user) → e ≠ .allocproc x → e ≠ .kforkFail x →
      (k'.proc x).wtime = n x := fun ht ha hf => (step_wtime h ht ha hf).trans hn
  cases e <;> simp only [waitedStep]
  case timer user =>
    simp only [step, Option.ite_none_right_eq_some, Option.some.injEq] at h
    obtain ⟨-, rfl⟩ := h
    have hnone := hok user rfl x
    rw [timerTrap_wtime hk user x, hn]
    simp only [hnone, or_false]
    split <;> simp
  case allocproc i =>
    by_cases hx : i = x
    · subst hx
      simp only [step, sectionStep, Option.ite_none_right_eq_some, Option.some.injEq] at h
      obtain ⟨-, rfl⟩ := h
      rw [Function.update_self, allocproc_wtime]
      rfl
    · rw [Function.update_of_ne (Ne.symm hx)]
      exact hother (by simp) (by simpa using hx) (by simp)
  case kforkFail i =>
    by_cases hx : i = x
    · subst hx
      simp only [step, sectionStep, Option.ite_none_right_eq_some, Option.some.injEq] at h
      obtain ⟨-, rfl⟩ := h
      rw [Function.update_self, kforkFail, modify_wtime (freeproc_wtime b _), allocproc_wtime]
      rfl
    · rw [Function.update_of_ne (Ne.symm hx)]
      exact hother (by simp) (by simp) (by simpa using hx)
  all_goals exact hother (by simp) (by simp) (by simp)

theorem boot_wtime (b : Build) (x : Slot) : ((boot b).proc x).wtime = 0 := by
  rw [boot, userinit, makeRunnable_wtime]
  by_cases hx : x = initproc
  · subst hx
    exact allocproc_wtime b procinit initproc
  · rw [allocproc_proc_of_ne b procinit hx]
    rfl

/-- **Truthful waiting time**, for every scheduler. A timer interrupt charges waiting
    time only to processes that were `RUNNABLE` when it was taken exactly when no
    process slept on `&ticks` at that moment; and in a run all of whose interrupts
    meet that condition `wtime` is the number of interrupts that found the process
    `RUNNABLE` since it was created. -/
theorem waiting_time_truthful_iff (b : Build) :
    (∀ hist k user k', exec (step b) (boot b) hist = some k →
      step b k (.timer user) = some k' →
      ((∀ x, (k'.proc x).wtime = (k.proc x).wtime + 1 → Waiting k x) ↔ NoTickSleeper k)) ∧
    ∀ hist k, Guarded (step b) (fun k e => ∀ user, e = .timer user → NoTickSleeper k)
        (boot b) hist →
      exec (step b) (boot b) hist = some k →
      ∀ x, (k.proc x).wtime = waitedTicks b (boot b) hist x := by
  constructor
  · intro hist k user k' hk hk'
    have hcpu : CpuInv k := exec_step_cpuInv (boot_cpuInv b) hk
    simp only [step, Option.ite_none_right_eq_some, Option.some.injEq] at hk'
    obtain ⟨-, rfl⟩ := hk'
    constructor
    · intro htruth x hs
      have hcharged : ((timerTrap b k user).proc x).wtime = (k.proc x).wtime + 1 := by
        rw [timerTrap_wtime hcpu, if_pos (Or.inr hs)]
      have hw := htruth x hcharged
      rw [Waiting, hs.1] at hw
      cases hw
    · intro hnone x hcharged
      by_contra hw
      have hs : ¬ (Waiting k x ∨ (k.proc x).state = .sleeping ∧ (k.proc x).chan = .ticks) :=
        not_or.mpr ⟨hw, hnone x⟩
      rw [timerTrap_wtime hcpu, if_neg hs] at hcharged
      omega
  · intro hist k hok hk
    have hboth : CpuInv k ∧ ∀ x, (k.proc x).wtime = waitedTicks b (boot b) hist x := by
      refine observe_invariant
        (I := fun (m : Kernel) (n : Slot → ℕ) => CpuInv m ∧ ∀ x, (m.proc x).wtime = n x)
        ?_ ⟨boot_cpuInv b, boot_wtime b⟩ hok hk
      rintro m n e m' ⟨hm, hn⟩ he hstep
      have hm' : CpuInv m' := exec_step_cpuInv hm (by rw [exec_singleton, hstep])
      exact ⟨hm', fun x => step_waited hm hstep he (hn x)⟩
    exact hboth.2

/-- Of three interrupts the first and the last find `init` `RUNNABLE`, the second finds it
    `RUNNING`. -/
def threeTicks : List Event :=
  [.timer false, .dispatch initproc, .timer true, .timer false]

theorem waiting_time_truthful_threeTicks :
    ∃ k, exec (step .rr) (boot .rr) threeTicks = some k ∧ (k.proc initproc).wtime = 2 := by
  have hok : Guarded (step .rr) (fun k e => ∀ user, e = .timer user → NoTickSleeper k) (boot .rr)
      threeTicks := by decide +kernel
  have hcount : waitedTicks .rr (boot .rr) threeTicks initproc = 2 := by decide +kernel
  have hruns : (exec (step .rr) (boot .rr) threeTicks).isSome = true := by decide +kernel
  obtain ⟨k, hk⟩ := Option.isSome_iff_exists.mp hruns
  refine ⟨k, hk, ?_⟩
  rw [(waiting_time_truthful_iff .rr).2 threeTicks k hok hk initproc, hcount]
  rfl

/-- `init` sleeps in `sys_pause` when the interrupt is taken and is charged for it. -/
theorem sleeper_is_charged :
    ∃ hist k k', exec (step .mlfq) (boot .mlfq) hist = some k ∧
      step .mlfq k (.timer false) = some k' ∧ (k.proc initproc).state = .sleeping ∧
      (k'.proc initproc).wtime = (k.proc initproc).wtime + 1 := by
  have hrun : ∃ k ∈ exec (step .mlfq) (boot .mlfq) [.dispatch initproc, .sleepTicks],
      ∃ k' ∈ step .mlfq k (.timer false), (k.proc initproc).state = .sleeping ∧
      (k'.proc initproc).wtime = (k.proc initproc).wtime + 1 := by
    decide +kernel
  obtain ⟨k, hk, k', hk', hafter⟩ := hrun
  exact ⟨_, k, k', hk, hk', hafter⟩

end MiniOs.Xv6

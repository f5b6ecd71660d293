import Mathlib
import MiniOs.Xv6.SlotSteps

/-!
# What a reused slot carries over

A process that is reaped leaves its slot to the next fork. Some fields are reset by
`freeproc` when the old process goes, some by `allocproc` when the new one comes, and the
loops of `kkill`, `wakeup`, `mlfq_boost` and `update_times` visit free slots too.

One of them writes to a free slot: `kkill(pid)` does not look at the state before it sets
`killed`, and the pid of a free slot is 0. The next process in that slot is born killed.
-/

namespace MiniOs.Xv6

open Trace

/-- A process as `allocproc` makes it in a slot never used before. -/
def freshProc (k : Kernel) : Proc where
  state := .used
  chan := .null
  killed := false
  xstate := 0
  pid := k.nextpid
  parent := none
  queue := 0
  enqTime := 0
  ticksUsed := 0
  ctime := asInt k.ticks
  firstRunTime := -1
  etime := -1
  rtime := 0
  wtime := 0

/-- The observer: `true` for a slot if `kkill` was called with the pid of its process, or
    `setkilled` on it, since that process was created. -/
def condemn (k : Kernel) : Section → (Slot → Bool) → Slot → Bool
  | .allocproc _ i, g => Function.update g i false
  | .kkill _ _ i, g => Function.update g i true
  | .setkilled c, g => (k.cpu c).elim g (fun i => Function.update g i true)
  | _, g => g

/-- Whose death has been asked for in the run `es`. -/
def condemned (b : Build) (es : List Section) : Slot → Bool :=
  observe (sectionStep b) condemn (boot b) (fun _ => false) es

def NoKillZero : Section → Prop
  | .kkill _ pid _ => pid ≠ 0
  | _ => True

instance (e : Section) : Decidable (NoKillZero e) := by
  cases e <;> unfold NoKillZero <;> infer_instance

/-- A slot as `freeproc` leaves it: only the statistics of the last process are there. -/
structure Wiped (p : Proc) : Prop where
  pid : p.pid = 0
  parent : p.parent = none
  chan : p.chan = .null
  killed : p.killed = false
  xstate : p.xstate = 0

/-- The fields that only the MLFQ build writes. -/
structure Unqueued (p : Proc) : Prop where
  queue : p.queue = 0
  enqTime : p.enqTime = 0
  ticksUsed : p.ticksUsed = 0

/-- What a slot looks like while it is free and while it is in use. -/
structure SlotInv (b : Build) (condemned : Bool) (p : Proc) : Prop where
  wiped : p.state = .unused → Wiped p
  unqueued : b ≠ .mlfq ∨ p.state = .unused → Unqueued p
  killed_eq : p.state ≠ .unused → p.killed = condemned

variable {b : Build} {k k' : Kernel} {i : Slot} {g g' : Slot → Bool} {d : Bool} {p q : Proc}

/-! ## Single slots -/

/-- A section that finds a process and leaves one, and does not touch the kill flag. -/
theorem SlotInv.of_live (h : SlotInv b d p) (hp : p.state ≠ .unused) (hq : q.state ≠ .unused)
    (hkilled : q.killed = p.killed) (hfields : b ≠ .mlfq → Unqueued p → Unqueued q) :
    SlotInv b d q where
  wiped hu := absurd hu hq
  unqueued hb := by
    obtain hb | hu := hb
    · exact hfields hb (h.unqueued (.inl hb))
    · exact absurd hu hq
  killed_eq _ := hkilled.trans (h.killed_eq hp)

theorem SlotInv.of_killed (h : SlotInv b d p) (hp : p.state ≠ .unused) :
    SlotInv b true { p with killed := true } where
  wiped hu := absurd hu hp
  unqueued hb := by
    obtain ⟨hq, he, ht⟩ := h.unqueued hb
    exact ⟨hq, he, ht⟩
  killed_eq _ := rfl

theorem SlotInv.chargeTick (h : SlotInv .mlfq d p) (hp : p.state ≠ .unused) :
    SlotInv .mlfq d (chargeTick p) := by
  refine h.of_live hp ?_ ?_ fun hne => absurd rfl hne
  · rw [chargeTick_state]
    exact hp
  · unfold Xv6.chargeTick
    split <;> rfl

theorem SlotInv.boostProc (h : SlotInv .mlfq d p) : SlotInv .mlfq d (boostProc p) := by
  unfold Xv6.boostProc
  split
  · next hu => exact h.of_live hu hu rfl fun hne => absurd rfl hne
  · exact h

/-- The clock charges only `RUNNING` and `RUNNABLE` processes. -/
theorem SlotInv.timesProc (h : SlotInv b d p) : SlotInv b d (timesProc p) := by
  by_cases hu : p.state = .unused
  · have hkeep : Xv6.timesProc p = p := by simp [Xv6.timesProc, hu]
    rw [hkeep]
    exact h
  · rw [timesProc_eq]
    exact h.of_live hu hu rfl fun _ hu => ⟨hu.queue, hu.enqTime, hu.ticksUsed⟩

theorem SlotInv.dispatched (h : SlotInv b d p) (hp : p.state = .runnable) (ticks : ℕ) :
    SlotInv b d (dispatched ticks p) := by
  refine h.of_live (by simp [hp]) (by simp) ?_ fun _ hu => ?_
  · unfold Xv6.dispatched noteDispatch
    split <;> rfl
  · exact ⟨by simp [hu.queue], by simp [hu.enqTime], by simp [hu.ticksUsed]⟩

theorem freeproc_slotInv (hp : b ≠ .mlfq → Unqueued p) : SlotInv b d (freeproc b p) := by
  have hunqueued : Unqueued (freeproc b p) := by
    by_cases hb : b = .mlfq
    · simp only [freeproc, if_pos hb]
      exact ⟨rfl, rfl, rfl⟩
    · obtain ⟨hq, he, ht⟩ := hp hb
      simp only [freeproc, if_neg hb]
      exact ⟨hq, he, ht⟩
  refine ⟨fun _ => ?_, fun _ => hunqueued, fun hne => absurd (freeproc_state b p) hne⟩
  unfold freeproc
  constructor <;> dsimp only <;> split <;> rfl

theorem allocproc_eq_freshProc (hw : Wiped (k.proc i)) (hu : Unqueued (k.proc i)) :
    (allocproc b k i).proc i = freshProc k := by
  rw [allocproc, Kernel.modify_proc_self, takeSlot_proc_self]
  dsimp only
  rw [hw.parent, hw.chan, hw.killed, hw.xstate, hu.queue, hu.enqTime, hu.ticksUsed]
  split <;> rfl

theorem freshProc_slotInv (hd : d = false) : SlotInv b d (freshProc k) :=
  ⟨by simp [freshProc], fun _ => ⟨rfl, rfl, rfl⟩, fun _ => hd.symm⟩

theorem zeroProc_slotInv : SlotInv b d zeroProc :=
  ⟨fun _ => ⟨rfl, rfl, rfl, rfl, rfl⟩, fun _ => ⟨rfl, rfl, rfl⟩, fun h => absurd rfl h⟩

/-! ## Sections -/

theorem slotInv_of_slot (hI : ∀ x, SlotInv b (g x) (k.proc x))
    (hk : ∀ x, x ≠ i → k'.proc x = k.proc x) (hg : ∀ x, x ≠ i → g' x = g x)
    (hi : SlotInv b (g' i) (k'.proc i)) (x : Slot) : SlotInv b (g' x) (k'.proc x) := by
  by_cases hx : x = i
  · rw [hx]
    exact hi
  · rw [hk x hx, hg x hx]
    exact hI x

theorem slotInv_modify {f : Proc → Proc} (hI : ∀ x, SlotInv b (g x) (k.proc x))
    (hf : SlotInv b (g i) (f (k.proc i))) (x : Slot) :
    SlotInv b (g x) ((k.modify i f).proc x) := by
  refine slotInv_of_slot hI (fun x hx => Kernel.modify_proc_of_ne k f hx) (fun _ _ => rfl) ?_ x
  rw [Kernel.modify_proc_self]
  exact hf

theorem slotInv_makeRunnable (hI : ∀ x, SlotInv b (g x) (k.proc x))
    (hi : (k.proc i).state ≠ .unused) (x : Slot) :
    SlotInv b (g x) ((makeRunnable b k i).proc x) := by
  refine slotInv_of_slot hI (fun x hx => makeRunnable_proc_of_ne b k hx) (fun _ _ => rfl) ?_ x
  rw [makeRunnable_proc_self]
  refine (hI i).of_live hi (by simp) rfl fun hb hu => ⟨hu.queue, ?_, hu.ticksUsed⟩
  rw [if_neg hb]
  exact hu.enqTime

theorem slotInv_kill (hI : ∀ x, SlotInv b (g x) (k.proc x)) (hi : (k.proc i).state ≠ .unused)
    (x : Slot) : SlotInv b (Function.update g i true x)
      ((k.modify i (fun p => { p with killed := true })).proc x) := by
  refine slotInv_of_slot hI (fun x hx => Kernel.modify_proc_of_ne k _ hx)
    (fun x hx => Function.update_of_ne hx _ _) ?_ x
  rw [Function.update_self, Kernel.modify_proc_self]
  exact (hI i).of_killed hi

/-- **A section keeps free slots wiped and kill flags deserved**, unless it is `kkill(0)`. -/
theorem slotInv_of_sectionStep {e : Section} (hk : CpuInv k)
    (hI : ∀ x, SlotInv b (g x) (k.proc x)) (he : NoKillZero e)
    (h : sectionStep b k e = some k') (x : Slot) :
    SlotInv b (condemn k e g x) (k'.proc x) := by
  have hlive : ∀ {c : ℕ} {i : Slot}, k.cpu c = some i → (k.proc i).state ≠ .unused := by
    intro c i hc
    simp [hk.running_of_cpu c i hc]
  cases sectionStep_runs h with
  | @allocproc c i hc hu =>
    have hfresh := allocproc_eq_freshProc (b := b) ((hI i).wiped hu) ((hI i).unqueued (.inr hu))
    refine slotInv_of_slot hI (fun x hx => allocproc_proc_of_ne b k hx)
      (fun x hx => Function.update_of_ne hx _ _) ?_ x
    rw [hfresh]
    exact freshProc_slotInv (Function.update_self _ _ _)
  | @allocprocFail c i hc hu =>
    refine slotInv_of_slot (i := i) hI (fun x hx => ?_) (fun _ _ => rfl) ?_ x
    · rw [allocprocFail, Kernel.modify_proc_of_ne _ _ hx, takeSlot_proc_of_ne k hx]
    · rw [allocprocFail, Kernel.modify_proc_self, takeSlot_proc_self]
      obtain ⟨hq, he, ht⟩ := (hI i).unqueued (.inr hu)
      exact freeproc_slotInv fun _ => ⟨hq, he, ht⟩
  | @kforkFail c i hc hu =>
    have hfresh := allocproc_eq_freshProc (b := b) ((hI i).wiped hu) ((hI i).unqueued (.inr hu))
    refine slotInv_of_slot (i := i) hI (fun x hx => ?_) (fun _ _ => rfl) ?_ x
    · rw [kforkFail, Kernel.modify_proc_of_ne _ _ hx, allocproc_proc_of_ne b k hx]
    · rw [kforkFail, Kernel.modify_proc_self, hfresh]
      exact freeproc_slotInv fun _ => ⟨rfl, rfl, rfl⟩
  | @kforkParent c i hg =>
    have hi : (k.proc i).state ≠ .unused := by simp [hg.2.1]
    exact slotInv_modify hI
      ((hI i).of_live hi hi rfl fun _ hu => ⟨hu.queue, hu.enqTime, hu.ticksUsed⟩) x
  | kforkRunnable hg => exact slotInv_makeRunnable hI (by simp [hg.2.1]) x
  | yield hc => exact slotInv_makeRunnable hI (hlive hc) x
  | @sleep c chan i hc =>
    rw [sleepProc, sched_proc]
    refine slotInv_modify hI ((hI i).of_live (hlive hc) ?_ ?_ fun hb hu => ?_) x
    · dsimp only
      split <;> simp
    · dsimp only
      split <;> rfl
    · simp only [if_neg hb]
      exact ⟨hu.queue, hu.enqTime, hu.ticksUsed⟩
  | wakeup hs => exact slotInv_makeRunnable hI (by simp [hs.2.1]) x
  | wakeupOther hs => exact hI x
  | @kkill c pid i hg hs =>
    have hi : (k.proc i).state ≠ .unused := by simp [hs]
    exact slotInv_makeRunnable (slotInv_kill hI hi) (by rwa [Kernel.modify_proc_self]) x
  | @kkillAwake c pid i hg hs =>
    -- the pid of a free slot is 0
    exact slotInv_kill hI (fun hu => he (by rw [← hg.2]; exact ((hI i).wiped hu).pid)) x
  | @setkilled c i hc =>
    have hcondemn : condemn k (.setkilled c) g = Function.update g i true := by
      simp [condemn, hc]
    rw [hcondemn]
    exact slotInv_kill hI (hlive hc) x
  | @reparent c i hc hp =>
    have hi : (k.proc i).state ≠ .unused := by
      intro hu
      rw [← hp, ((hI i).wiped hu).parent] at hc
      cases hc
    exact slotInv_modify hI
      ((hI i).of_live hi hi rfl fun _ hu => ⟨hu.queue, hu.enqTime, hu.ticksUsed⟩) x
  | @kexit c status i hc hi =>
    rw [zombify, sched_proc]
    exact slotInv_modify hI
      ((hI i).of_live (hlive hc) (by simp) rfl fun _ hu =>
        ⟨hu.queue, hu.enqTime, hu.ticksUsed⟩) x
  | @kwait c i hc hp hz =>
    exact slotInv_modify hI
      (freeproc_slotInv fun hb => (hI i).unqueued (.inl hb)) x
  | @mlfqTick c i hb hc =>
    subst hb
    exact slotInv_modify hI ((hI i).chargeTick (hlive hc)) x
  | @mlfqBoost i hb =>
    subst hb
    exact slotInv_modify hI (hI i).boostProc x
  | @updateTimes i => exact slotInv_modify hI (hI i).timesProc x
  | clock => exact hI x
  | @dispatch c i hc hr => exact slotInv_modify hI ((hI i).dispatched hr _) x

/-! ## Whole runs -/

theorem boot_slotInv (b : Build) (x : Slot) : SlotInv b false ((boot b).proc x) := by
  have hzero : ∀ x, SlotInv b false (procinit.proc x) := fun _ => zeroProc_slotInv
  have halloc : ∀ x, SlotInv b false ((allocproc b procinit initproc).proc x) := by
    refine slotInv_of_slot hzero (fun x hx => allocproc_proc_of_ne b procinit hx)
      (fun _ _ => rfl) ?_
    rw [allocproc_eq_freshProc ⟨rfl, rfl, rfl, rfl, rfl⟩ ⟨rfl, rfl, rfl⟩]
    exact freshProc_slotInv rfl
  refine slotInv_makeRunnable halloc ?_ x
  rw [allocproc_state]
  decide

theorem exec_slotInv {es : List Section} (h : exec (sectionStep b) (boot b) es = some k)
    (hkill : ∀ e ∈ es, NoKillZero e) (x : Slot) :
    SlotInv b (condemned b es x) (k.proc x) := by
  have hok : Guarded (sectionStep b) (fun _ e => NoKillZero e) (boot b) es :=
    guarded_of_forall_mem (fun e he _ => hkill e he) (boot b)
  have hI : CpuInv k ∧ ∀ x, SlotInv b (condemned b es x) (k.proc x) := by
    refine observe_invariant (I := fun m (g : Slot → Bool) =>
      CpuInv m ∧ ∀ x, SlotInv b (g x) (m.proc x)) (fun m g e m' hI he hst => ?_)
      ⟨boot_cpuInv b, boot_slotInv b⟩ hok h
    exact ⟨sectionStep_cpuInv hI.1 hst, slotInv_of_sectionStep hI.1 hI.2 he hst⟩
  exact hI.2 x

/-- **A reused slot carries nothing over** in a run without `kkill(0)`, on any number of CPUs
    and under every scheduler: the process that `allocproc` makes is the one it makes in a
    slot of the zeroed table, and a process has `killed` set only if, after its creation,
    `kkill` was called with its pid or `setkilled` on it. -/
theorem reused_slot_fresh (b : Build) {es : List Section}
    (h : exec (sectionStep b) (boot b) es = some k) (hkill : ∀ e ∈ es, NoKillZero e) :
    (∀ c x k', sectionStep b k (.allocproc c x) = some k' →
      k'.proc x = freshProc k ∧
      k'.proc x = (allocproc b (k.modify x (fun _ => zeroProc)) x).proc x) ∧
    ∀ x, (k.proc x).state ≠ .unused → (k.proc x).killed = true → condemned b es x = true := by
  have hI := exec_slotInv h hkill
  refine ⟨fun c x k' hst => ?_, fun x hx hkilled => ?_⟩
  · cases sectionStep_runs hst with
    | allocproc hc hu =>
      have hfresh : (allocproc b k x).proc x = freshProc k :=
        allocproc_eq_freshProc ((hI x).wiped hu) ((hI x).unqueued (.inr hu))
      refine ⟨hfresh, hfresh.trans (Eq.symm ?_)⟩
      refine allocproc_eq_freshProc (k := k.modify x (fun _ => zeroProc)) ?_ ?_ <;>
        rw [Kernel.modify_proc_self]
      · exact ⟨rfl, rfl, rfl, rfl, rfl⟩
      · exact ⟨rfl, rfl, rfl⟩
  · rw [← (hI x).killed_eq hx]
    exact hkilled

/-- `init` forks, the child is killed by its pid, exits and is reaped, and `init` is about to
    fork again. -/
def killAndReap : List Section :=
  [.dispatch 0 initproc, .allocproc 0 firstChild, .kforkParent 0 firstChild,
    .kforkRunnable 0 firstChild, .kkill 0 2 firstChild, .sleep 0 (.proc initproc),
    .dispatch 0 firstChild, .wakeup 0 (.proc initproc) initproc, .kexit 0 (-1),
    .dispatch 0 initproc, .kwait 0 firstChild]

theorem reused_slot_fresh_child :
    ∃ k ∈ exec (sectionStep .mlfq) (boot .mlfq) killAndReap,
      ∃ k' ∈ sectionStep .mlfq k (.allocproc 0 firstChild),
        (k'.proc firstChild).pid = 3 ∧ (k'.proc firstChild).killed = false := by
  have hrun : ∃ k ∈ exec (sectionStep .mlfq) (boot .mlfq) killAndReap,
      ∃ k' ∈ sectionStep .mlfq k (.allocproc 0 firstChild), (k'.proc firstChild).pid = 3 := by
    decide +kernel
  obtain ⟨k, hk, k', hk', hpid⟩ := hrun
  have hkill : ∀ e ∈ killAndReap, NoKillZero e := by decide
  have hfresh := ((reused_slot_fresh .mlfq hk hkill).1 0 firstChild k' hk').1
  refine ⟨k, hk, k', hk', hpid, ?_⟩
  rw [hfresh]
  rfl

/-- `init` calls `kkill(0)`. The scan stops at the first free slot, which is the one that the
    next fork takes, and the child is born killed. -/
theorem kill_zero_condemns :
    ∃ k ∈ exec (sectionStep .rr) (boot .rr) [.dispatch 0 initproc],
      (∀ j < firstChild, (k.proc j).pid ≠ 0) ∧
      ∃ k₁ ∈ sectionStep .rr k (.kkill 0 0 firstChild),
        (∀ j < firstChild, (k₁.proc j).state ≠ .unused) ∧
        ∃ k₂ ∈ sectionStep .rr k₁ (.allocproc 0 firstChild),
          (k₂.proc firstChild).pid = 2 ∧ (k₂.proc firstChild).killed = true ∧
          condemned .rr [.dispatch 0 initproc, .kkill 0 0 firstChild, .allocproc 0 firstChild]
            firstChild = false := by
  decide +kernel

end MiniOs.Xv6

import Mathlib
import MiniOs.Xv6.Uniprocessor

/-!
# What a step of the CPU does to one slot

The steps of one CPU as a single slot of the process table sees them: the state of the
process, its pid and its statistics. Invariants of processes over whole runs follow from
this case by case.
-/

namespace MiniOs.Xv6

open Trace

variable {e : Event}

@[ext]
structure Account where
  pid : Int
  ctime : Int
  firstRunTime : Int
  etime : Int
  rtime : Int
  wtime : Int

def Proc.account (p : Proc) : Account :=
  ⟨p.pid, p.ctime, p.firstRunTime, p.etime, p.rtime, p.wtime⟩

/-- What `update_times` adds for a process in state `s`. -/
def Account.charge (a : Account) : ProcState → Account
  | .running => { a with rtime := a.rtime + 1 }
  | .runnable => { a with wtime := a.wtime + 1 }
  | _ => a

/-- What `note_dispatch` writes. -/
def Account.note (a : Account) (ticks : ℕ) : Account :=
  { a with firstRunTime := if a.firstRunTime = -1 then asInt ticks else a.firstRunTime }

/-- The process keeps its account and is at most woken up. -/
structure Spared (p q : Proc) : Prop where
  account : q.account = p.account
  state : q.state = p.state ∨ p.state = .sleeping ∧ q.state = .runnable

/-- Step `e` is a tick, or creates, dispatches or reaps the process in slot `x`. -/
def Concerns (x : Slot) : Event → Prop
  | .timer _ => True
  | .allocproc i => i = x
  | .dispatch i => i = x
  | .kwait i => i = x
  | _ => False

/-- A step in which the running process goes to sleep. -/
def Sleeps : Event → Prop
  | .sleepTicks => True
  | .sleepWait => True
  | .sleepOn _ => True
  | _ => False

instance (e : Event) : Decidable (Sleeps e) := by
  cases e <;> unfold Sleeps <;> infer_instance

/-- A step that is taken, with what it needs and the kernel after it. -/
inductive StepRuns (b : Build) (k : Kernel) : Event → Kernel → Prop where
  | dispatch {i : Slot} (hc : k.cpu 0 = none) (hr : (k.proc i).state = .runnable)
      (hsel : Selects b k i) : StepRuns b k (.dispatch i) (runProc k 0 i)
  | timer {user : Bool} : StepRuns b k (.timer user) (timerTrap b k user)
  | device {addr : ℕ} : StepRuns b k (.device addr) (wakeup b (.other addr) (k.cpu 0) k)
  | wakeup {addr : ℕ} : StepRuns b k (.wakeup addr) (wakeup b (.other addr) (k.cpu 0) k)
  | allocproc {i : Slot} (hu : (k.proc i).state = .unused) :
      StepRuns b k (.allocproc i) (allocproc b k i)
  | allocprocFail {i : Slot} (hu : (k.proc i).state = .unused) :
      StepRuns b k (.allocprocFail i) (allocprocFail b k i)
  | kforkFail {i : Slot} (hu : (k.proc i).state = .unused) :
      StepRuns b k (.kforkFail i) (kforkFail b k i)
  | kforkParent {i : Slot} : StepRuns b k (.kforkParent i)
      (k.modify i (fun p => { p with parent := k.cpu 0 }))
  | kforkRunnable {i : Slot} (hu : (k.proc i).state = .used) :
      StepRuns b k (.kforkRunnable i) (makeRunnable b k i)
  | sleep {e : Event} {chan : Chan} {i : Slot} (he : Sleeps e) (hc : k.cpu 0 = some i) :
      StepRuns b k e (sleepProc b k 0 i chan)
  | kkill {pid : Int} {i : Slot} (hs : (k.proc i).state = .sleeping) :
      StepRuns b k (.kkill pid i)
        (makeRunnable b (k.modify i (fun p => { p with killed := true })) i)
  | kkillAwake {pid : Int} {i : Slot} : StepRuns b k (.kkill pid i)
      (k.modify i (fun p => { p with killed := true }))
  | setkilled {i : Slot} (hc : k.cpu 0 = some i) :
      StepRuns b k .setkilled (k.modify i (fun p => { p with killed := true }))
  | kexit {status : Int} {i : Slot} (hc : k.cpu 0 = some i) :
      StepRuns b k (.kexit status) (kexit b k i status)
  | kwait {i : Slot} (hz : (k.proc i).state = .zombie) :
      StepRuns b k (.kwait i) (k.modify i (freeproc b))

/-- The new fields of slot `x` after a step `e` in kernel `k`. -/
inductive StepChange (k : Kernel) (x : Slot) : Event → Proc → Prop where
  | spared {e : Event} {q : Proc} (he : ¬ Concerns x e) (h : Spared (k.proc x) q) :
      StepChange k x e q
  | create {q : Proc} (hu : (k.proc x).state = .unused) (hs : q.state = .used)
      (ha : q.account = ⟨k.nextpid, asInt k.ticks, -1, -1, 0, 0⟩) :
      StepChange k x (.allocproc x) q
  | abort {e : Event} {q : Proc} (he : ¬ Concerns x e) (hu : (k.proc x).state = .unused)
      (hs : q.state = .unused) : StepChange k x e q
  | ready {q : Proc} (hu : (k.proc x).state = .used) (hs : q.state = .runnable)
      (ha : q.account = (k.proc x).account) : StepChange k x (.kforkRunnable x) q
  | sleep {e : Event} {q : Proc} (he : Sleeps e) (hc : k.cpu 0 = some x)
      (hs : q.state = .sleeping) (ha : q.account = (k.proc x).account) : StepChange k x e q
  | exit {status : Int} {q : Proc} (hc : k.cpu 0 = some x) (hs : q.state = .zombie)
      (ha : q.account = { (k.proc x).account with etime := asInt k.ticks }) :
      StepChange k x (.kexit status) q
  | free {q : Proc} (hz : (k.proc x).state = .zombie) (hs : q.state = .unused) :
      StepChange k x (.kwait x) q
  | run {q : Proc} (hc : k.cpu 0 = none) (hr : (k.proc x).state = .runnable)
      (hs : q.state = .running) (ha : q.account = (k.proc x).account.note k.ticks) :
      StepChange k x (.dispatch x) q
  | tick {user : Bool} {q : Proc} {s : ProcState}
      (hs : s = (k.proc x).state ∨ (k.proc x).state = .sleeping ∧ s = .runnable)
      (ha : q.account = (k.proc x).account.charge s)
      (hq : q.state = s ∨ s = .running ∧ q.state = .runnable) : StepChange k x (.timer user) q

variable {b : Build} {k k' : Kernel} {i x : Slot} {p q r : Proc}

theorem Spared.refl (p : Proc) : Spared p p := ⟨rfl, .inl rfl⟩

theorem Spared.trans (h : Spared p q) (h' : Spared q r) : Spared p r := by
  refine ⟨h'.account.trans h.account, ?_⟩
  have hs := h.state
  have hs' := h'.state
  grind

/-! ## Accounts -/

theorem timesProc_account (p : Proc) : (timesProc p).account = p.account.charge p.state := by
  unfold timesProc
  by_cases hr : p.state = .running
  · simp [hr, Proc.account, Account.charge]
  · by_cases hw : p.state = .runnable
    · simp [hw, Proc.account, Account.charge]
    · rw [if_neg hr, if_neg hw]
      cases hs : p.state <;> simp_all [Account.charge]

theorem dispatched_account (t : ℕ) (p : Proc) : (dispatched t p).account = p.account.note t := by
  unfold dispatched noteDispatch
  by_cases h : p.firstRunTime = -1 <;> simp [h, Proc.account, Account.note]

theorem boostProc_account (p : Proc) : (boostProc p).account = p.account := by
  unfold boostProc
  split <;> rfl

theorem chargeTick_account (p : Proc) : (chargeTick p).account = p.account := by
  unfold chargeTick
  split <;> rfl

theorem makeRunnable_account (b : Build) (k : Kernel) (i x : Slot) :
    ((makeRunnable b k i).proc x).account = (k.proc x).account := by
  by_cases hx : x = i
  · subst hx
    rw [makeRunnable_proc_self]
    rfl
  · rw [makeRunnable_proc_of_ne b k hx]

theorem allocproc_account (b : Build) (k : Kernel) (i : Slot) :
    ((allocproc b k i).proc i).account = ⟨k.nextpid, asInt k.ticks, -1, -1, 0, 0⟩ := by
  rw [allocproc, Kernel.modify_proc_self, takeSlot_proc_self]
  dsimp only
  split <;> rfl

theorem allocproc_state (b : Build) (k : Kernel) (i : Slot) :
    ((allocproc b k i).proc i).state = .used := by
  rw [allocproc, Kernel.modify_proc_self, takeSlot_proc_self]
  dsimp only
  split <;> rfl

/-! ## Slots that a step leaves alone -/

theorem spared_modify {f : Proc → Proc} (hf : Spared (k.proc i) (f (k.proc i))) (x : Slot) :
    Spared (k.proc x) ((k.modify i f).proc x) := by
  by_cases hx : x = i
  · subst hx
    rw [Kernel.modify_proc_self]
    exact hf
  · rw [Kernel.modify_proc_of_ne k f hx]
    exact .refl _

theorem wakeup_spared (b : Build) (chan : Chan) (me : Option Slot) (k : Kernel) (x : Slot) :
    Spared (k.proc x) ((wakeup b chan me k).proc x) := by
  obtain ⟨t, ht⟩ := wakeup_proc b chan me k x
  rw [ht]
  split
  · next h => exact ⟨rfl, .inr ⟨h.2.1, rfl⟩⟩
  · exact .refl _

theorem reparentSlot_spared (b : Build) (p : Slot) (me : Option Slot) (k : Kernel) (i x : Slot) :
    Spared (k.proc x) ((reparentSlot b p me k i).proc x) := by
  unfold reparentSlot
  split
  · exact (spared_modify ⟨rfl, .inl rfl⟩ x).trans (wakeup_spared b _ me _ x)
  · exact .refl _

theorem reparent_spared (b : Build) (p : Slot) (me : Option Slot) (k : Kernel) (x : Slot) :
    Spared (k.proc x) ((slots.foldl (reparentSlot b p me) k).proc x) := by
  refine List.foldlRecOn (motive := fun m : Kernel => Spared (k.proc x) (m.proc x)) slots _
    (.refl _) ?_
  intro m hm i _
  exact hm.trans (reparentSlot_spared b p me m i x)

theorem boostPoint_spared (b : Build) (k : Kernel) (x : Slot) :
    Spared (k.proc x) ((boostPoint b k).proc x) := by
  have hwake : Spared (k.proc x) ((tickAndWake b k).proc x) :=
    wakeup_spared b .ticks (k.cpu 0) { k with ticks := (k.ticks + 1) % 2 ^ 32 } x
  unfold boostPoint
  split
  · rw [mlfqBoost_eq]
    exact hwake.trans ⟨boostProc_account _, .inl (boostProc_state _)⟩
  · exact hwake

/-! ## Inversion -/

theorem reparent_ticks (b : Build) (p : Slot) (me : Option Slot) (k : Kernel) :
    (slots.foldl (reparentSlot b p me) k).ticks = k.ticks := by
  refine List.foldlRecOn (motive := fun m : Kernel => m.ticks = k.ticks) slots _ rfl ?_
  intro m hm j _
  rw [← hm]
  unfold reparentSlot
  split
  · exact wakeup_ticks b _ _ _
  · rfl

theorem stepChange_kexit (hc : k.cpu 0 = some i) (status : Int) (x : Slot) :
    StepChange k x (.kexit status) ((kexit b k i status).proc x) := by
  have hspared : ∀ y, Spared (k.proc y)
      ((wakeup b (parentChan ((slots.foldl (reparentSlot b i (some i)) k).proc i)) (some i)
        (slots.foldl (reparentSlot b i (some i)) k)).proc y) :=
    fun y => (reparent_spared b i (some i) k y).trans (wakeup_spared b _ _ _ y)
  rw [kexit, zombify, sched_proc]
  by_cases hx : x = i
  · subst hx
    rw [Kernel.modify_proc_self]
    refine .exit hc rfl ?_
    rw [wakeup_ticks, reparent_ticks, ← (hspared x).account]
    rfl
  · rw [Kernel.modify_proc_of_ne _ _ hx]
    exact .spared id (hspared x)

/-- The end of a timer interrupt, which is charged to the running process `i`. -/
theorem tickProc_proc (b : Build) (k : Kernel) (i x : Slot) :
    ((tickProc b k i).proc x).account = (k.proc x).account ∧
    (((tickProc b k i).proc x).state = (k.proc x).state ∨
      x = i ∧ ((tickProc b k i).proc x).state = .runnable) := by
  have hyield : ∀ (b : Build) (m : Kernel),
      ((yieldProc b m 0 i).proc x).account = (m.proc x).account ∧
      (((yieldProc b m 0 i).proc x).state = (m.proc x).state ∨
        x = i ∧ ((yieldProc b m 0 i).proc x).state = .runnable) := by
    intro b m
    rw [yieldProc, sched_proc]
    refine ⟨makeRunnable_account b m i x, ?_⟩
    by_cases hx : x = i
    · subst hx
      rw [makeRunnable_proc_self]
      exact .inr ⟨rfl, rfl⟩
    · rw [makeRunnable_proc_of_ne b m hx]
      exact .inl rfl
  have hcharge : ((k.modify i chargeTick).proc x).account = (k.proc x).account ∧
      ((k.modify i chargeTick).proc x).state = (k.proc x).state := by
    by_cases hx : x = i
    · subst hx
      rw [Kernel.modify_proc_self]
      exact ⟨chargeTick_account _, chargeTick_state _⟩
    · rw [Kernel.modify_proc_of_ne _ _ hx]
      exact ⟨rfl, rfl⟩
  unfold tickProc mlfqTick
  dsimp only
  rw [← hcharge.1, ← hcharge.2]
  split
  · split
    · exact hyield _ _
    · split
      · exact hyield _ _
      · exact ⟨rfl, .inl rfl⟩
  · rw [hcharge.1, hcharge.2]
    exact hyield _ _

theorem stepChange_timer (hk : CpuInv k) (user : Bool) (x : Slot) :
    StepChange k x (.timer user) ((timerTrap b k user).proc x) := by
  have hspared := boostPoint_spared b k x
  have haccount : ((clockintr b k).proc x).account =
      (k.proc x).account.charge ((boostPoint b k).proc x).state := by
    rw [clockintr, updateTimes_eq]
    dsimp only
    rw [timesProc_account, hspared.account]
  have hstate : ((clockintr b k).proc x).state = ((boostPoint b k).proc x).state :=
    (clockintr_proc b k x).1
  have hclock : StepChange k x (.timer user) ((clockintr b k).proc x) :=
    .tick hspared.state haccount (.inl hstate)
  unfold timerTrap
  split
  · exact hclock
  · next i hc =>
    split
    · exact hclock
    · obtain ⟨ha, hq⟩ := tickProc_proc b (clockintr b k) i x
      refine .tick hspared.state (ha.trans haccount) ?_
      obtain hq | ⟨rfl, hq⟩ := hq
      · exact .inl (hq.trans hstate)
      · have hrun := hk.running_of_cpu 0 x hc
        have hs := hspared.state
        rw [hrun] at hs
        refine .inr ⟨?_, hq⟩
        simpa using hs

theorem step_runs (h : step b k e = some k') : StepRuns b k e k' := by
  have hsection : ∀ d, sectionStep b k d = some k' → SectionRuns b k d k' :=
    fun d hd => sectionStep_runs hd
  cases e with
  | dispatch i =>
    simp only [step, Option.ite_none_right_eq_some, Option.some.injEq] at h
    obtain ⟨⟨hc, hr, hsel⟩, rfl⟩ := h
    exact .dispatch hc hr hsel
  | timer user =>
    simp only [step, Option.ite_none_right_eq_some, Option.some.injEq] at h
    obtain ⟨-, rfl⟩ := h
    exact .timer
  | device addr =>
    simp only [step, Option.some.injEq] at h
    subst h
    exact .device
  | wakeup addr =>
    simp only [step, Option.ite_none_right_eq_some, Option.some.injEq] at h
    obtain ⟨-, rfl⟩ := h
    exact .wakeup
  | kexit status =>
    simp only [step, Option.bind_eq_some_iff, Option.ite_none_right_eq_some,
      Option.some.injEq] at h
    obtain ⟨i, hc, -, rfl⟩ := h
    exact .kexit hc
  | sleepWait =>
    simp only [step, Option.bind_eq_some_iff] at h
    obtain ⟨i, hi, h⟩ := h
    cases sectionStep_runs h with
    | sleep hc => exact .sleep trivial hc
  | allocproc i =>
    cases hsection (.allocproc 0 i) h with
    | allocproc hc hu => exact .allocproc hu
  | allocprocFail i =>
    cases hsection (.allocprocFail 0 i) h with
    | allocprocFail hc hu => exact .allocprocFail hu
  | kforkFail i =>
    cases hsection (.kforkFail 0 i) h with
    | kforkFail hc hu => exact .kforkFail hu
  | kforkParent i =>
    cases hsection (.kforkParent 0 i) h with
    | kforkParent hg => exact .kforkParent
  | kforkRunnable i =>
    cases hsection (.kforkRunnable 0 i) h with
    | kforkRunnable hg => exact .kforkRunnable hg.2.1
  | sleepTicks =>
    cases hsection (.sleep 0 .ticks) h with
    | sleep hc => exact .sleep trivial hc
  | sleepOn addr =>
    cases hsection (.sleep 0 (.other addr)) h with
    | sleep hc => exact .sleep trivial hc
  | kkill pid i =>
    cases hsection (.kkill 0 pid i) h with
    | kkill hg hs => exact .kkill hs
    | kkillAwake hg hs => exact .kkillAwake
  | setkilled =>
    cases hsection (.setkilled 0) h with
    | setkilled hc => exact .setkilled hc
  | kwait i =>
    cases hsection (.kwait 0 i) h with
    | kwait hc hp hz => exact .kwait hz

theorem dispatch_of_step (h : step b k (.dispatch i) = some k') :
    k.cpu 0 = none ∧ (k.proc i).state = .runnable ∧ Selects b k i := by
  simp only [step, Option.ite_none_right_eq_some] at h
  exact h.1

theorem unused_of_allocproc (h : step b k (.allocproc i) = some k') :
    (k.proc i).state = .unused := by
  cases sectionStep_runs (e := .allocproc 0 i) h with
  | allocproc hc hu => exact hu

theorem not_concerns_of_sleeps (h : Sleeps e) : ¬ Concerns x e := by
  cases e <;> simp_all [Sleeps, Concerns]

/-- **Inversion of a step**, as slot `x` sees it. -/
theorem step_change (hk : CpuInv k) (h : step b k e = some k') (x : Slot) :
    StepChange k x e (k'.proc x) := by
  cases step_runs h with
  | @dispatch i hc hr =>
    rw [runProc_proc]
    by_cases hx : x = i
    · subst hx
      rw [Kernel.modify_proc_self]
      exact .run hc hr (dispatched_state _ _) (dispatched_account _ _)
    · rw [Kernel.modify_proc_of_ne _ _ hx]
      exact .spared (Ne.symm hx) (.refl _)
  | timer => exact stepChange_timer hk _ x
  | device => exact .spared id (wakeup_spared b _ _ k x)
  | wakeup => exact .spared id (wakeup_spared b _ _ k x)
  | kexit hc => exact stepChange_kexit hc _ x
  | @allocproc i hu =>
    by_cases hx : x = i
    · subst hx
      exact .create hu (allocproc_state b k x) (allocproc_account b k x)
    · rw [allocproc_proc_of_ne b k hx]
      exact .spared (Ne.symm hx) (.refl _)
  | @allocprocFail i hu =>
    by_cases hx : x = i
    · subst hx
      rw [allocprocFail, Kernel.modify_proc_self]
      exact .abort id hu (freeproc_state b _)
    · rw [allocprocFail, Kernel.modify_proc_of_ne _ _ hx, takeSlot_proc_of_ne k hx]
      exact .spared id (.refl _)
  | @kforkFail i hu =>
    by_cases hx : x = i
    · subst hx
      rw [kforkFail, Kernel.modify_proc_self]
      exact .abort id hu (freeproc_state b _)
    · rw [kforkFail, Kernel.modify_proc_of_ne _ _ hx, allocproc_proc_of_ne b k hx]
      exact .spared id (.refl _)
  | kforkParent => exact .spared id (spared_modify ⟨rfl, .inl rfl⟩ x)
  | @kforkRunnable i hu =>
    by_cases hx : x = i
    · subst hx
      refine .ready hu ?_ (makeRunnable_account b k x x)
      rw [makeRunnable_proc_self]
    · rw [makeRunnable_proc_of_ne b k hx]
      exact .spared id (.refl _)
  | @sleep _ chan i he hc =>
    rw [sleepProc, sched_proc]
    by_cases hx : x = i
    · subst hx
      rw [Kernel.modify_proc_self]
      refine .sleep he hc ?_ ?_ <;> dsimp only <;> split <;> rfl
    · rw [Kernel.modify_proc_of_ne _ _ hx]
      exact .spared (not_concerns_of_sleeps he) (.refl _)
  | @kkill pid i hs =>
    refine .spared id ⟨?_, ?_⟩
    · rw [makeRunnable_account]
      exact (spared_modify (f := fun p => { p with killed := true }) ⟨rfl, .inl rfl⟩ x).account
    · by_cases hx : x = i
      · subst hx
        rw [makeRunnable_proc_self]
        exact .inr ⟨hs, rfl⟩
      · rw [makeRunnable_proc_of_ne _ _ hx, Kernel.modify_proc_of_ne _ _ hx]
        exact .inl rfl
  | kkillAwake => exact .spared id (spared_modify ⟨rfl, .inl rfl⟩ x)
  | setkilled hc => exact .spared id (spared_modify ⟨rfl, .inl rfl⟩ x)
  | @kwait i hz =>
    by_cases hx : x = i
    · subst hx
      rw [Kernel.modify_proc_self]
      exact .free hz (freeproc_state b _)
    · rw [Kernel.modify_proc_of_ne _ _ hx]
      exact .spared (Ne.symm hx) (.refl _)

/-! ## The counters and the other CPUs -/

theorem makeRunnable_nextpid (b : Build) (k : Kernel) (i : Slot) :
    (makeRunnable b k i).nextpid = k.nextpid := by
  unfold makeRunnable
  split <;> rfl

theorem wakeup_nextpid (b : Build) (chan : Chan) (me : Option Slot) (k : Kernel) :
    (wakeup b chan me k).nextpid = k.nextpid := by
  refine List.foldlRecOn (motive := fun m : Kernel => m.nextpid = k.nextpid) slots _ rfl ?_
  intro m hm i _
  rw [← hm]
  unfold wakeupSlot
  split
  · exact makeRunnable_nextpid b m i
  · rfl

theorem reparent_nextpid (b : Build) (p : Slot) (me : Option Slot) (k : Kernel) :
    (slots.foldl (reparentSlot b p me) k).nextpid = k.nextpid := by
  refine List.foldlRecOn (motive := fun m : Kernel => m.nextpid = k.nextpid) slots _ rfl ?_
  intro m hm j _
  rw [← hm]
  unfold reparentSlot
  split
  · exact wakeup_nextpid b _ _ _
  · rfl

theorem yieldProc_nextpid (b : Build) (k : Kernel) (c : ℕ) (i : Slot) :
    (yieldProc b k c i).nextpid = k.nextpid := makeRunnable_nextpid b k i

theorem timerTrap_nextpid (b : Build) (k : Kernel) (user : Bool) :
    (timerTrap b k user).nextpid = k.nextpid := by
  have hclock : (clockintr b k).nextpid = k.nextpid := by
    have hwake : (tickAndWake b k).nextpid = k.nextpid := wakeup_nextpid b _ _ _
    rw [clockintr, updateTimes_eq, boostPoint]
    split
    · rw [mlfqBoost_eq, hwake]
    · rw [hwake]
  have htick : ∀ i, (tickProc b (clockintr b k) i).nextpid = k.nextpid := by
    intro i
    rw [← hclock]
    unfold tickProc mlfqTick
    dsimp only
    split
    · split
      · exact yieldProc_nextpid _ _ _ _
      · split
        · exact yieldProc_nextpid _ _ _ _
        · rfl
    · exact yieldProc_nextpid _ _ _ _
  unfold timerTrap
  split
  · exact hclock
  · split
    · exact hclock
    · exact htick _

theorem step_ticks (h : step b k e = some k') :
    (∃ user, e = .timer user ∧ k'.ticks = (k.ticks + 1) % 2 ^ 32) ∨
      (∀ user, e ≠ .timer user) ∧ k'.ticks = k.ticks := by
  cases step_runs h with
  | timer => exact .inl ⟨_, rfl, timerTrap_ticks b k _⟩
  | device => exact .inr ⟨by simp, wakeup_ticks b _ _ k⟩
  | wakeup => exact .inr ⟨by simp, wakeup_ticks b _ _ k⟩
  | kforkRunnable hu => exact .inr ⟨by simp, makeRunnable_ticks b k _⟩
  | kkill hs => exact .inr ⟨by simp, makeRunnable_ticks b _ _⟩
  | kexit hc =>
    refine .inr ⟨by simp, ?_⟩
    rw [kexit, zombify, sched_ticks, Kernel.modify_ticks, wakeup_ticks, reparent_ticks]
  | sleep he hc =>
    refine .inr ⟨?_, rfl⟩
    rintro user rfl
    exact he
  | _ => exact .inr ⟨by simp, rfl⟩

def DrawsPid : Event → Prop
  | .allocproc _ => True
  | .allocprocFail _ => True
  | .kforkFail _ => True
  | _ => False

instance (e : Event) : Decidable (DrawsPid e) := by
  cases e <;> unfold DrawsPid <;> infer_instance

theorem step_nextpid (h : step b k e = some k') :
    k'.nextpid = if DrawsPid e then k.nextpid + 1 else k.nextpid := by
  cases step_runs h with
  | timer => exact timerTrap_nextpid b k _
  | device => exact wakeup_nextpid b _ _ k
  | wakeup => exact wakeup_nextpid b _ _ k
  | kforkRunnable hu => exact makeRunnable_nextpid b k _
  | kkill hs => exact makeRunnable_nextpid b _ _
  | kexit hc =>
    show (wakeup b _ _ _).nextpid = k.nextpid
    rw [wakeup_nextpid, reparent_nextpid]
  | @sleep e chan i he hc =>
    have hdraws : ¬ DrawsPid e := by cases e <;> simp_all [Sleeps, DrawsPid]
    rw [if_neg hdraws]
    rfl
  | _ => rfl

theorem step_cpu (h : step b k e = some k') {c : ℕ} (hc : c ≠ 0) :
    k'.cpu c = k.cpu c := by
  have hsched : ∀ m : Kernel, (sched m 0).cpu c = m.cpu c :=
    fun m => Function.update_of_ne hc _ _
  cases step_runs h with
  | dispatch => exact Function.update_of_ne hc _ _
  | timer =>
    have hyield : ∀ (b : Build) (m : Kernel) (i : Slot),
        (yieldProc b m 0 i).cpu c = m.cpu c := by
      intro b m i
      rw [yieldProc, hsched, makeRunnable_cpu]
    unfold timerTrap
    split
    · rw [clockintr_cpu]
    · split
      · rw [clockintr_cpu]
      · unfold tickProc mlfqTick
        dsimp only
        split
        · split
          · rw [hyield, Kernel.modify_cpu, clockintr_cpu]
          · split
            · rw [hyield, Kernel.modify_cpu, clockintr_cpu]
            · rw [Kernel.modify_cpu, clockintr_cpu]
        · rw [hyield, clockintr_cpu]
  | device => rw [wakeup_cpu]
  | wakeup => rw [wakeup_cpu]
  | kforkRunnable hu => rw [makeRunnable_cpu]
  | kkill hs => rw [makeRunnable_cpu, Kernel.modify_cpu]
  | kexit hi =>
    have hreparent : ∀ (p : Slot) (me : Option Slot),
        (slots.foldl (reparentSlot b p me) k).cpu = k.cpu := by
      intro p me
      refine List.foldlRecOn (motive := fun m : Kernel => m.cpu = k.cpu) slots _ rfl ?_
      intro m hm j _
      rw [reparentSlot_cpu, hm]
    rw [kexit, zombify, hsched, Kernel.modify_cpu, wakeup_cpu, hreparent]
  | sleep he hi => exact hsched _
  | _ => rfl

/-- A process is `RUNNING` exactly if CPU 0 runs it. -/
def Alone (k : Kernel) : Prop := CpuInv k ∧ ∀ c, c ≠ 0 → k.cpu c = none

theorem Alone.running_iff (h : Alone k) (x : Slot) :
    (k.proc x).state = .running ↔ k.cpu 0 = some x := by
  constructor
  · intro hx
    obtain ⟨c, hc⟩ := h.1.cpu_of_running x hx
    by_cases h0 : c = 0
    · rw [← h0]
      exact hc
    · rw [h.2 c h0] at hc
      cases hc
  · exact h.1.running_of_cpu 0 x

theorem Alone.step (hk : Alone k) (h : step b k e = some k') : Alone k' := by
  have hrun : exec (Xv6.step b) k [e] = some k' := by rwa [exec_singleton]
  refine ⟨exec_step_cpuInv hk.1 hrun, fun c hc => ?_⟩
  rw [step_cpu h hc]
  exact hk.2 c hc

theorem boot_alone (b : Build) : Alone (boot b) := by
  refine ⟨boot_cpuInv b, fun c _ => ?_⟩
  rw [boot, userinit, makeRunnable_cpu]
  rfl

/-! ## The kernel at the start -/

theorem boot_initproc_state (b : Build) : ((boot b).proc initproc).state = .runnable := by
  rw [boot, userinit, makeRunnable_proc_self]

theorem boot_initproc_account (b : Build) :
    ((boot b).proc initproc).account = ⟨1, 0, -1, -1, 0, 0⟩ := by
  rw [boot, userinit, makeRunnable_account, allocproc_account]
  rfl

theorem boot_ticks (b : Build) : (boot b).ticks = 0 := by
  rw [boot, userinit, makeRunnable_ticks]
  rfl

theorem boot_nextpid (b : Build) : (boot b).nextpid = 2 := by
  rw [boot, userinit, makeRunnable_nextpid]
  rfl

end MiniOs.Xv6

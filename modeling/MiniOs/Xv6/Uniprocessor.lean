import Mathlib
import MiniOs.Lib.Loop
import MiniOs.Xv6.Stamps

/-!
# The kernel on one CPU

With `CPUS=1` interrupts are the only source of interleaving, and they are off
while a spinlock is held, inside an interrupt handler, and from the start of the
scheduler's scan until the chosen process runs. The loops of `wakeup`,
`mlfq_boost`, `update_times`, `mlfq_tick` and `scheduler` are therefore single
steps of the CPU. Between two steps the running process may be interrupted.
-/

namespace MiniOs.Xv6

open Trace Loop

variable {i j : Slot}

/-- The slots in the order of `for (p = proc; p < &proc[NPROC]; p++)`. -/
def slots : List Slot := List.finRange NPROC

def wakeup (b : Build) (chan : Chan) (me : Option Slot) (k : Kernel) : Kernel :=
  slots.foldl (wakeupSlot b chan me) k

def mlfqBoost (k : Kernel) : Kernel := slots.foldl boostSlot k

def updateTimes (k : Kernel) : Kernel := slots.foldl timesSlot k

def tickAndWake (b : Build) (k : Kernel) : Kernel :=
  wakeup b .ticks (k.cpu 0) { k with ticks := (k.ticks + 1) % 2 ^ 32 }

def boostPoint (b : Build) (k : Kernel) : Kernel :=
  if b = .mlfq ∧ (tickAndWake b k).ticks % 48 = 0 then mlfqBoost (tickAndWake b k)
  else tickAndWake b k

def clockintr (b : Build) (k : Kernel) : Kernel := updateTimes (boostPoint b k)

/-- The search of `mlfq_tick` for a process in a queue above `myqueue`. -/
def higherWaiting (k : Kernel) (i : Slot) (myqueue : ℕ) : Bool :=
  slots.any (fun j => j ≠ i ∧ (k.proc j).state = .runnable ∧ (k.proc j).queue < myqueue)

def mlfqTick (k : Kernel) (i : Slot) : Kernel :=
  let k₁ := k.modify i chargeTick
  if sliceEnds (k.proc i) then yieldProc .mlfq k₁ 0 i
  else if higherWaiting k₁ i (k₁.proc i).queue then yieldProc .mlfq k₁ 0 i
  else k₁

/-- What `usertrap` and `kerneltrap` do for the interrupted process after a
    timer interrupt. -/
def tickProc (b : Build) (k : Kernel) (i : Slot) : Kernel :=
  if b = .mlfq then mlfqTick k i else yieldProc b k 0 i

/-- The process in slot `i` was interrupted in user mode after it had been
    killed: `usertrap` calls `kexit` instead of charging the tick. -/
def exitsInstead (k : Kernel) (user : Bool) (i : Slot) : Prop :=
  user = true ∧ (k.proc i).killed = true

instance (k : Kernel) (user : Bool) (i : Slot) : Decidable (exitsInstead k user i) :=
  inferInstanceAs (Decidable (_ ∧ _))

/-- A timer interrupt, taken in user mode (`user`), in kernel mode or in the
    idle loop. A killed process interrupted in user mode goes on in `kexit`,
    whose own sections are steps of their own. -/
def timerTrap (b : Build) (k : Kernel) (user : Bool) : Kernel :=
  match k.cpu 0 with
  | none => clockintr b k
  | some i => if exitsInstead k user i then clockintr b k else tickProc b (clockintr b k) i

def reparentSlot (b : Build) (p : Slot) (me : Option Slot) (k : Kernel) (i : Slot) : Kernel :=
  if (k.proc i).parent = some p then
    wakeup b (.proc initproc) me (k.modify i (fun q => { q with parent := some initproc }))
  else k

def parentChan (p : Proc) : Chan :=
  match p.parent with
  | some i => .proc i
  | none => .null

/-- `kexit(status)` from `acquire(&wait_lock)` on. -/
def kexit (b : Build) (k : Kernel) (i : Slot) (status : Int) : Kernel :=
  let k := slots.foldl (reparentSlot b i (some i)) k
  let k := wakeup b (parentChan (k.proc i)) (some i) k
  zombify k 0 i status

/-- The accumulator of the MLFQ scan: `best`, `best_queue` and `best_time`. -/
structure Best where
  best : Option Slot
  queue : ℕ
  time : ℕ
  deriving DecidableEq, Repr

/-- The body of the MLFQ scan. -/
def mlfqVisit (k : Kernel) (a : Best) (i : Slot) : Best :=
  if (k.proc i).state = .runnable ∧ (a.best = none ∨ (k.proc i).queue < a.queue ∨
      ((k.proc i).queue = a.queue ∧ (k.proc i).enqTime < a.time)) then
    ⟨some i, (k.proc i).queue, (k.proc i).enqTime⟩
  else a

/-- The process the MLFQ branch of `scheduler` chooses. -/
def mlfqScan (k : Kernel) : Option Slot := (slots.foldl (mlfqVisit k) ⟨none, 0, 0⟩).best

/-- The body of the FCFS scan. -/
def fcfsVisit (k : Kernel) (best : Option Slot) (i : Slot) : Option Slot :=
  if (k.proc i).state = .runnable ∧ (∀ j ∈ best, (k.proc i).pid < (k.proc j).pid) then some i
  else best

/-- The process the FCFS branch of `scheduler` chooses. -/
def fcfsScan (k : Kernel) : Option Slot := slots.foldl (fcfsVisit k) none

/-- `scheduler` may run slot `i` next. The round-robin branch goes on from the
    slot after the last one; where it stands is left open. -/
def Selects : Build → Kernel → Slot → Prop
  | .mlfq, k, i => mlfqScan k = some i
  | .fcfs, k, i => fcfsScan k = some i
  | .rr, k, i => (k.proc i).state = .runnable

instance (b : Build) (k : Kernel) (i : Slot) : Decidable (Selects b k i) := by
  cases b <;> unfold Selects <;> infer_instance

/-- The steps of the CPU. -/
inductive Event where
  | dispatch (i : Slot)
  | timer (user : Bool)
  | device (addr : ℕ)
  | allocproc (i : Slot)
  | allocprocFail (i : Slot)
  | kforkFail (i : Slot)
  | kforkParent (i : Slot)
  | kforkRunnable (i : Slot)
  | sleepTicks
  | sleepWait
  | sleepOn (addr : ℕ)
  | wakeup (addr : ℕ)
  | kkill (pid : Int) (i : Slot)
  | setkilled
  | kexit (status : Int)
  | kwait (i : Slot)
  deriving DecidableEq, Repr

/-- One step of the CPU. `sleepTicks` is the `sleep` of `sys_pause`, `sleepWait`
    that of `kwait`, `sleepOn` any other. Only `clockintr` wakes `&ticks`. -/
def step (b : Build) (k : Kernel) : Event → Option Kernel
  | .dispatch i =>
    if k.cpu 0 = none ∧ (k.proc i).state = .runnable ∧ Selects b k i then some (runProc k 0 i)
    else none
  | .timer user => if user = true → (k.cpu 0).isSome then some (timerTrap b k user) else none
  | .device addr => some (wakeup b (.other addr) (k.cpu 0) k)
  | .allocproc i => sectionStep b k (.allocproc 0 i)
  | .allocprocFail i => sectionStep b k (.allocprocFail 0 i)
  | .kforkFail i => sectionStep b k (.kforkFail 0 i)
  | .kforkParent i => sectionStep b k (.kforkParent 0 i)
  | .kforkRunnable i => sectionStep b k (.kforkRunnable 0 i)
  | .sleepTicks => sectionStep b k (.sleep 0 .ticks)
  | .sleepWait => (k.cpu 0).bind (fun i => sectionStep b k (.sleep 0 (.proc i)))
  | .sleepOn addr => sectionStep b k (.sleep 0 (.other addr))
  | .wakeup addr =>
    if (k.cpu 0).isSome then some (wakeup b (.other addr) (k.cpu 0) k) else none
  | .kkill pid i => sectionStep b k (.kkill 0 pid i)
  | .setkilled => sectionStep b k (.setkilled 0)
  | .kexit status =>
    (k.cpu 0).bind (fun i => if i ≠ initproc then some (kexit b k i status) else none)
  | .kwait i => sectionStep b k (.kwait 0 i)

variable {b : Build} {k k' : Kernel}

theorem mem_slots (i : Slot) : i ∈ slots := List.mem_finRange i

theorem nodup_slots : slots.Nodup := List.nodup_finRange NPROC

/-- A section that may be part of step `e`: the scheduler's switch, the clock's
    accounting and the creation of a process each belong to one kind of step. -/
def Within (e : Event) : Section → Prop
  | .dispatch _ i => e = .dispatch i
  | .updateTimes _ => ∃ user, e = .timer user
  | .allocproc _ i => e = .allocproc i
  | .kforkFail _ i => e = .kforkFail i
  | _ => True

theorem wakeupSlot_cpu (b : Build) (chan : Chan) (me : Option Slot) (k : Kernel) (i : Slot) :
    (wakeupSlot b chan me k i).cpu = k.cpu := by
  unfold wakeupSlot
  split
  · exact makeRunnable_cpu b k i
  · rfl

theorem wakeup_cpu (b : Build) (chan : Chan) (me : Option Slot) (k : Kernel) :
    (wakeup b chan me k).cpu = k.cpu := by
  refine List.foldlRecOn (motive := fun m : Kernel => m.cpu = k.cpu) slots _ rfl
    (fun m hm i _ => ?_)
  rw [wakeupSlot_cpu, hm]

theorem wakeup_sections (e : Event) (chan : Chan) {me : Option Slot} (hme : k.cpu 0 = me) :
    Reaches (sectionStep b) (Within e) k (wakeup b chan me k) := by
  refine Reaches.foldl (P := fun m => m.cpu 0 = me) ?_ ?_ hme slots
  · intro m i hm
    rw [wakeupSlot_cpu]
    exact hm
  · intro m i hm
    refine .single (e := .wakeup 0 chan i) trivial ?_
    rw [sectionStep, hm]

theorem mlfqBoost_sections (e : Event) :
    Reaches (sectionStep .mlfq) (Within e) k (mlfqBoost k) :=
  Reaches.foldl (P := fun _ => True) (fun _ _ _ => trivial)
    (fun _ i _ => .single (e := .mlfqBoost i) trivial rfl) trivial slots

theorem updateTimes_sections (user : Bool) :
    Reaches (sectionStep b) (Within (.timer user)) k (updateTimes k) :=
  Reaches.foldl (P := fun _ => True) (fun _ _ _ => trivial)
    (fun _ i _ => .single (e := .updateTimes i) ⟨user, rfl⟩ rfl) trivial slots

theorem boostPoint_sections (e : Event) :
    Reaches (sectionStep b) (Within e) k (boostPoint b k) := by
  have hclock : Reaches (sectionStep b) (Within e) k
      { k with ticks := (k.ticks + 1) % 2 ^ 32 } := .single (e := .clock) trivial rfl
  have hwake : Reaches (sectionStep b) (Within e) k (tickAndWake b k) :=
    hclock.trans (wakeup_sections e .ticks rfl)
  unfold boostPoint
  split
  · next h =>
    obtain ⟨rfl, -⟩ := h
    exact hwake.trans (mlfqBoost_sections e)
  · exact hwake

theorem foldl_modify (f : Proc → Proc) (k : Kernel) :
    slots.foldl (fun k i => k.modify i f) k = { k with proc := fun x => f (k.proc x) } := by
  apply Kernel.ext
  · funext x
    exact foldl_get (R := fun _ p q => q = f p) (fun k i => k.modify_proc_self i f)
      (fun k _ _ h => k.modify_proc_of_ne f h) nodup_slots (mem_slots x) k
  · exact List.foldlRecOn (motive := fun m : Kernel => m.nextpid = k.nextpid) slots _ rfl
      (fun _ hm _ _ => hm)
  · exact List.foldlRecOn (motive := fun m : Kernel => m.ticks = k.ticks) slots _ rfl
      (fun _ hm _ _ => hm)
  · exact List.foldlRecOn (motive := fun m : Kernel => m.mlfqSeq = k.mlfqSeq) slots _ rfl
      (fun _ hm _ _ => hm)
  · exact List.foldlRecOn (motive := fun m : Kernel => m.cpu = k.cpu) slots _ rfl
      (fun _ hm _ _ => hm)

theorem mlfqBoost_eq (k : Kernel) :
    mlfqBoost k = { k with proc := fun x => boostProc (k.proc x) } := foldl_modify boostProc k

theorem updateTimes_eq (k : Kernel) :
    updateTimes k = { k with proc := fun x => timesProc (k.proc x) } := foldl_modify timesProc k

theorem tickAndWake_cpu (b : Build) (k : Kernel) : (tickAndWake b k).cpu = k.cpu :=
  wakeup_cpu b .ticks (k.cpu 0) _

theorem boostPoint_cpu (b : Build) (k : Kernel) : (boostPoint b k).cpu = k.cpu := by
  unfold boostPoint
  split
  · rw [mlfqBoost_eq, tickAndWake_cpu]
  · rw [tickAndWake_cpu]

@[simp] theorem clockintr_cpu (b : Build) (k : Kernel) : (clockintr b k).cpu = k.cpu := by
  rw [clockintr, updateTimes_eq, boostPoint_cpu]

theorem yieldProc_sections (e : Event) (hc : k.cpu 0 = some i) :
    Reaches (sectionStep b) (Within e) k (yieldProc b k 0 i) := by
  refine .single (e := .yield 0) trivial ?_
  rw [sectionStep, hc, Option.map_some]

theorem mlfqTick_sections (e : Event) (hc : k.cpu 0 = some i) :
    Reaches (sectionStep .mlfq) (Within e) k (mlfqTick k i) := by
  have hcharge : Reaches (sectionStep .mlfq) (Within e) k (k.modify i chargeTick) := by
    refine .single (e := .mlfqTick 0) trivial ?_
    simp [sectionStep, hc]
  have hyield := hcharge.trans (yieldProc_sections e (i := i) hc)
  unfold mlfqTick
  dsimp only
  split
  · exact hyield
  · split
    · exact hyield
    · exact hcharge

theorem tickProc_sections (e : Event) (hc : k.cpu 0 = some i) :
    Reaches (sectionStep b) (Within e) k (tickProc b k i) := by
  unfold tickProc
  split
  · next hb =>
    subst hb
    exact mlfqTick_sections e hc
  · exact yieldProc_sections e hc

/-- What runs between the return of `mlfq_boost` and the end of the interrupt. -/
theorem timerTrap_sections_of_boostPoint (user : Bool) :
    Reaches (sectionStep b) (Within (.timer user)) (boostPoint b k) (timerTrap b k user) := by
  have htimes : Reaches (sectionStep b) (Within (.timer user)) (boostPoint b k) (clockintr b k) :=
    updateTimes_sections user
  unfold timerTrap
  split
  · exact htimes
  · next i hc =>
    split
    · exact htimes
    · exact htimes.trans (tickProc_sections _ (by rw [clockintr_cpu, hc]))

theorem timerTrap_sections (user : Bool) :
    Reaches (sectionStep b) (Within (.timer user)) k (timerTrap b k user) :=
  (boostPoint_sections _).trans (timerTrap_sections_of_boostPoint user)

theorem reparentSlot_cpu (b : Build) (p : Slot) (me : Option Slot) (k : Kernel) (i : Slot) :
    (reparentSlot b p me k i).cpu = k.cpu := by
  unfold reparentSlot
  split
  · exact wakeup_cpu b _ me _
  · rfl

theorem reparentSlot_sections (e : Event) {p : Slot} (hc : k.cpu 0 = some p) (i : Slot) :
    Reaches (sectionStep b) (Within e) k (reparentSlot b p (some p) k i) := by
  unfold reparentSlot
  split
  · next hp =>
    have hset : Reaches (sectionStep b) (Within e) k
        (k.modify i (fun q => { q with parent := some initproc })) := by
      refine .single (e := .reparent 0 i) trivial ?_
      simp [sectionStep, hc, hp]
    exact hset.trans (wakeup_sections e _ hc)
  · exact .refl k

theorem kexit_sections (e : Event) (hc : k.cpu 0 = some i) (hi : i ≠ initproc) (status : Int) :
    Reaches (sectionStep b) (Within e) k (kexit b k i status) := by
  let k₁ := slots.foldl (reparentSlot b i (some i)) k
  have hcpu : k₁.cpu = k.cpu := by
    refine List.foldlRecOn (motive := fun m : Kernel => m.cpu = k.cpu) slots _ rfl
      (fun m hm j _ => ?_)
    rw [reparentSlot_cpu, hm]
  have hchildren : Reaches (sectionStep b) (Within e) k k₁ := by
    refine Reaches.foldl (P := fun m => m.cpu 0 = some i) ?_ ?_ hc slots
    · intro m j hm
      rw [reparentSlot_cpu]
      exact hm
    · intro m j hm
      exact reparentSlot_sections e hm j
  have hparent := hchildren.trans
    (wakeup_sections (b := b) e (parentChan (k₁.proc i)) (by rw [hcpu, hc]))
  refine hparent.trans (.single (e := .kexit 0 status) trivial ?_)
  simp [sectionStep, wakeup_cpu, hcpu, hc, hi, kexit, k₁]

/-- **Refinement**: every step of the CPU is a run of sections. -/
theorem step_sections {e : Event} (h : step b k e = some k') :
    Reaches (sectionStep b) (Within e) k k' := by
  cases e with
  | dispatch i =>
    simp only [step, Option.ite_none_right_eq_some, Option.some.injEq] at h
    obtain ⟨⟨hc, hr, -⟩, rfl⟩ := h
    refine .single (e := .dispatch 0 i) rfl ?_
    rw [sectionStep, if_pos ⟨hc, hr⟩]
  | timer user =>
    simp only [step, Option.ite_none_right_eq_some, Option.some.injEq] at h
    obtain ⟨-, rfl⟩ := h
    exact timerTrap_sections user
  | device addr =>
    simp only [step, Option.some.injEq] at h
    subst h
    exact wakeup_sections _ _ rfl
  | wakeup addr =>
    simp only [step, Option.ite_none_right_eq_some, Option.some.injEq] at h
    obtain ⟨-, rfl⟩ := h
    exact wakeup_sections _ _ rfl
  | sleepWait =>
    simp only [step, Option.bind_eq_some_iff] at h
    obtain ⟨i, -, h⟩ := h
    exact .single (e := .sleep 0 (.proc i)) trivial h
  | kexit status =>
    simp only [step, Option.bind_eq_some_iff, Option.ite_none_right_eq_some,
      Option.some.injEq] at h
    obtain ⟨i, hc, hi, rfl⟩ := h
    exact kexit_sections _ hc hi status
  | allocproc i => exact .single (e := .allocproc 0 i) rfl h
  | allocprocFail i => exact .single (e := .allocprocFail 0 i) trivial h
  | kforkFail i => exact .single (e := .kforkFail 0 i) rfl h
  | kforkParent i => exact .single (e := .kforkParent 0 i) trivial h
  | kforkRunnable i => exact .single (e := .kforkRunnable 0 i) trivial h
  | sleepTicks => exact .single (e := .sleep 0 .ticks) trivial h
  | sleepOn addr => exact .single (e := .sleep 0 (.other addr)) trivial h
  | kkill pid i => exact .single (e := .kkill 0 pid i) trivial h
  | setkilled => exact .single (e := .setkilled 0) trivial h
  | kwait i => exact .single (e := .kwait 0 i) trivial h

/-- Every run of the CPU is a run of sections; `R` is a property of all sections
    that its events may contain. -/
theorem exec_sections {es : List Event} {R : Section → Prop}
    (hR : ∀ e ∈ es, ∀ d, Within e d → R d) (h : exec (step b) k es = some k') :
    Reaches (sectionStep b) R k k' := by
  have hstep : ∀ s e t, step b s e = some t → Reaches (sectionStep b) (Within e) s t :=
    fun s e t hst => step_sections hst
  exact exec_simulates hstep hR h

theorem exec_step_cpuInv {es : List Event} (hk : CpuInv k) (h : exec (step b) k es = some k') :
    CpuInv k' := by
  have hfine : Reaches (sectionStep b) (fun _ => True) k k' :=
    exec_sections (fun _ _ _ _ => trivial) h
  exact hfine.invariant (fun _ _ _ hI _ hs => sectionStep_cpuInv hI hs) hk

/-- Process `p` in slot `x` sleeps on `chan` and is not the caller of `wakeup`. -/
def WokenBy (chan : Chan) (me : Option Slot) (x : Slot) (p : Proc) : Prop :=
  me ≠ some x ∧ p.state = .sleeping ∧ p.chan = chan

instance (chan : Chan) (me : Option Slot) (x : Slot) (p : Proc) :
    Decidable (WokenBy chan me x p) := inferInstanceAs (Decidable (_ ∧ _ ∧ _))

theorem wakeup_proc (b : Build) (chan : Chan) (me : Option Slot) (k : Kernel) (x : Slot) :
    ∃ t, (wakeup b chan me k).proc x =
      if WokenBy chan me x (k.proc x) then
        { k.proc x with state := .runnable, enqTime := t }
      else k.proc x := by
  refine foldl_get (g := Kernel.proc) (R := fun x p q => ∃ t, q =
    if WokenBy chan me x p then { p with state := .runnable, enqTime := t } else p)
    ?_ ?_ nodup_slots (mem_slots x) k
  · intro k i
    by_cases hw : WokenBy chan me i (k.proc i)
    · have hslot : wakeupSlot b chan me k i = makeRunnable b k i := if_pos hw
      exact ⟨_, by rw [hslot, if_pos hw, makeRunnable_proc_self]⟩
    · have hslot : wakeupSlot b chan me k i = k := if_neg hw
      exact ⟨0, by rw [hslot, if_neg hw]⟩
  · intro k i y hy
    unfold wakeupSlot
    split
    · exact makeRunnable_proc_of_ne b k hy
    · rfl

theorem wakeup_eq_self {chan : Chan} {me : Option Slot}
    (h : ∀ i, ¬ WokenBy chan me i (k.proc i)) : wakeup b chan me k = k := by
  refine List.foldlRecOn (motive := fun m : Kernel => m = k) slots _ rfl ?_
  rintro m rfl i -
  exact if_neg (h i)

/-- `clockintr` before the boost at one slot, up to the stamp drawn. -/
theorem tickAndWake_proc (b : Build) (k : Kernel) (x : Slot) :
    ∃ t, (tickAndWake b k).proc x =
      if WokenBy .ticks (k.cpu 0) x (k.proc x) then
        { k.proc x with state := .runnable, enqTime := t }
      else k.proc x :=
  wakeup_proc b .ticks (k.cpu 0) { k with ticks := (k.ticks + 1) % 2 ^ 32 } x

theorem wakeup_ticks (b : Build) (chan : Chan) (me : Option Slot) (k : Kernel) :
    (wakeup b chan me k).ticks = k.ticks := by
  refine List.foldlRecOn (motive := fun m : Kernel => m.ticks = k.ticks) slots _ rfl ?_
  intro m hm i _
  rw [← hm]
  unfold wakeupSlot
  split
  · exact makeRunnable_ticks b m i
  · rfl

theorem tickAndWake_ticks (b : Build) (k : Kernel) :
    (tickAndWake b k).ticks = (k.ticks + 1) % 2 ^ 32 := wakeup_ticks b .ticks (k.cpu 0) _

theorem clockintr_ticks (b : Build) (k : Kernel) :
    (clockintr b k).ticks = (k.ticks + 1) % 2 ^ 32 := by
  rw [clockintr, updateTimes_eq, boostPoint]
  split
  · rw [mlfqBoost_eq, tickAndWake_ticks]
  · rw [tickAndWake_ticks]

/-- After a boost every live process is in queue 0 with a fresh slice. -/
theorem boostPoint_fresh {x : Slot} (hboost : (k.ticks + 1) % 2 ^ 32 % 48 = 0)
    (hx : ((boostPoint .mlfq k).proc x).state ≠ .unused) :
    ((boostPoint .mlfq k).proc x).queue = 0 ∧ ((boostPoint .mlfq k).proc x).ticksUsed = 0 := by
  rw [← tickAndWake_ticks .mlfq] at hboost
  rw [boostPoint, if_pos ⟨rfl, hboost⟩, mlfqBoost_eq] at hx ⊢
  refine boostProc_fresh ?_
  rw [← boostProc_state]
  exact hx

theorem clockintr_proc (b : Build) (k : Kernel) (x : Slot) :
    ((clockintr b k).proc x).state = ((boostPoint b k).proc x).state ∧
    ((clockintr b k).proc x).queue = ((boostPoint b k).proc x).queue ∧
    ((clockintr b k).proc x).ticksUsed = ((boostPoint b k).proc x).ticksUsed := by
  rw [clockintr, updateTimes_eq]
  dsimp only
  rw [timesProc_eq]
  exact ⟨rfl, rfl, rfl⟩

theorem clockintr_cpuInv (hk : CpuInv k) : CpuInv (clockintr b k) := by
  have hsections : Reaches (sectionStep b) (Within (.timer false)) k (clockintr b k) :=
    (boostPoint_sections _).trans (updateTimes_sections false)
  exact hsections.invariant (fun _ _ _ hI _ hs => sectionStep_cpuInv hI hs) hk

theorem yieldProc_ticks (b : Build) (k : Kernel) (c : ℕ) (i : Slot) :
    (yieldProc b k c i).ticks = k.ticks := by
  rw [yieldProc, sched_ticks, makeRunnable_ticks]

theorem tickProc_ticks (b : Build) (k : Kernel) (i : Slot) :
    (tickProc b k i).ticks = k.ticks := by
  unfold tickProc mlfqTick
  dsimp only
  split
  · split
    · rw [yieldProc_ticks, Kernel.modify_ticks]
    · split
      · rw [yieldProc_ticks, Kernel.modify_ticks]
      · rw [Kernel.modify_ticks]
  · rw [yieldProc_ticks]

theorem timerTrap_ticks (b : Build) (k : Kernel) (user : Bool) :
    (timerTrap b k user).ticks = (k.ticks + 1) % 2 ^ 32 := by
  unfold timerTrap
  split
  · exact clockintr_ticks b k
  · split
    · exact clockintr_ticks b k
    · rw [tickProc_ticks, clockintr_ticks]

/-- The place of a slot in the ready queues: first the queue number, then the
    arrival stamp. -/
def place (k : Kernel) (i : Slot) : ℕ ×ₗ ℕ := toLex ((k.proc i).queue, (k.proc i).enqTime)

theorem place_lt_place : place k i < place k j ↔
    (k.proc i).queue < (k.proc j).queue ∨
      (k.proc i).queue = (k.proc j).queue ∧ (k.proc i).enqTime < (k.proc j).enqTime :=
  Prod.Lex.toLex_lt_toLex

theorem place_le_place : place k i ≤ place k j ↔
    (k.proc i).queue < (k.proc j).queue ∨
      (k.proc i).queue = (k.proc j).queue ∧ (k.proc i).enqTime ≤ (k.proc j).enqTime :=
  Prod.Lex.toLex_le_toLex

/-- The cached queue and stamp of the MLFQ scan are those of its candidate. -/
def Best.Cached (k : Kernel) (a : Best) : Prop :=
  ∀ i, a.best = some i → a.queue = (k.proc i).queue ∧ a.time = (k.proc i).enqTime

theorem mlfqVisit_cached (k : Kernel) (a : Best) (i : Slot) (ha : a.Cached k) :
    (mlfqVisit k a i).Cached k := by
  unfold mlfqVisit
  split
  · rintro j ⟨rfl⟩
    exact ⟨rfl, rfl⟩
  · exact ha

theorem mlfqVisit_best (k : Kernel) (a : Best) (i : Slot) (ha : a.Cached k) :
    (mlfqVisit k a i).best = if decide (Waiting k i) then
      List.argAux (fun x y => place k x < place k y) a.best i else a.best := by
  obtain ⟨best, queue, time⟩ := a
  by_cases hw : Waiting k i
  · have hr : (k.proc i).state = .runnable := hw
    cases best with
    | none => simp [mlfqVisit, hr, hw, List.argAux]
    | some j =>
      obtain ⟨rfl, rfl⟩ := ha j rfl
      by_cases hlt : place k i < place k j
      · have hvisit := place_lt_place.mp hlt
        simp [mlfqVisit, hr, hw, List.argAux, hlt, hvisit]
      · have hvisit := mt place_lt_place.mpr hlt
        simp [mlfqVisit, hr, hw, List.argAux, hlt, hvisit]
  · have hr : ¬ (k.proc i).state = .runnable := hw
    simp [mlfqVisit, hr, hw]

/-- The MLFQ scan finds the front of the highest non-empty queue. -/
theorem mlfqScan_eq_argmin (k : Kernel) :
    mlfqScan k = (slots.filter (fun i => Waiting k i)).argmin (place k) := by
  have hinit : Best.Cached k ⟨none, 0, 0⟩ := by
    intro i hi
    cases hi
  exact foldl_best (mlfqVisit_cached k) (mlfqVisit_best k) hinit rfl slots

theorem fcfsScan_eq_argmin (k : Kernel) :
    fcfsScan k = (slots.filter (fun i => Waiting k i)).argmin (fun i => (k.proc i).pid) := by
  refine foldl_best (o := id) (I := fun _ => True) (fun _ _ _ => trivial) ?_ trivial rfl slots
  intro best i _
  by_cases hw : Waiting k i
  · have hr : (k.proc i).state = .runnable := hw
    cases best <;> simp [fcfsVisit, hr, hw, List.argAux]
  · have hr : ¬ (k.proc i).state = .runnable := hw
    simp [fcfsVisit, hr, hw]

theorem waiting_of_mlfqScan (h : mlfqScan k = some i) : Waiting k i := by
  rw [mlfqScan_eq_argmin] at h
  have hmem := List.argmin_mem h
  simpa using (List.mem_filter.mp hmem).2

theorem place_le_of_mlfqScan (h : mlfqScan k = some i) (hj : Waiting k j) :
    place k i ≤ place k j := by
  rw [mlfqScan_eq_argmin] at h
  refine List.le_of_mem_argmin (List.mem_filter.mpr ⟨mem_slots j, ?_⟩) h
  simpa using hj

theorem exists_mlfqScan (hj : Waiting k j) : ∃ i, mlfqScan k = some i := by
  rw [← Option.ne_none_iff_exists', mlfqScan_eq_argmin, ne_eq, List.argmin_eq_none]
  intro hnil
  have hmem : j ∈ slots.filter (fun i => Waiting k i) :=
    List.mem_filter.mpr ⟨mem_slots j, by simpa using hj⟩
  rw [hnil] at hmem
  cases hmem

theorem mlfqScan_of_dispatch {x : Slot}
    (h : step .mlfq k (.dispatch x) = some k') :
    mlfqScan k = some x ∧ k' = runProc k 0 x := by
  simp only [step, Option.ite_none_right_eq_some, Option.some.injEq] at h
  obtain ⟨⟨-, -, hscan⟩, rfl⟩ := h
  exact ⟨hscan, rfl⟩

theorem not_waiting_runProc (k : Kernel) (c : ℕ) (x : Slot) : ¬ Waiting (runProc k c x) x := by
  intro hw
  rw [Waiting, runProc_proc, Kernel.modify_proc_self, dispatched_state] at hw
  cases hw

/-- The kernel after `n` timer interrupts that all arrive before `init` is first
    dispatched: `init` waits in queue 0 and nothing else happens. -/
def idleBoot (n : ℕ) : Kernel :=
  { (boot .mlfq).modify initproc (fun p => { p with wtime := n }) with ticks := n }

theorem idleBoot_proc_init (n : ℕ) : (idleBoot n).proc initproc =
    { (boot .mlfq).proc initproc with wtime := n } := by
  simp [idleBoot]

theorem idleBoot_proc_of_ne (n : ℕ) {x : Slot} (h : x ≠ initproc) :
    (idleBoot n).proc x = zeroProc := by
  simp [idleBoot, Kernel.modify_proc_of_ne _ _ h, boot_proc_of_ne .mlfq h]

theorem idleBoot_zero : idleBoot 0 = boot .mlfq := by
  apply Kernel.ext
  · funext x
    by_cases hx : x = initproc
    · subst hx
      rw [idleBoot_proc_init]
      rfl
    · simp [idleBoot, Kernel.modify_proc_of_ne _ _ hx]
  all_goals rfl

theorem timerTrap_idleBoot {n : ℕ} (hn : n + 1 < 2 ^ 32) :
    timerTrap .mlfq (idleBoot n) false = idleBoot (n + 1) := by
  have hsleep : ∀ i, ¬ WokenBy .ticks none i ((idleBoot n).proc i) := by
    rintro i ⟨-, hs, -⟩
    by_cases hi : i = initproc
    · subst hi
      rw [idleBoot_proc_init] at hs
      cases hs
    · rw [idleBoot_proc_of_ne n hi] at hs
      cases hs
  have hwake : tickAndWake .mlfq (idleBoot n) =
      { idleBoot n with ticks := (n + 1) % 2 ^ 32 } := wakeup_eq_self hsleep
  rw [Nat.mod_eq_of_lt hn] at hwake
  -- boosting processes that are in queue 0 already changes nothing
  have hboost : boostPoint .mlfq (idleBoot n) = { idleBoot n with ticks := n + 1 } := by
    rw [boostPoint, hwake]
    split
    · rw [mlfqBoost_eq]
      apply Kernel.ext
      · funext x
        by_cases hx : x = initproc
        · subst hx
          change boostProc ((idleBoot n).proc initproc) = (idleBoot n).proc initproc
          rw [idleBoot_proc_init]
          rfl
        · change boostProc ((idleBoot n).proc x) = (idleBoot n).proc x
          rw [idleBoot_proc_of_ne n hx]
          rfl
      all_goals rfl
    · rfl
  change clockintr .mlfq (idleBoot n) = _
  rw [clockintr, hboost, updateTimes_eq]
  apply Kernel.ext
  · funext x
    by_cases hx : x = initproc
    · subst hx
      change timesProc ((idleBoot n).proc initproc) = _
      rw [idleBoot_proc_init, idleBoot_proc_init]
      simp [timesProc, boot, userinit, makeRunnable_proc_self]
    · change timesProc ((idleBoot n).proc x) = _
      rw [idleBoot_proc_of_ne n hx, idleBoot_proc_of_ne (n + 1) hx]
      rfl
  all_goals rfl

theorem step_idleBoot {n : ℕ} (hn : n + 1 < 2 ^ 32) :
    step .mlfq (idleBoot n) (.timer false) = some (idleBoot (n + 1)) := by
  rw [← timerTrap_idleBoot hn]
  rfl

theorem exec_idleBoot {n : ℕ} (hn : n < 2 ^ 32) :
    exec (step .mlfq) (boot .mlfq) (List.replicate n (.timer false)) = some (idleBoot n) := by
  induction n with
  | zero => rw [idleBoot_zero, List.replicate_zero, exec_nil]
  | succ n ih =>
    rw [List.replicate_succ', exec_concat_eq_some]
    exact ⟨idleBoot n, ih (by omega), step_idleBoot hn⟩

end MiniOs.Xv6

import Mathlib
import MiniOs.Xv6.SlotSteps

/-!
# First come, first served

The FCFS scheduler takes the `RUNNABLE` process with the smallest pid for the one that
arrived first. Slots are reused in any order, a fork may fail after it has drawn its pid,
and the running process goes back to `RUNNABLE` at every tick, so the order of the pids
has to be related to the order of the `allocproc` calls over whole runs.

`nextpid` is an integer here. A run with fewer than `2^31 - 1` calls of `allocproc` stays in
the range of `int`, since the pid of a process is the number of its call.
-/

namespace MiniOs.Xv6

open Trace

/-- The calls of `allocproc` so far, and the one that created the process of each slot. -/
structure Births where
  calls : ℕ
  born : Slot → ℕ

/-- Call 0 created `init`. -/
def Births.start : Births := ⟨1, fun _ => 0⟩

/-- The observer. Calls that fail are counted too. -/
def noteBirth (_ : Kernel) : Event → Births → Births
  | .allocproc i, g => ⟨g.calls + 1, Function.update g.born i g.calls⟩
  | .allocprocFail _, g => { g with calls := g.calls + 1 }
  | .kforkFail _, g => { g with calls := g.calls + 1 }
  | _, g => g

/-- What the observer knows after the run `es`. -/
def births (b : Build) (es : List Event) : Births :=
  observe (step b) noteBirth (boot b) Births.start es

/-- The process in slot `i` does not go to sleep or exit in step `e`. -/
def KeepsCpu (i : Slot) (k : Kernel) (e : Event) : Prop :=
  k.cpu 0 = some i → ¬ Sleeps e ∧ ∀ status, e ≠ .kexit status

/-- The pids are the numbers of the calls, counted from 1. -/
structure BirthInv (k : Kernel) (g : Births) : Prop where
  alone : Alone k
  nextpid_eq : k.nextpid = g.calls + 1
  pid_eq : ∀ x, (k.proc x).state ≠ .unused → (k.proc x).pid = g.born x + 1
  born_lt : ∀ x, (k.proc x).state ≠ .unused → g.born x < g.calls
  born_ne : ∀ x y, (k.proc x).state ≠ .unused → (k.proc y).state ≠ .unused → x ≠ y →
    g.born x ≠ g.born y

variable {b : Build} {k k' : Kernel} {e : Event} {g : Births} {i j x y : Slot}

/-! ## Pids and calls -/

theorem noteBirth_calls (k : Kernel) (e : Event) (g : Births) :
    (noteBirth k e g).calls = if DrawsPid e then g.calls + 1 else g.calls := by
  cases e <;> rfl

theorem noteBirth_born_self (k : Kernel) (x : Slot) (g : Births) :
    (noteBirth k (.allocproc x) g).born x = g.calls := Function.update_self _ _ _

theorem noteBirth_born_of_ne (k : Kernel) (g : Births) (he : e ≠ .allocproc x) :
    (noteBirth k e g).born x = g.born x := by
  cases e with
  | allocproc i =>
    have hx : x ≠ i := by
      rintro rfl
      exact he rfl
    exact Function.update_of_ne hx _ _
  | _ => rfl

/-- A process that lives after a step was created by it, or lived before with the same pid. -/
theorem pid_of_step (hk : CpuInv k) (h : step b k e = some k')
    (hlive : (k'.proc x).state ≠ .unused) :
    e = .allocproc x ∧ (k'.proc x).pid = k.nextpid ∨
      e ≠ .allocproc x ∧ (k.proc x).state ≠ .unused ∧ (k'.proc x).pid = (k.proc x).pid := by
  have hpid : ∀ {q : Proc} {a : Account}, q.account = a → q.pid = a.pid :=
    fun h => congrArg Account.pid h
  generalize hq : k'.proc x = q at hlive
  have hchange := hq ▸ step_change hk h x
  cases hchange with
  | spared he hs =>
    refine .inr ⟨fun heq => he (heq ▸ rfl), fun hu => ?_, hpid hs.account⟩
    have := hs.state
    simp_all
  | create hu hs ha => exact .inl ⟨rfl, hpid ha⟩
  | abort he hu hs => exact absurd hs hlive
  | ready hu hs ha => exact .inr ⟨by simp, by simp [hu], hpid ha⟩
  | sleep he hc hs ha =>
    refine .inr ⟨fun heq => ?_, by simp [hk.running_of_cpu 0 x hc], hpid ha⟩
    rw [heq] at he
    exact he
  | exit hc hs ha => exact .inr ⟨by simp, by simp [hk.running_of_cpu 0 x hc], hpid ha⟩
  | free hz hs => exact absurd hs hlive
  | run hc hr hs ha => exact .inr ⟨by simp, by simp [hr], hpid ha⟩
  | @tick user _ s hs ha hstate =>
    refine .inr ⟨by simp, by grind, (hpid ha).trans ?_⟩
    cases s <;> rfl

/-- **A step keeps pids and calls together.** -/
theorem birthInv_of_step (hI : BirthInv k g) (h : step b k e = some k') :
    BirthInv k' (noteBirth k e g) := by
  have hcalls := noteBirth_calls k e g
  have hle : g.calls ≤ (noteBirth k e g).calls := by
    rw [hcalls]
    split <;> omega
  have hcreate : ∀ {x : Slot}, e = .allocproc x → (noteBirth k e g).calls = g.calls + 1 ∧
      (noteBirth k e g).born x = g.calls := by
    rintro x rfl
    exact ⟨rfl, noteBirth_born_self k x g⟩
  refine ⟨hI.alone.step h, ?_, fun x hx => ?_, fun x hx => ?_, fun x y hx hy hne => ?_⟩
  · rw [step_nextpid h, hcalls, hI.nextpid_eq]
    split <;> push_cast <;> rfl
  · obtain ⟨he, hpid⟩ | ⟨he, hlive, hpid⟩ := pid_of_step hI.alone.1 h hx
    · rw [hpid, (hcreate he).2, hI.nextpid_eq]
    · rw [hpid, noteBirth_born_of_ne k g he, hI.pid_eq x hlive]
  · obtain ⟨he, -⟩ | ⟨he, hlive, -⟩ := pid_of_step hI.alone.1 h hx
    · have := hcreate he
      omega
    · rw [noteBirth_born_of_ne k g he]
      exact Nat.lt_of_lt_of_le (hI.born_lt x hlive) hle
  · -- a new process is younger than all others
    obtain ⟨he, -⟩ | ⟨he, hlive, -⟩ := pid_of_step hI.alone.1 h hx
    · obtain ⟨he', -⟩ | ⟨he', hlive', -⟩ := pid_of_step hI.alone.1 h hy
      · rw [he] at he'
        exact absurd (Event.allocproc.inj he') hne
      · have := hI.born_lt y hlive'
        rw [(hcreate he).2, noteBirth_born_of_ne k g he']
        omega
    · obtain ⟨he', -⟩ | ⟨he', hlive', -⟩ := pid_of_step hI.alone.1 h hy
      · have := hI.born_lt x hlive
        rw [(hcreate he').2, noteBirth_born_of_ne k g he]
        omega
      · rw [noteBirth_born_of_ne k g he, noteBirth_born_of_ne k g he']
        exact hI.born_ne x y hlive hlive' hne

theorem boot_birthInv (b : Build) : BirthInv (boot b) Births.start := by
  have hinit : ∀ {x : Slot}, ((boot b).proc x).state ≠ .unused → x = initproc := by
    intro x hx
    by_contra hne
    rw [boot_proc_of_ne b hne] at hx
    exact hx rfl
  refine ⟨boot_alone b, boot_nextpid b, fun x hx => ?_, fun x _ => Nat.zero_lt_one,
    fun x y hx hy hne => ?_⟩
  · rw [hinit hx]
    exact congrArg Account.pid (boot_initproc_account b)
  · exact absurd ((hinit hx).trans (hinit hy).symm) hne

theorem exec_birthInv {es : List Event} (h : exec (step b) (boot b) es = some k) :
    BirthInv k (births b es) := by
  have hok : Guarded (step b) (fun _ _ => True) (boot b) es :=
    guarded_of_forall (fun _ _ => trivial) (boot b) es
  have hstep : ∀ k g e k', BirthInv k g → True → step b k e = some k' →
      BirthInv k' (noteBirth k e g) := fun _ _ _ _ hI _ h => birthInv_of_step hI h
  exact observe_invariant hstep (boot_birthInv b) hok h

/-! ## The choice -/

theorem mem_waiting (hj : (k.proc j).state = .runnable) :
    j ∈ slots.filter (fun i => Waiting k i) :=
  List.mem_filter.mpr ⟨List.mem_finRange j, decide_eq_true hj⟩

theorem fcfsScan_spec (h : fcfsScan k = some i) :
    (k.proc i).state = .runnable ∧
      ∀ j, (k.proc j).state = .runnable → (k.proc i).pid ≤ (k.proc j).pid := by
  rw [fcfsScan_eq_argmin] at h
  have hmem := List.argmin_mem (Option.mem_def.mpr h)
  exact ⟨of_decide_eq_true (List.mem_filter.mp hmem).2, fun j hj =>
    List.le_of_mem_argmin (f := fun i => (k.proc i).pid) (mem_waiting hj) (Option.mem_def.mpr h)⟩

theorem fcfsScan_isSome (hj : (k.proc j).state = .runnable) : ∃ i, fcfsScan k = some i := by
  rw [← Option.isSome_iff_exists, ← Option.ne_none_iff_isSome, fcfsScan_eq_argmin]
  intro hnone
  rw [List.argmin_eq_none] at hnone
  have hmem := mem_waiting hj
  rw [hnone] at hmem
  cases hmem

theorem dispatch_isSome_iff (hc : k.cpu 0 = none) :
    (step .fcfs k (.dispatch i)).isSome ↔ fcfsScan k = some i := by
  constructor
  · intro h
    obtain ⟨k', h⟩ := Option.isSome_iff_exists.mp h
    exact (dispatch_of_step h).2.2
  · intro h
    have hguard : k.cpu 0 = none ∧ (k.proc i).state = .runnable ∧ Selects .fcfs k i :=
      ⟨hc, (fcfsScan_spec h).1, h⟩
    simp [step, hguard]

/-- A dispatched process is older than every other `RUNNABLE` one. -/
theorem born_lt_of_dispatch (hI : BirthInv k g) (h : step .fcfs k (.dispatch i) = some k')
    (hne : j ≠ i) (hj : (k.proc j).state = .runnable) : g.born i < g.born j := by
  obtain ⟨-, hr, hsel⟩ := dispatch_of_step h
  have hi : (k.proc i).state ≠ .unused := by simp [hr]
  have hj' : (k.proc j).state ≠ .unused := by simp [hj]
  have hle := (fcfsScan_spec hsel).2 j hj
  rw [hI.pid_eq i hi, hI.pid_eq j hj'] at hle
  have := hI.born_ne j i hj' hi hne
  omega

/-! ## From a dispatch to the next sleep or exit -/

/-- A process that has the CPU or waits for it goes on doing so until it sleeps or exits. -/
theorem keepsCpu_of_step (hk : Alone k) (h : step b k e = some k') (hkeep : KeepsCpu i k e)
    (hi : (k.proc i).state = .running ∨ (k.proc i).state = .runnable) :
    (k'.proc i).state = .running ∨ (k'.proc i).state = .runnable := by
  generalize hq : k'.proc i = q
  have hchange := hq ▸ step_change hk.1 h i
  cases hchange with
  | spared he hs =>
    have := hs.state
    grind
  | create hu hs ha => simp [hu] at hi
  | abort he hu hs => simp [hu] at hi
  | ready hu hs ha => exact .inr hs
  | sleep he hc hs ha => exact absurd he (hkeep hc).1
  | exit hc hs ha => exact absurd rfl ((hkeep hc).2 _)
  | free hz hs => simp [hz] at hi
  | run hc hr hs ha => exact .inl hs
  | tick hs ha hstate => grind

/-- What holds from the dispatch of slot `i` on: it is the same process, and competes. -/
theorem keepsCpu_of_exec {g : Births} {mid : List Event} (hI : BirthInv k g)
    (hi : (k.proc i).state = .running ∨ (k.proc i).state = .runnable)
    (hkeep : Guarded (step b) (KeepsCpu i) k mid) (h : exec (step b) k mid = some k') :
    ((k'.proc i).state = .running ∨ (k'.proc i).state = .runnable) ∧
      (k'.proc i).pid = (k.proc i).pid := by
  refine (exec_invariant_of_guarded (I := fun m : Kernel => Alone m ∧
    ((m.proc i).state = .running ∨ (m.proc i).state = .runnable) ∧
      (m.proc i).pid = (k.proc i).pid) ?_ ⟨hI.alone, hi, rfl⟩ hkeep h).2
  rintro m e m' ⟨hm, hi, hpid⟩ hkeep h
  have hi' := keepsCpu_of_step hm h hkeep hi
  refine ⟨hm.step h, hi', ?_⟩
  have hlive : (m'.proc i).state ≠ .unused := by grind
  obtain ⟨rfl, -⟩ | ⟨-, -, hsame⟩ := pid_of_step hm.1 h hlive
  · have hu := unused_of_allocproc h
    simp [hu] at hi
  · rw [hsame, hpid]

/-- **FCFS runs the earliest-created runnable process**, in every run on one CPU. The pids
    of live processes differ and are ordered as their `allocproc` calls were; a dispatch
    takes the `RUNNABLE` process whose call came first; an idle CPU dispatches one whenever
    there is one; and from the dispatch of a process until it sleeps or exits no process
    that was created after it is dispatched. -/
theorem fcfs_runs_earliest {es : List Event} (h : exec (step .fcfs) (boot .fcfs) es = some k) :
    (∀ x y, (k.proc x).state ≠ .unused → (k.proc y).state ≠ .unused → x ≠ y →
      (k.proc x).pid ≠ (k.proc y).pid ∧
      ((k.proc x).pid < (k.proc y).pid ↔
        (births .fcfs es).born x < (births .fcfs es).born y)) ∧
    (∀ i k', step .fcfs k (.dispatch i) = some k' →
      (k.proc i).state = .runnable ∧ ∀ j, j ≠ i → (k.proc j).state = .runnable →
        (births .fcfs es).born i < (births .fcfs es).born j) ∧
    (k.cpu 0 = none → (∃ j, (k.proc j).state = .runnable) →
      ∃! i, (step .fcfs k (.dispatch i)).isSome) ∧
    (∀ i k₁ mid k₂ j k₃, step .fcfs k (.dispatch i) = some k₁ →
      exec (step .fcfs) k₁ mid = some k₂ → Guarded (step .fcfs) (KeepsCpu i) k₁ mid →
      step .fcfs k₂ (.dispatch j) = some k₃ →
      let g := births .fcfs (es ++ .dispatch i :: mid)
      (k₂.proc i).pid = (k.proc i).pid ∧ g.born i = (births .fcfs es).born i ∧
        g.born j ≤ g.born i) := by
  have hI := exec_birthInv h
  refine ⟨fun x y hx hy hne => ?_, fun i k' hd => ⟨?_, fun j hne hj => ?_⟩, fun hc hj => ?_,
    fun i k₁ mid k₂ j k₃ hd hmid hkeep hd' => ?_⟩
  · have := hI.born_ne x y hx hy hne
    rw [hI.pid_eq x hx, hI.pid_eq y hy]
    omega
  · exact (dispatch_of_step hd).2.1
  · exact born_lt_of_dispatch hI hd hne hj
  · obtain ⟨j, hj⟩ := hj
    obtain ⟨i, hi⟩ := fcfsScan_isSome hj
    refine ⟨i, (dispatch_isSome_iff hc).mpr hi, fun i' hi' => ?_⟩
    have := (dispatch_isSome_iff hc).mp hi'
    rw [hi] at this
    exact (Option.some.inj this).symm
  · have hrun : exec (step .fcfs) (boot .fcfs) (es ++ .dispatch i :: mid) = some k₂ :=
      exec_append_eq_some.mpr ⟨k, h, exec_cons_eq_some.mpr ⟨k₁, hd, hmid⟩⟩
    have hI₂ := exec_birthInv hrun
    have hr := (dispatch_of_step hd).2.1
    -- the dispatch itself is a step that slot `i` survives
    have hkeep' : Guarded (step .fcfs) (KeepsCpu i) k (.dispatch i :: mid) := by
      refine guarded_cons.mpr ⟨fun _ => ⟨id, by simp⟩, fun t ht => ?_⟩
      rw [hd] at ht
      cases ht
      exact hkeep
    obtain ⟨hstate, hpid⟩ := keepsCpu_of_exec hI (.inr hr) hkeep'
      (exec_cons_eq_some.mpr ⟨k₁, hd, hmid⟩)
    refine ⟨hpid, ?_, ?_⟩
    · have hlive : (k₂.proc i).state ≠ .unused := by grind
      have := hI.pid_eq i (by simp [hr])
      have := hI₂.pid_eq i hlive
      omega
    · by_cases hne : i = j
      · rw [hne]
      · have hidle := (dispatch_of_step hd').1
        have hr₂ : (k₂.proc i).state = .runnable := by
          obtain hrun | hr₂ := hstate
          · rw [hI₂.alone.running_iff, hidle] at hrun
            cases hrun
          · exact hr₂
        exact Nat.le_of_lt (born_lt_of_dispatch hI₂ hd' hne hr₂)

/-- `init` forks twice, waits for the first child, forks again into its slot and waits. -/
def reuseFirstSlot : List Event :=
  [.dispatch initproc, .allocproc firstChild, .kforkParent firstChild,
    .kforkRunnable firstChild, .allocproc secondChild, .kforkParent secondChild,
    .kforkRunnable secondChild, .sleepWait, .dispatch firstChild, .kexit 0,
    .dispatch initproc, .kwait firstChild, .allocproc firstChild, .kforkParent firstChild,
    .kforkRunnable firstChild, .sleepWait]

/-- The third child sits in an earlier slot than the second, and runs after it. -/
theorem fcfs_runs_earliest_reuse :
    ∃ k ∈ exec (step .fcfs) (boot .fcfs) reuseFirstSlot,
      (k.proc firstChild).state = .runnable ∧
      (step .fcfs k (.dispatch secondChild)).isSome ∧
      (births .fcfs reuseFirstSlot).born secondChild <
        (births .fcfs reuseFirstSlot).born firstChild := by
  have hrun : ∃ k ∈ exec (step .fcfs) (boot .fcfs) reuseFirstSlot,
      (k.proc firstChild).state = .runnable ∧
      (step .fcfs k (.dispatch secondChild)).isSome := by
    decide +kernel
  obtain ⟨k, hk, hr, hd⟩ := hrun
  obtain ⟨k', hd'⟩ := Option.isSome_iff_exists.mp hd
  exact ⟨k, hk, hr, hd,
    ((fcfs_runs_earliest hk).2.1 secondChild k' hd').2 firstChild (by decide) hr⟩

end MiniOs.Xv6

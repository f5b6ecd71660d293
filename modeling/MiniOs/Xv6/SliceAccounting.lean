import MiniOs.Xv6.Sections

/-!
# Slice accounting under MLFQ

`queue` and `ticks_used` are written by `allocproc`, `freeproc`, `sleep`,
`mlfq_tick` and, from another CPU, by `mlfq_boost`. An observer who only sees
which sections run counts the ticks charged to each process since its current
slice began; in every interleaving the two fields stay in range and
`ticks_used` is that count.
-/

namespace MiniOs.Xv6

open Trace

variable {p : Proc}

/-- The observer's count for every slot after section `e`: a charge adds one, and
    the count restarts when the process is created, sleeps, is boosted or has
    used up the slice of its queue. -/
def countStep (k : Kernel) (n : Slot → ℕ) : Section → Slot → ℕ
  | .allocproc _ i => Function.update n i 0
  | .sleep c _ =>
    match k.cpu c with
    | some i => Function.update n i 0
    | none => n
  | .mlfqBoost i => if (k.proc i).state ≠ .unused then Function.update n i 0 else n
  | .mlfqTick c =>
    match k.cpu c with
    | some i =>
      Function.update n i (if timeSliceAt (k.proc i).queue ≤ n i + 1 then 0 else n i + 1)
    | none => n
  | _ => n

/-- The number of `mlfq_tick` charges of every slot since its slice began, over
    the run of sections `es` from `k`. -/
def sliceCharges (k : Kernel) (n : Slot → ℕ) (es : List Section) : Slot → ℕ :=
  observe (sectionStep .mlfq) (fun k e n => countStep k n e) k n es

/-- What holds of one slot whenever its lock is free; `n` is the observer's
    count. -/
structure SliceInv (p : Proc) (n : ℕ) : Prop where
  queue_le : p.queue ≤ 3
  ticksUsed_lt : p.ticksUsed < timeSliceAt p.queue
  unused : p.state = .unused → p.queue = 0 ∧ p.ticksUsed = 0
  count : p.state ≠ .unused → p.ticksUsed = n

theorem timeSliceAt_pos {q : ℕ} (h : q ≤ 3) : 0 < timeSliceAt q := by
  have hq : q = 0 ∨ q = 1 ∨ q = 2 ∨ q = 3 := by omega
  rcases hq with rfl | rfl | rfl | rfl <;> decide

/-- The fields `mlfq_tick` leaves behind at the end of a slice. -/
theorem chargeTick_of_sliceEnds (h : sliceEnds p) :
    (chargeTick p).ticksUsed = 0 ∧
      (chargeTick p).queue = if p.queue < 3 then p.queue + 1 else p.queue := by
  simp [chargeTick, h]

theorem chargeTick_of_not_sliceEnds (h : ¬ sliceEnds p) :
    (chargeTick p).ticksUsed = p.ticksUsed + 1 ∧ (chargeTick p).queue = p.queue := by
  simp [chargeTick, h]

/-- A process in the first slice tick of queue 0 has nothing left in it. -/
theorem SliceInv.fresh {n : ℕ} (hq : p.queue = 0) (ht : p.ticksUsed = 0)
    (hn : p.state ≠ .unused → n = 0) : SliceInv p n where
  queue_le := by omega
  ticksUsed_lt := by
    rw [hq, ht]
    decide
  unused _ := ⟨hq, ht⟩
  count h := by rw [ht, hn h]

theorem SliceInv.chargeTick {n : ℕ} (h : SliceInv p n) (hr : p.state = .running) :
    SliceInv (chargeTick p) (if timeSliceAt p.queue ≤ n + 1 then 0 else n + 1) := by
  have hu : p.state ≠ .unused := by simp [hr]
  have hn : p.ticksUsed = n := h.count hu
  have hends : sliceEnds p ↔ timeSliceAt p.queue ≤ n + 1 := by rw [sliceEnds, hn]
  have hq := h.queue_le
  by_cases he : sliceEnds p
  · obtain ⟨ht, hqueue⟩ := chargeTick_of_sliceEnds he
    rw [if_pos (hends.mp he)]
    have hle : (Xv6.chargeTick p).queue ≤ 3 := by
      rw [hqueue]
      split <;> omega
    refine ⟨hle, ?_, ?_, ?_⟩
    · rw [ht]
      exact timeSliceAt_pos hle
    · rw [chargeTick_state]
      exact fun hu' => absurd hu' hu
    · exact fun _ => ht
  · obtain ⟨ht, hqueue⟩ := chargeTick_of_not_sliceEnds he
    rw [if_neg (fun h' => he (hends.mpr h'))]
    refine ⟨by omega, ?_, ?_, ?_⟩
    · rw [ht, hqueue]
      have hlt : ¬ timeSliceAt p.queue ≤ p.ticksUsed + 1 := he
      omega
    · rw [chargeTick_state]
      exact fun hu' => absurd hu' hu
    · intro _
      rw [ht, hn]

variable {k k' : Kernel} {n : Slot → ℕ} {e : Section} {x : Slot}

/-- The observer does not move the count of a slot the section does not touch. -/
theorem countStep_of_not_touches (h : ¬ Touches k x e) : countStep k n e x = n x := by
  cases e <;> simp only [countStep]
  case allocproc c i => exact Function.update_of_ne (Ne.symm h) _ _
  case sleep c chan =>
    cases hc : k.cpu c with
    | none => rfl
    | some i =>
      refine Function.update_of_ne ?_ _ _
      rintro rfl
      exact h hc
  case mlfqBoost i =>
    split
    · next hu =>
      refine Function.update_of_ne ?_ _ _
      rintro rfl
      exact h ⟨rfl, hu⟩
    · rfl
  case mlfqTick c =>
    cases hc : k.cpu c with
    | none => rfl
    | some i =>
      refine Function.update_of_ne ?_ _ _
      rintro rfl
      exact h hc

/-- **Step lemma**: every section keeps the invariant of every slot. -/
theorem sectionStep_sliceInv (hk : CpuInv k) (h : sectionStep .mlfq k e = some k')
    (hI : SliceInv (k.proc x) (n x)) : SliceInv (k'.proc x) (countStep k n e x) := by
  have hlive : ∀ q : Proc, (k.proc x).state ≠ .unused → q.queue = (k.proc x).queue →
      q.ticksUsed = (k.proc x).ticksUsed → q.state ≠ .unused → SliceInv q (n x) := by
    intro q hu hq ht hq'
    refine ⟨hq ▸ hI.queue_le, ?_, fun hu' => absurd hu' hq', fun _ => ht ▸ hI.count hu⟩
    rw [hq, ht]
    exact hI.ticksUsed_lt
  generalize hp : k'.proc x = p
  have hc := hp ▸ sectionStep_slotChange hk h x
  cases hc with
  | keep hn hs hq he ht =>
    rw [countStep_of_not_touches hn]
    by_cases hu : (k.proc x).state = .unused
    · obtain ⟨hq0, ht0⟩ := hI.unused hu
      exact .fresh (hq.trans hq0) (ht.trans ht0) (fun hp => absurd (hs.trans hu) hp)
    · exact hlive p hu hq ht (fun hp => hu (hs.symm.trans hp))
  | create hu hs hq ht =>
    exact .fresh (hq rfl) (ht rfl) (fun _ => by simp [countStep])
  | abort hu hs hq ht he =>
    exact .fresh (hq rfl) (ht rfl) (fun hp => absurd hs hp)
  | enqueue hx hs hr hq he ht =>
    rw [countStep_of_not_touches hx.not_touches]
    refine hlive p ?_ hq ht (by simp [hr])
    rcases hs with hs | hs | hs <;> simp [hs]
  | sleep hc hs hq ht =>
    have hrun := hk.running_of_cpu _ _ hc
    refine ⟨hq ▸ hI.queue_le, ?_, fun hu => by simp [hs] at hu, ?_⟩
    · rw [ht rfl, hq]
      exact timeSliceAt_pos hI.queue_le
    · intro _
      simp [countStep, hc, ht]
  | exit hc hs hq ht =>
    have hrun := hk.running_of_cpu _ _ hc
    exact hlive p (by simp [hrun]) hq ht (by simp [hs])
  | free hz hs hq ht =>
    exact .fresh (hq rfl) (ht rfl) (fun hp => absurd hs hp)
  | charge hb hc =>
    have := hI.chargeTick (hk.running_of_cpu _ _ hc)
    simpa [countStep, hc] using this
  | boost hb hu hs hq ht he =>
    exact .fresh hq ht (fun _ => by simp [countStep, hu])
  | run hr hs hq he ht =>
    exact hlive p (by simp [hr]) hq ht (by simp [hs])

/-- **Run lemma**: the invariant holds after every run of sections, for the count
    the observer makes along it. -/
theorem exec_sliceInv {es : List Section} (hk : CpuInv k)
    (hI : ∀ y, SliceInv (k.proc y) (n y)) (h : exec (sectionStep .mlfq) k es = some k') :
    ∀ y, SliceInv (k'.proc y) (sliceCharges k n es y) := by
  have hok : Guarded (sectionStep .mlfq) (fun _ _ => True) k es :=
    guarded_of_forall (fun _ _ => trivial) k es
  have hboth : CpuInv k' ∧ ∀ y, SliceInv (k'.proc y) (sliceCharges k n es y) := by
    refine observe_invariant
      (I := fun (m : Kernel) (c : Slot → ℕ) => CpuInv m ∧ ∀ y, SliceInv (m.proc y) (c y))
      ?_ ⟨hk, hI⟩ hok h
    rintro m c e m' ⟨hm, hc⟩ - he
    exact ⟨sectionStep_cpuInv hm he, fun y => sectionStep_sliceInv hm he (hc y)⟩
  exact hboth.2

theorem boot_sliceInv (y : Slot) : SliceInv ((boot .mlfq).proc y) 0 := by
  by_cases hy : y = initproc
  · subst hy
    exact .fresh rfl rfl (fun _ => rfl)
  · rw [boot_proc_of_ne .mlfq hy]
    exact .fresh rfl rfl (fun _ => rfl)

/-- A queue number grows only when a charge fills the slice, and then by one. -/
theorem queue_lt_of_sectionStep (hk : CpuInv k) (h : sectionStep .mlfq k e = some k')
    (hI : SliceInv (k.proc x) (n x)) (hlt : (k.proc x).queue < (k'.proc x).queue) :
    (∃ c, e = .mlfqTick c ∧ k.cpu c = some x) ∧ n x + 1 = timeSliceAt (k.proc x).queue ∧
      (k'.proc x).queue = (k.proc x).queue + 1 ∧ (k'.proc x).queue ≤ 3 := by
  generalize hp : k'.proc x = p at hlt
  have hc := hp ▸ sectionStep_slotChange hk h x
  cases hc with
  | keep hn hs hq he ht => omega
  | create hu hs hq ht => exact absurd (hq rfl) (by omega)
  | abort hu hs hq ht he => exact absurd (hq rfl) (by omega)
  | enqueue hx hs hr hq he ht => omega
  | sleep hc hs hq ht => omega
  | exit hc hs hq ht => omega
  | free hz hs hq ht => exact absurd (hq rfl) (by omega)
  | boost hb hu hs hq ht he => omega
  | run hr hs hq he ht => omega
  | charge hb hc =>
    have hrun := hk.running_of_cpu _ _ hc
    have hn : (k.proc x).ticksUsed = n x := hI.count (by simp [hrun])
    have hbelow := hI.ticksUsed_lt
    by_cases he : sliceEnds (k.proc x)
    · have hends : timeSliceAt (k.proc x).queue ≤ (k.proc x).ticksUsed + 1 := he
      obtain ⟨-, hqueue⟩ := chargeTick_of_sliceEnds he
      rw [hqueue] at hlt ⊢
      split at hlt
      · next h3 =>
        rw [if_pos h3]
        exact ⟨⟨_, rfl, hc⟩, by omega, rfl, by omega⟩
      · omega
    · obtain ⟨-, hqueue⟩ := chargeTick_of_not_sliceEnds he
      omega

/-- A queue number shrinks only by a boost or when the slot is given back. -/
theorem queue_gt_of_sectionStep (hk : CpuInv k) (h : sectionStep .mlfq k e = some k')
    (hI : SliceInv (k.proc x) (n x)) (hlt : (k'.proc x).queue < (k.proc x).queue) :
    e = .mlfqBoost x ∨ ∃ c, e = .kwait c x := by
  generalize hp : k'.proc x = p at hlt
  have hc := hp ▸ sectionStep_slotChange hk h x
  cases hc with
  | keep hn hs hq he ht => omega
  | create hu hs hq ht =>
    have := (hI.unused hu).1
    omega
  | abort hu hs hq ht he =>
    have := (hI.unused hu).1
    omega
  | enqueue hx hs hr hq he ht => omega
  | sleep hc hs hq ht => omega
  | exit hc hs hq ht => omega
  | free hz hs hq ht => exact Or.inr ⟨_, rfl⟩
  | charge hb hc =>
    by_cases he : sliceEnds (k.proc x)
    · obtain ⟨-, hqueue⟩ := chargeTick_of_sliceEnds he
      rw [hqueue] at hlt
      split at hlt <;> omega
    · obtain ⟨-, hqueue⟩ := chargeTick_of_not_sliceEnds he
      omega
  | boost hb hu hs hq ht he => exact Or.inl rfl
  | run hr hs hq he ht => omega

/-- **Slice accounting is exact**, in every interleaving of the sections: queue
    and tick count are in range (so `time_slice` is indexed within bounds), the
    tick count of a process is the number of charges since its slice began, a
    queue number grows only in the `mlfq_tick` that fills the slice, by one and
    never past 3, and it shrinks only in a boost or when `kwait` gives the slot
    back for reuse. -/
theorem slice_accounting_exact (es : List Section) (k : Kernel)
    (h : exec (sectionStep .mlfq) (boot .mlfq) es = some k) (i : Slot) :
    (k.proc i).queue < timeSlice.length ∧ (k.proc i).queue ≤ 3 ∧
    (k.proc i).ticksUsed < timeSliceAt (k.proc i).queue ∧
    ((k.proc i).state ≠ .unused →
      (k.proc i).ticksUsed = sliceCharges (boot .mlfq) (fun _ => 0) es i) ∧
    ∀ e k', sectionStep .mlfq k e = some k' →
      ((k.proc i).queue < (k'.proc i).queue →
        (∃ c, e = .mlfqTick c ∧ k.cpu c = some i) ∧
        sliceCharges (boot .mlfq) (fun _ => 0) es i + 1 = timeSliceAt (k.proc i).queue ∧
        (k'.proc i).queue = (k.proc i).queue + 1 ∧ (k'.proc i).queue ≤ 3) ∧
      ((k'.proc i).queue < (k.proc i).queue → e = .mlfqBoost i ∨ ∃ c, e = .kwait c i) := by
  have hk : CpuInv k := exec_cpuInv (boot_cpuInv .mlfq) h
  have hI := exec_sliceInv (boot_cpuInv .mlfq) boot_sliceInv h
  refine ⟨?_, (hI i).queue_le, (hI i).ticksUsed_lt, (hI i).count, ?_⟩
  · have := (hI i).queue_le
    simp only [timeSlice, List.length_cons, List.length_nil]
    omega
  · intro e k' he
    exact ⟨queue_lt_of_sectionStep hk he (hI i), queue_gt_of_sectionStep hk he (hI i)⟩

/-- The first tick of init ends its queue-0 slice. -/
theorem slice_accounting_exact_init :
    let k := ((runProc (boot .mlfq) 0 initproc).modify initproc chargeTick)
    exec (sectionStep .mlfq) (boot .mlfq) [.dispatch 0 initproc, .mlfqTick 0] = some k ∧
    (k.proc initproc).queue = 1 ∧ (k.proc initproc).queue < timeSlice.length :=
  ⟨rfl, rfl, (slice_accounting_exact [.dispatch 0 initproc, .mlfqTick 0] _ rfl initproc).1⟩

end MiniOs.Xv6

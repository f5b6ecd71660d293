import MiniOs.Xv6.Stamps

/-!
# Enqueueing under two locks

The sections of `Sections.lean` are atomic. A section that makes a process
`RUNNABLE` is not: it writes the state under `p->lock`, then draws the stamp under
`mlfq_lock`, and only then lets go of `p->lock`. Between these three points the
other CPUs go on with sections of other slots, which may draw stamps of their own.
This module cuts such a section at the two places, from `userinit` on, and lets the
pieces interleave freely.
-/

namespace MiniOs.Xv6

open Trace

variable {l : Option ℕ}

/-- A CPU that has written `RUNNABLE` and still holds the `p->lock`. `leaves` is
    the CPU that the process gives up when the lock is released, for `yield`. -/
structure Holder where
  stamped : Bool
  leaves : Option ℕ
  deriving DecidableEq, Repr

/-- The kernel, the `p->lock`s held by an enqueue, and `started` of `main.c`. -/
structure LockState where
  k : Kernel
  holder : Slot → Option Holder
  started : Bool

/-- A piece of a section that no other CPU can look into. -/
inductive LockEvent where
  | userinit
  | start
  | whole (e : Section)
  | mark (e : Section)
  | stamp (i : Slot)
  | release (i : Slot)
  deriving DecidableEq, Repr

/-- The slot whose `p->lock` a section runs under. `np->parent` and the parents
    that `reparent` rewrites are under `wait_lock` only, and `wakeup` does not
    lock its own process. -/
def lockedSlot (k : Kernel) : Section → Option Slot
  | .allocproc _ i | .allocprocFail _ i | .kforkFail _ i | .kforkRunnable _ i => some i
  | .kforkParent _ _ | .reparent _ _ | .clock => none
  | .yield c | .sleep c _ | .setkilled c | .kexit c _ | .mlfqTick c => k.cpu c
  | .wakeup c _ i => if k.cpu c = some i then none else some i
  | .kkill _ _ i | .kwait _ i | .mlfqBoost i | .updateTimes i | .dispatch _ i => some i

def setRunnable (k : Kernel) (i : Slot) : Kernel :=
  k.modify i (fun p => { p with state := .runnable })

/-- The part of an enqueueing section before `mlfq_enqueue`: the slot, the CPU
    that is given up at the end, and the kernel with the slot `RUNNABLE`. `none`
    for a section that enqueues nothing. -/
def markRunnable (k : Kernel) : Section → Option (Slot × Option ℕ × Kernel)
  | .kforkRunnable c i =>
    if (k.cpu c).isSome ∧ (k.proc i).state = .used ∧ (k.proc i).parent = k.cpu c then
      some (i, none, setRunnable k i)
    else none
  | .yield c => (k.cpu c).map (fun i => (i, some c, setRunnable k i))
  | .wakeup c chan i =>
    if k.cpu c ≠ some i ∧ (k.proc i).state = .sleeping ∧ (k.proc i).chan = chan then
      some (i, none, setRunnable k i)
    else none
  | .kkill c pid i =>
    if ((k.cpu c).isSome ∧ (k.proc i).pid = pid) ∧ (k.proc i).state = .sleeping then
      some (i, none, setRunnable (k.modify i (fun p => { p with killed := true })) i)
    else none
  | _ => none

def lockFree (s : LockState) (e : Section) : Bool :=
  (lockedSlot s.k e).all (fun i => (s.holder i).isNone)

/-- `release(&p->lock)` at the end of an enqueue. A process that yields is still
    holding its lock when it enters `sched()`; the scheduler loop clears
    `c->proc` and releases. -/
def releaseSlot (s : LockState) (i : Slot) (h : Holder) : LockState :=
  { s with
    k := match h.leaves with
      | some c => sched s.k c
      | none => s.k
    holder := Function.update s.holder i none }

/-- One piece of a section. Until `started` is set, CPU 0 is inside `main()` and
    the other CPUs spin. -/
def lockStep (s : LockState) : LockEvent → Option LockState
  | .userinit =>
    if s.started = false ∧ (s.k.proc initproc).state = .unused then
      some { s with
        k := setRunnable (allocproc .mlfq s.k initproc) initproc
        holder := Function.update s.holder initproc (some ⟨false, none⟩) }
    else none
  | .start =>
    if (s.k.proc initproc).state = .runnable ∧ s.holder initproc = none then
      some { s with started := true }
    else none
  | .whole e =>
    if s.started = true ∧ lockFree s e = true ∧ (markRunnable s.k e).isNone then
      (sectionStep .mlfq s.k e).map (fun k => { s with k := k })
    else none
  | .mark e =>
    if s.started = true ∧ lockFree s e = true then
      (markRunnable s.k e).map (fun m =>
        { s with k := m.2.2, holder := Function.update s.holder m.1 (some ⟨false, m.2.1⟩) })
    else none
  | .stamp i =>
    (s.holder i).bind (fun h =>
      if h.stamped = false then
        some { s with
          k := mlfqEnqueue s.k i
          holder := Function.update s.holder i (some { h with stamped := true }) }
      else none)
  | .release i =>
    (s.holder i).bind (fun h => if h.stamped = true then some (releaseSlot s i h) else none)

/-- The state before `userinit()`. -/
def LockState.start : LockState := ⟨procinit, fun _ => none, false⟩

/-- No enqueue of slot `x` is between its `RUNNABLE` and its stamp. -/
def Settled (s : LockState) (x : Slot) : Prop := ∀ h, s.holder x = some h → h.stamped = true

variable {k k' : Kernel} {s s' : LockState} {x i : Slot}

theorem Settled.of_free (h : s.holder x = none) : Settled s x := by
  intro h' hx
  rw [h] at hx
  cases hx

/-! ### What the pieces do -/

/-- A slot is not made `RUNNABLE` and its stamp is kept, or zeroed by
    `freeproc`. -/
structure Quiet (p q : Proc) : Prop where
  waiting : q.state = .runnable → p.state = .runnable ∧ q.enqTime = p.enqTime
  stamp : q.enqTime = p.enqTime ∨ q.enqTime = 0

theorem Quiet.refl (p : Proc) : Quiet p p := ⟨fun h => ⟨h, rfl⟩, Or.inl rfl⟩

theorem Quiet.of_same {p q : Proc} (hs : q.state = p.state) (he : q.enqTime = p.enqTime) :
    Quiet p q := ⟨fun h => ⟨hs ▸ h, he⟩, Or.inl he⟩

theorem Quiet.of_not_runnable {p q : Proc} (hs : q.state ≠ .runnable)
    (he : q.enqTime = p.enqTime ∨ q.enqTime = 0) : Quiet p q := ⟨fun h => absurd h hs, he⟩

theorem Quiet.modify {f : Proc → Proc} (h : Quiet (k.proc i) (f (k.proc i))) (x : Slot) :
    Quiet (k.proc x) ((k.modify i f).proc x) := by
  by_cases hx : x = i
  · subst hx
    rw [Kernel.modify_proc_self]
    exact h
  · rw [Kernel.modify_proc_of_ne k f hx]
    exact .refl _

theorem quiet_freeproc {p q : Proc} : Quiet p (freeproc .mlfq q) :=
  .of_not_runnable (by rw [freeproc_state]; decide) (Or.inr rfl)

/-- A slot taken by `allocproc`, and perhaps freed again, is not `RUNNABLE`. -/
theorem quiet_takeSlot {f : Proc → Proc} (hf : ∀ p, p.state = .used → Quiet p (f p))
    (x : Slot) : Quiet (k.proc x) (((takeSlot k i).modify i f).proc x) := by
  by_cases hx : x = i
  · subst hx
    have hq := hf { k.proc x with pid := k.nextpid, state := .used } rfl
    rw [Kernel.modify_proc_self, takeSlot_proc_self]
    refine ⟨fun h => ?_, hq.stamp⟩
    cases (hq.waiting h).1
  · rw [Kernel.modify_proc_of_ne _ _ hx, takeSlot_proc_of_ne k hx]
    exact .refl _

theorem quiet_allocproc (k : Kernel) (i x : Slot) :
    Quiet (k.proc x) ((allocproc .mlfq k i).proc x) := by
  unfold allocproc
  refine quiet_takeSlot (fun p _ => ?_) x
  exact .of_same rfl rfl

theorem chargeTick_enqTime (p : Proc) : (chargeTick p).enqTime = p.enqTime := by
  unfold chargeTick
  split <;> rfl

theorem quiet_kforkFail (k : Kernel) (i x : Slot) :
    Quiet (k.proc x) ((kforkFail .mlfq k i).proc x) := by
  by_cases hx : x = i
  · subst hx
    rw [kforkFail, Kernel.modify_proc_self]
    exact quiet_freeproc
  · rw [kforkFail, Kernel.modify_proc_of_ne _ _ hx]
    exact quiet_allocproc k i x

/-- **Inversion of a section that enqueues nothing**. -/
theorem sectionStep_quiet {e : Section} (hm : (markRunnable k e).isNone)
    (h : sectionStep .mlfq k e = some k') :
    k'.mlfqSeq = k.mlfqSeq ∧ ∀ x, Quiet (k.proc x) (k'.proc x) := by
  cases sectionStep_runs h with
  | @allocproc c j hc hu => exact ⟨rfl, quiet_allocproc k j⟩
  | allocprocFail hc hu => exact ⟨rfl, quiet_takeSlot (fun p _ => quiet_freeproc)⟩
  | @kforkFail c j hc hu => exact ⟨rfl, quiet_kforkFail k j⟩
  -- the four sections that enqueue
  | kforkRunnable hg => simp [markRunnable, hg] at hm
  | yield hc => simp [markRunnable, hc] at hm
  | wakeup hs => simp [markRunnable, hs] at hm
  | kkill hg hs => simp [markRunnable, hg, hs] at hm
  | sleep hc =>
    refine ⟨rfl, ?_⟩
    rw [sleepProc, sched_proc]
    refine Quiet.modify (.of_not_runnable ?_ (Or.inl rfl))
    simp
  | wakeupOther hs => exact ⟨rfl, fun x => .refl _⟩
  | kexit hc hi =>
    refine ⟨rfl, ?_⟩
    rw [zombify, sched_proc]
    refine Quiet.modify (.of_not_runnable ?_ (Or.inl rfl))
    simp
  | kwait hc hp hz => exact ⟨rfl, Quiet.modify quiet_freeproc⟩
  | mlfqTick hb hc =>
    exact ⟨rfl, Quiet.modify (.of_same (chargeTick_state _) (chargeTick_enqTime _))⟩
  | mlfqBoost hb => exact ⟨rfl, Quiet.modify (.of_same (boostProc_state _) (boostProc_enqTime _))⟩
  | updateTimes =>
    refine ⟨rfl, Quiet.modify ?_⟩
    rw [timesProc_eq]
    exact .of_same rfl rfl
  | clock => exact ⟨rfl, fun x => .refl _⟩
  | dispatch hc hr =>
    refine ⟨rfl, Quiet.modify (.of_not_runnable ?_ (Or.inl (dispatched_enqTime _ _)))⟩
    rw [dispatched_state]
    decide
  | _ => exact ⟨rfl, Quiet.modify (.of_same rfl rfl)⟩

/-- Up to its stamp, an enqueueing section writes no stamp and makes one slot
    `RUNNABLE`. -/
structure Marks (k : Kernel) (i : Slot) (k' : Kernel) : Prop where
  seq : k'.mlfqSeq = k.mlfqSeq
  runnable : (k'.proc i).state = .runnable
  other : ∀ x, x ≠ i → k'.proc x = k.proc x
  stamp : ∀ x, (k'.proc x).enqTime = (k.proc x).enqTime

theorem marks_setRunnable (k : Kernel) (i : Slot) : Marks k i (setRunnable k i) where
  seq := rfl
  runnable := by simp [setRunnable]
  other x hx := Kernel.modify_proc_of_ne k _ hx
  stamp x := by
    by_cases hx : x = i
    · subst hx
      simp [setRunnable]
    · rw [setRunnable, Kernel.modify_proc_of_ne k _ hx]

/-- A write to the slot that keeps its stamp, before it is made `RUNNABLE`. -/
theorem Marks.modify {f : Proc → Proc} (hf : ∀ p, (f p).enqTime = p.enqTime)
    (h : Marks (k.modify i f) i k') : Marks k i k' where
  seq := h.seq
  runnable := h.runnable
  other x hx := by rw [h.other x hx, Kernel.modify_proc_of_ne k f hx]
  stamp x := by
    rw [h.stamp x]
    by_cases hx : x = i
    · subst hx
      rw [Kernel.modify_proc_self, hf]
    · rw [Kernel.modify_proc_of_ne k f hx]

theorem markRunnable_marks {e : Section} (h : markRunnable k e = some (i, l, k')) :
    Marks k i k' := by
  cases e with
  | kforkRunnable c j =>
    simp only [markRunnable, Option.ite_none_right_eq_some, Option.some.injEq,
      Prod.mk.injEq] at h
    obtain ⟨-, rfl, -, rfl⟩ := h
    exact marks_setRunnable k j
  | yield c =>
    simp only [markRunnable, Option.map_eq_some_iff, Prod.mk.injEq] at h
    obtain ⟨j, -, rfl, -, rfl⟩ := h
    exact marks_setRunnable k j
  | wakeup c chan j =>
    simp only [markRunnable, Option.ite_none_right_eq_some, Option.some.injEq,
      Prod.mk.injEq] at h
    obtain ⟨-, rfl, -, rfl⟩ := h
    exact marks_setRunnable k j
  | kkill c pid j =>
    simp only [markRunnable, Option.ite_none_right_eq_some, Option.some.injEq,
      Prod.mk.injEq] at h
    obtain ⟨-, rfl, -, rfl⟩ := h
    refine Marks.modify ?_ (marks_setRunnable _ j)
    exact fun p => rfl
  | _ => simp [markRunnable] at h

theorem marks_userinit (k : Kernel) :
    Marks k initproc (setRunnable (allocproc .mlfq k initproc) initproc) := by
  have hm := marks_setRunnable (allocproc .mlfq k initproc) initproc
  have hother : ∀ x, x ≠ initproc → (allocproc .mlfq k initproc).proc x = k.proc x :=
    fun x hx => allocproc_proc_of_ne .mlfq k hx
  refine ⟨hm.seq, hm.runnable, fun x hx => (hm.other x hx).trans (hother x hx), fun x => ?_⟩
  rw [hm.stamp x]
  by_cases hx : x = initproc
  · subst hx
    simp [allocproc, takeSlot_proc_self]
  · rw [hother x hx]

/-- **Inversion of a piece**, by what it does to the slots, the counter and the
    held locks. -/
theorem lockStep_cases {e : LockEvent} (h : lockStep s e = some s') :
    (∃ i l, Marks s.k i s'.k ∧ s'.holder = Function.update s.holder i (some ⟨false, l⟩) ∧
      s'.started = s.started ∧ (s.started = false → i = initproc) ∧
      (∀ j, e ≠ .stamp j) ∧ ∀ j, e ≠ .release j) ∨
    (s'.k.mlfqSeq = s.k.mlfqSeq ∧ (∀ x, Quiet (s.k.proc x) (s'.k.proc x)) ∧
      s'.holder = s.holder ∧
      (s'.started = s.started ∨
        s'.started = true ∧ Waiting s.k initproc ∧ s.holder initproc = none) ∧
      (∀ j, e ≠ .stamp j) ∧ ∀ j, e ≠ .release j) ∨
    (∃ i h, e = .stamp i ∧ s.holder i = some h ∧ h.stamped = false ∧
      s' = { s with
        k := mlfqEnqueue s.k i
        holder := Function.update s.holder i (some { h with stamped := true }) }) ∨
    ∃ i h, e = .release i ∧ s.holder i = some h ∧ h.stamped = true ∧
      s'.k.mlfqSeq = s.k.mlfqSeq ∧ s'.k.proc = s.k.proc ∧ s'.started = s.started ∧
      s'.holder = Function.update s.holder i none := by
  cases e with
  | userinit =>
    simp only [lockStep, Option.ite_none_right_eq_some, Option.some.injEq] at h
    obtain ⟨-, rfl⟩ := h
    exact Or.inl ⟨initproc, none, marks_userinit s.k, rfl, rfl, fun _ => rfl, by simp, by simp⟩
  | start =>
    simp only [lockStep, Option.ite_none_right_eq_some, Option.some.injEq] at h
    obtain ⟨hg, rfl⟩ := h
    exact Or.inr (Or.inl ⟨rfl, fun x => .refl _, rfl, Or.inr ⟨rfl, hg⟩, by simp, by simp⟩)
  | whole e =>
    simp only [lockStep, Option.ite_none_right_eq_some, Option.map_eq_some_iff] at h
    obtain ⟨⟨-, -, hm⟩, k', hk, rfl⟩ := h
    obtain ⟨hseq, hq⟩ := sectionStep_quiet hm hk
    exact Or.inr (Or.inl ⟨hseq, hq, rfl, Or.inl rfl, by simp, by simp⟩)
  | mark e =>
    simp only [lockStep, Option.ite_none_right_eq_some, Option.map_eq_some_iff] at h
    obtain ⟨⟨hst, -⟩, ⟨i, l, k'⟩, hm, rfl⟩ := h
    refine Or.inl ⟨i, l, markRunnable_marks hm, rfl, rfl, fun hf => ?_, by simp, by simp⟩
    rw [hst] at hf
    cases hf
  | stamp i =>
    simp only [lockStep, Option.bind_eq_some_iff, Option.ite_none_right_eq_some,
      Option.some.injEq] at h
    obtain ⟨hd, hi, hf, rfl⟩ := h
    exact Or.inr (Or.inr (Or.inl ⟨i, hd, rfl, hi, hf, rfl⟩))
  | release i =>
    simp only [lockStep, Option.bind_eq_some_iff, Option.ite_none_right_eq_some,
      Option.some.injEq] at h
    obtain ⟨hd, hi, hf, rfl⟩ := h
    have hk : (releaseSlot s i hd).k.mlfqSeq = s.k.mlfqSeq ∧
        (releaseSlot s i hd).k.proc = s.k.proc := by
      unfold releaseSlot
      cases hd.leaves <;> exact ⟨rfl, rfl⟩
    exact Or.inr (Or.inr (Or.inr ⟨i, hd, rfl, hi, hf, hk.1, hk.2, rfl, rfl⟩))

/-! ### Stamps of settled processes -/

theorem settled_iff_of_update {h : Option Holder}
    (hh : s'.holder = Function.update s.holder i h) :
    Settled s' x ↔ if x = i then ∀ d, h = some d → d.stamped = true else Settled s x := by
  unfold Settled
  by_cases hx : x = i
  · subst hx
    simp [hh]
  · simp [hh, hx]

/-- While fewer than `2^64` stamps have been drawn, the settled waiting processes
    have distinct stamps below the counter, and no slot has a stamp that was not
    drawn. Before `started` there is only `init`. -/
structure LockInv (s : LockState) : Prop where
  drawn : s.k.mlfqSeq ≤ 2 ^ 64 →
    ∀ x, Waiting s.k x → Settled s x → (s.k.proc x).enqTime < s.k.mlfqSeq
  distinct : s.k.mlfqSeq ≤ 2 ^ 64 →
    ∀ x y, Waiting s.k x → Waiting s.k y → Settled s x → Settled s y →
      (s.k.proc x).enqTime = (s.k.proc y).enqTime → x = y
  old : s.k.mlfqSeq ≤ 2 ^ 64 →
    ∀ x, (s.k.proc x).enqTime = 0 ∨ (s.k.proc x).enqTime < s.k.mlfqSeq
  alone : s.started = false → ∀ x, Waiting s.k x ∨ s.holder x ≠ none → x = initproc
  counted : s.started = true → 0 < s.k.mlfqSeq

theorem lockInv_start : LockInv LockState.start := by
  have hw : ∀ x, ¬ Waiting LockState.start.k x := by
    intro x hx
    cases hx
  refine ⟨fun _ x hx => absurd hx (hw x), fun _ x _ hx => absurd hx (hw x), fun _ x => Or.inl rfl,
    fun _ x hx => ?_, fun h => by cases h⟩
  rcases hx with hx | hx
  · exact absurd hx (hw x)
  · exact absurd rfl hx

/-- A stamp about to be drawn is above every stamp in a ready queue, settled or
    not. -/
theorem LockInv.lt_seq (hI : LockInv s) (hseq : s.k.mlfqSeq ≤ 2 ^ 64) {h : Holder}
    (hi : s.holder i = some h) {y : Slot} (hy : y ≠ i) (hw : Waiting s.k y) :
    (s.k.proc y).enqTime < s.k.mlfqSeq := by
  cases hst : s.started with
  | false =>
    -- before `started`, both slots are `init`
    have hyi := hI.alone hst y (Or.inl hw)
    have hii := hI.alone hst i (Or.inr (by simp [hi]))
    exact absurd (hyi.trans hii.symm) hy
  | true =>
    have hpos := hI.counted hst
    rcases hI.old hseq y with h0 | hlt
    · omega
    · exact hlt

/-- The process that is made `RUNNABLE` is not settled, so nothing is said about
    its stamp. -/
theorem LockInv.marks (hI : LockInv s) (hm : Marks s.k i s'.k)
    (hh : s'.holder = Function.update s.holder i (some ⟨false, l⟩)) (hst : s'.started = s.started)
    (hi : s.started = false → i = initproc) : LockInv s' := by
  have hset : ∀ x, Settled s' x → x ≠ i ∧ Settled s x := by
    intro x hx
    rw [settled_iff_of_update hh] at hx
    by_cases hxi : x = i
    · rw [if_pos hxi] at hx
      exact absurd (hx _ rfl) (by simp)
    · rw [if_neg hxi] at hx
      exact ⟨hxi, hx⟩
  have hwait : ∀ x, x ≠ i → Waiting s'.k x → Waiting s.k x := by
    intro x hxi hx
    rw [Waiting, hm.other x hxi] at hx
    exact hx
  refine ⟨?_, ?_, ?_, ?_, ?_⟩
  · rw [hm.seq]
    intro hle x hx hsx
    obtain ⟨hxi, hsx⟩ := hset x hsx
    rw [hm.stamp]
    exact hI.drawn hle x (hwait x hxi hx) hsx
  · rw [hm.seq]
    intro hle x y hx hy hsx hsy hxy
    obtain ⟨hxi, hsx⟩ := hset x hsx
    obtain ⟨hyi, hsy⟩ := hset y hsy
    rw [hm.stamp, hm.stamp] at hxy
    exact hI.distinct hle x y (hwait x hxi hx) (hwait y hyi hy) hsx hsy hxy
  · rw [hm.seq]
    intro hle x
    rw [hm.stamp]
    exact hI.old hle x
  · rw [hst]
    intro hf x hx
    by_cases hxi : x = i
    · rw [hxi, hi hf]
    · rw [hh, Function.update_of_ne hxi] at hx
      exact hI.alone hf x (hx.imp_left (hwait x hxi))
  · rw [hst, hm.seq]
    exact hI.counted

theorem LockInv.quiet (hI : LockInv s) (hseq : s'.k.mlfqSeq = s.k.mlfqSeq)
    (hq : ∀ x, Quiet (s.k.proc x) (s'.k.proc x)) (hh : s'.holder = s.holder)
    (hst : s'.started = s.started ∨
      s'.started = true ∧ Waiting s.k initproc ∧ s.holder initproc = none) : LockInv s' := by
  have hset : ∀ x, Settled s' x → Settled s x := by
    intro x hx
    rw [Settled, hh] at hx
    exact hx
  refine ⟨?_, ?_, ?_, ?_, ?_⟩
  · rw [hseq]
    intro hle x hx hsx
    obtain ⟨hx, he⟩ := (hq x).waiting hx
    rw [he]
    exact hI.drawn hle x hx (hset x hsx)
  · rw [hseq]
    intro hle x y hx hy hsx hsy hxy
    obtain ⟨hx, hex⟩ := (hq x).waiting hx
    obtain ⟨hy, hey⟩ := (hq y).waiting hy
    rw [hex, hey] at hxy
    exact hI.distinct hle x y hx hy (hset x hsx) (hset y hsy) hxy
  · rw [hseq]
    intro hle x
    rcases (hq x).stamp with he | he
    · rw [he]
      exact hI.old hle x
    · exact Or.inl he
  · intro hf x hx
    rcases hst with hst | ⟨ht, -⟩
    · rw [hh] at hx
      exact hI.alone (hst ▸ hf) x (hx.imp_left (fun hw => ((hq x).waiting hw).1))
    · rw [ht] at hf
      cases hf
  · intro ht
    rw [hseq]
    rcases hst with hst | ⟨-, hw, hfree⟩
    · exact hI.counted (hst ▸ ht)
    · by_cases hle : s.k.mlfqSeq ≤ 2 ^ 64
      · exact Nat.zero_lt_of_lt (hI.drawn hle initproc hw (.of_free hfree))
      · omega

theorem mlfqEnqueue_enqTime_self (k : Kernel) (i : Slot) :
    ((mlfqEnqueue k i).proc i).enqTime = k.mlfqSeq % 2 ^ 64 := by
  simp [mlfqEnqueue]

theorem mlfqEnqueue_proc_of_ne (k : Kernel) {i x : Slot} (h : x ≠ i) :
    (mlfqEnqueue k i).proc x = k.proc x := by
  simp [mlfqEnqueue, Kernel.modify_proc_of_ne _ _ h]

theorem mlfqEnqueue_waiting (k : Kernel) (i x : Slot) :
    Waiting (mlfqEnqueue k i) x ↔ Waiting k x := by
  unfold Waiting
  by_cases hx : x = i
  · subst hx
    simp [mlfqEnqueue]
  · rw [mlfqEnqueue_proc_of_ne k hx]

/-- The stamp drawn is the counter, which is above every stamp drawn so far. -/
theorem LockInv.stamp (hI : LockInv s) {h : Holder} (hi : s.holder i = some h) :
    LockInv { s with
      k := mlfqEnqueue s.k i
      holder := Function.update s.holder i (some { h with stamped := true }) } := by
  have hset : ∀ x, x ≠ i → ∀ t : LockState,
      t.holder = Function.update s.holder i (some { h with stamped := true }) →
      Settled t x → Settled s x := by
    intro x hx t ht hs
    rwa [settled_iff_of_update ht, if_neg hx] at hs
  have hseq : (mlfqEnqueue s.k i).mlfqSeq = s.k.mlfqSeq + 1 := rfl
  refine ⟨?_, ?_, ?_, ?_, ?_⟩
  · intro hle x hx hsx
    simp only [hseq] at hle ⊢
    by_cases hxi : x = i
    · rw [hxi, mlfqEnqueue_enqTime_self, Nat.mod_eq_of_lt (by omega)]
      omega
    · rw [mlfqEnqueue_proc_of_ne _ hxi]
      have := hI.drawn (by omega) x ((mlfqEnqueue_waiting _ _ _).mp hx) (hset x hxi _ rfl hsx)
      omega
  · intro hle x y hx hy hsx hsy hxy
    simp only [hseq] at hle
    have hx' := (mlfqEnqueue_waiting _ _ _).mp hx
    have hy' := (mlfqEnqueue_waiting _ _ _).mp hy
    have hmod : s.k.mlfqSeq % 2 ^ 64 = s.k.mlfqSeq := Nat.mod_eq_of_lt (by omega)
    by_cases hxi : x = i <;> by_cases hyi : y = i
    · rw [hxi, hyi]
    · simp only [hxi, mlfqEnqueue_enqTime_self, mlfqEnqueue_proc_of_ne _ hyi, hmod] at hxy
      have := hI.lt_seq (by omega) hi hyi hy'
      omega
    · simp only [hyi, mlfqEnqueue_enqTime_self, mlfqEnqueue_proc_of_ne _ hxi, hmod] at hxy
      have := hI.lt_seq (by omega) hi hxi hx'
      omega
    · simp only [mlfqEnqueue_proc_of_ne _ hxi, mlfqEnqueue_proc_of_ne _ hyi] at hxy
      exact hI.distinct (by omega) x y hx' hy' (hset x hxi _ rfl hsx) (hset y hyi _ rfl hsy) hxy
  · intro hle x
    simp only [hseq] at hle ⊢
    by_cases hxi : x = i
    · right
      rw [hxi, mlfqEnqueue_enqTime_self, Nat.mod_eq_of_lt (by omega)]
      omega
    · rw [mlfqEnqueue_proc_of_ne _ hxi]
      rcases hI.old (by omega) x with h0 | hlt
      · exact Or.inl h0
      · exact Or.inr (by omega)
  · intro hf x hx
    by_cases hxi : x = i
    · exact hxi ▸ hI.alone hf i (Or.inr (by simp [hi]))
    · simp only [mlfqEnqueue_waiting, Function.update_of_ne hxi] at hx
      exact hI.alone hf x hx
  · intro _
    exact Nat.succ_pos _

theorem LockInv.release (hI : LockInv s) {h : Holder} (hi : s.holder i = some h)
    (hd : h.stamped = true) (hseq : s'.k.mlfqSeq = s.k.mlfqSeq) (hp : s'.k.proc = s.k.proc)
    (hst : s'.started = s.started) (hh : s'.holder = Function.update s.holder i none) :
    LockInv s' := by
  have hset : ∀ x, Settled s' x → Settled s x := by
    intro x hx
    by_cases hxi : x = i
    · intro d hxd
      rw [hxi, hi] at hxd
      cases hxd
      exact hd
    · rwa [settled_iff_of_update hh, if_neg hxi] at hx
  have hwait : ∀ x, Waiting s'.k x ↔ Waiting s.k x := by
    intro x
    unfold Waiting
    rw [hp]
  refine ⟨?_, ?_, ?_, ?_, ?_⟩
  · rw [hseq, hp]
    exact fun hle x hx hsx => hI.drawn hle x ((hwait x).mp hx) (hset x hsx)
  · rw [hseq, hp]
    exact fun hle x y hx hy hsx hsy =>
      hI.distinct hle x y ((hwait x).mp hx) ((hwait y).mp hy) (hset x hsx) (hset y hsy)
  · rw [hseq, hp]
    exact hI.old
  · rw [hst, hh]
    intro hf x hx
    refine hI.alone hf x (hx.imp (hwait x).mp (fun hne h0 => hne ?_))
    by_cases hxi : x = i
    · rw [hxi, Function.update_self]
    · rw [Function.update_of_ne hxi, h0]
  · rw [hst, hseq]
    exact hI.counted

theorem lockStep_lockInv {e : LockEvent} (hI : LockInv s) (h : lockStep s e = some s') :
    LockInv s' := by
  rcases lockStep_cases h with ⟨i, l, hm, hh, hst, hi, -⟩ | ⟨hseq, hq, hh, hst, -⟩ |
    ⟨i, d, -, hi, -, rfl⟩ | ⟨i, d, -, hi, hd, hseq, hp, hst, hh⟩
  · exact hI.marks hm hh hst hi
  · exact hI.quiet hseq hq hh hst
  · exact hI.stamp hi
  · exact hI.release hi hd hseq hp hst hh

theorem exec_lockInv {es : List LockEvent} (h : exec lockStep LockState.start es = some s) :
    LockInv s := by
  refine exec_invariant (fun s e t hI hst => ?_) lockInv_start h
  exact lockStep_lockInv hI hst

theorem lockStep_mlfqSeq_le {e : LockEvent} (h : lockStep s e = some s') :
    s.k.mlfqSeq ≤ s'.k.mlfqSeq := by
  rcases lockStep_cases h with ⟨i, l, hm, -⟩ | ⟨hseq, -⟩ | ⟨i, d, -, -, -, rfl⟩ |
    ⟨i, d, -, -, -, hseq, -⟩
  · exact hm.seq.ge
  · exact hseq.ge
  · exact Nat.le_succ _
  · exact hseq.ge

theorem exec_mlfqSeq_le {es : List LockEvent} (h : exec lockStep s es = some s') :
    s.k.mlfqSeq ≤ s'.k.mlfqSeq := by
  refine exec_invariant (I := fun t => s.k.mlfqSeq ≤ t.k.mlfqSeq) (fun t e t' hI hst => ?_)
    le_rfl h
  exact hI.trans (lockStep_mlfqSeq_le hst)

/-! ### The stamp is drawn before the lock is released -/

/-- A process becomes `RUNNABLE` only with its lock held and its stamp still to
    be drawn. -/
theorem holder_of_becomes_waiting {e : LockEvent} (h : lockStep s e = some s')
    (hn : ¬ Waiting s.k x) (hx : Waiting s'.k x) : ∃ l, s'.holder x = some ⟨false, l⟩ := by
  rcases lockStep_cases h with ⟨i, l, hm, hh, -⟩ | ⟨-, hq, -⟩ | ⟨i, d, -, -, -, rfl⟩ |
    ⟨i, d, -, -, -, -, hp, -⟩
  · by_cases hxi : x = i
    · exact ⟨l, by rw [hh, hxi, Function.update_self]⟩
    · rw [Waiting, hm.other x hxi] at hx
      exact absurd hx hn
  · exact absurd ((hq x).waiting hx).1 hn
  · exact absurd ((mlfqEnqueue_waiting _ _ _).mp hx) hn
  · rw [Waiting, hp] at hx
    exact absurd hx hn

/-- Until the stamp is drawn, no piece releases the lock. -/
theorem lockStep_unstamped {e : LockEvent} (h : lockStep s e = some s')
    (hx : s.holder x = some ⟨false, l⟩) (he : e ≠ .stamp x) :
    ∃ l', s'.holder x = some ⟨false, l'⟩ := by
  rcases lockStep_cases h with ⟨i, l', -, hh, -⟩ | ⟨-, -, hh, -⟩ | ⟨i, d, rfl, -, -, rfl⟩ |
    ⟨i, d, -, hi, hd, -, -, -, hh⟩
  · by_cases hxi : x = i
    · exact ⟨l', by rw [hh, hxi, Function.update_self]⟩
    · exact ⟨l, by rw [hh, Function.update_of_ne hxi, hx]⟩
  · exact ⟨l, by rw [hh, hx]⟩
  · have hxi : x ≠ i := by
      rintro rfl
      exact he rfl
    exact ⟨l, by simp only [Function.update_of_ne hxi, hx]⟩
  · have hxi : x ≠ i := by
      rintro rfl
      rw [hx] at hi
      cases hi
      cases hd
    exact ⟨l, by rw [hh, Function.update_of_ne hxi, hx]⟩

/-- A run that starts inside an enqueue of `x` and ends with the lock free has
    drawn the stamp in between, and the lock was held all the way to that point. -/
theorem stamp_of_released {es : List LockEvent} {t : LockState}
    (hx : s.holder x = some ⟨false, l⟩) (h : exec lockStep s es = some t) (ht : t.holder x = none) :
    ∃ es₁ es₂ m m', es = es₁ ++ .stamp x :: es₂ ∧ exec lockStep s es₁ = some m ∧
      lockStep m (.stamp x) = some m' ∧ exec lockStep m' es₂ = some t ∧
      (∀ pre suf u, es₁ = pre ++ suf → exec lockStep s pre = some u → u.holder x ≠ none) := by
  induction es generalizing s l with
  | nil =>
    cases h
    rw [hx] at ht
    cases ht
  | cons e es ih =>
    obtain ⟨n, hsn, hnt⟩ := exec_cons_eq_some.mp h
    by_cases he : e = .stamp x
    · subst he
      refine ⟨[], es, s, n, rfl, rfl, hsn, hnt, fun pre suf u hps hu => ?_⟩
      obtain ⟨rfl, -⟩ := List.nil_eq_append_iff.mp hps
      cases hu
      simp [hx]
    · obtain ⟨l', hn⟩ := lockStep_unstamped hsn hx he
      obtain ⟨es₁, es₂, m, m', rfl, hm, hst, hrest, hheld⟩ := ih hn hnt
      refine ⟨e :: es₁, es₂, m, m', rfl, exec_cons_eq_some.mpr ⟨n, hsn, hm⟩, hst, hrest,
        fun pre suf u hps hu => ?_⟩
      cases pre with
      | nil =>
        cases hu
        simp [hx]
      | cons e' pre =>
        obtain ⟨rfl, hsplit⟩ := List.cons.inj hps
        obtain ⟨n', hsn', hu⟩ := exec_cons_eq_some.mp hu
        rw [hsn] at hsn'
        cases hsn'
        exact hheld pre suf u hsplit hu

/-- The stamp of a settled process stays while the process is `RUNNABLE`. -/
theorem lockStep_keeps_stamp {e : LockEvent} (h : lockStep s e = some s')
    (hset : Settled s x) (hx' : Waiting s'.k x) :
    (s'.k.proc x).enqTime = (s.k.proc x).enqTime := by
  rcases lockStep_cases h with ⟨i, l, hm, -⟩ | ⟨-, hq, -⟩ | ⟨i, d, -, hi, hd, rfl⟩ |
    ⟨i, d, -, -, -, -, hp, -⟩
  · exact hm.stamp x
  · exact ((hq x).waiting hx').2
  · have hxi : x ≠ i := by
      rintro rfl
      rw [hset d hi] at hd
      cases hd
    simp only [mlfqEnqueue_proc_of_ne _ hxi]
  · rw [hp]

/-- **Arrival order under any interleaving.** In every state the lock-free
    `RUNNABLE` processes have distinct stamps below `mlfq_seq`. Whenever a process
    becomes `RUNNABLE`, it draws its stamp before its `p->lock` is released, and
    the stamp is above those of all processes `RUNNABLE` at that moment. From then
    on the stamp stays for as long as the process is `RUNNABLE`. -/
theorem arrival_stamps_fifo {es : List LockEvent}
    (h : exec lockStep LockState.start es = some s) (hseq : s.k.mlfqSeq ≤ 2 ^ 64) :
    (∀ x, Waiting s.k x → s.holder x = none → (s.k.proc x).enqTime < s.k.mlfqSeq) ∧
    (∀ x y, x ≠ y → Waiting s.k x → Waiting s.k y → s.holder x = none → s.holder y = none →
      (s.k.proc x).enqTime ≠ (s.k.proc y).enqTime) ∧
    (∀ es₁ e es₂ s₁ s₂ x, es = es₁ ++ e :: es₂ →
      exec lockStep LockState.start es₁ = some s₁ → lockStep s₁ e = some s₂ →
      ¬ Waiting s₁.k x → Waiting s₂.k x → s.holder x = none →
      ∃ es₃ es₄ m m', es₂ = es₃ ++ .stamp x :: es₄ ∧ exec lockStep s₂ es₃ = some m ∧
        lockStep m (.stamp x) = some m' ∧
        (∀ pre suf u, es₃ = pre ++ suf → exec lockStep s₂ pre = some u → u.holder x ≠ none) ∧
        ∀ y, y ≠ x → Waiting m.k y → (m.k.proc y).enqTime < (m'.k.proc x).enqTime) ∧
    (∀ es₁ e es₂ s₁ s₂ x, es = es₁ ++ e :: es₂ →
      exec lockStep LockState.start es₁ = some s₁ → lockStep s₁ e = some s₂ →
      Waiting s₁.k x → Settled s₁ x → Waiting s₂.k x →
      (s₂.k.proc x).enqTime = (s₁.k.proc x).enqTime) := by
  have hI := exec_lockInv h
  refine ⟨?_, ?_, ?_, ?_⟩
  · exact fun x hx hfree => hI.drawn hseq x hx (.of_free hfree)
  · intro x y hxy hx hy hfx hfy he
    exact hxy (hI.distinct hseq x y hx hy (.of_free hfx) (.of_free hfy) he)
  · intro es₁ e es₂ s₁ s₂ x hes h₁ h₂ hn hw hfree
    obtain ⟨l, hhold⟩ := holder_of_becomes_waiting h₂ hn hw
    have htail : exec lockStep s₂ es₂ = some s := by
      rw [hes, exec_append_eq_some] at h
      obtain ⟨t, ht, htail⟩ := h
      rw [h₁] at ht
      cases ht
      rw [exec_cons, h₂] at htail
      exact htail
    obtain ⟨es₃, es₄, m, m', rfl, hm, hst, hrest, hheld⟩ := stamp_of_released hhold htail hfree
    refine ⟨es₃, es₄, m, m', rfl, hm, hst, hheld, fun y hy hwy => ?_⟩
    have hIm : LockInv m := by
      have hpre : exec lockStep LockState.start (es₁ ++ e :: es₃) = some m :=
        exec_append_eq_some.mpr ⟨s₁, h₁, exec_cons_eq_some.mpr ⟨s₂, h₂, hm⟩⟩
      exact exec_lockInv hpre
    have hle := exec_mlfqSeq_le hrest
    rcases lockStep_cases hst with ⟨_, _, _, _, _, _, hne, _⟩ | ⟨_, _, _, _, hne, _⟩ |
      ⟨i, d, hi, hd, -, rfl⟩ | ⟨i, d, hi, -⟩
    · exact absurd rfl (hne x)
    · exact absurd rfl (hne x)
    · cases hi
      have hlt : m.k.mlfqSeq + 1 ≤ 2 ^ 64 := hle.trans hseq
      simp only [mlfqEnqueue_enqTime_self]
      rw [Nat.mod_eq_of_lt (by omega)]
      exact hIm.lt_seq (by omega) hd hy hwy
    · cases hi
  · intro es₁ e es₂ s₁ s₂ x _ _ h₂ _ hset hw
    exact lockStep_keeps_stamp h₂ hset hw

/-- `init` and its child yield at the same time on two CPUs. The child is marked
    last and stamped first; at the end both wait, in the order of their stamps. -/
theorem arrival_stamps_fifo_yields :
    ∃ s, exec lockStep LockState.start [.userinit, .stamp initproc, .release initproc, .start,
        .whole (.dispatch 0 initproc), .whole (.allocproc 0 firstChild),
        .whole (.kforkParent 0 firstChild), .mark (.kforkRunnable 0 firstChild),
        .stamp firstChild, .release firstChild, .whole (.dispatch 1 firstChild),
        .mark (.yield 0), .mark (.yield 1), .stamp firstChild, .stamp initproc,
        .release initproc, .release firstChild] = some s ∧
      (s.k.proc initproc).enqTime < s.k.mlfqSeq ∧
      (s.k.proc firstChild).enqTime ≠ (s.k.proc initproc).enqTime := by
  have hrun : ∃ s ∈ exec lockStep LockState.start [.userinit, .stamp initproc,
      .release initproc, .start, .whole (.dispatch 0 initproc), .whole (.allocproc 0 firstChild),
      .whole (.kforkParent 0 firstChild), .mark (.kforkRunnable 0 firstChild),
      .stamp firstChild, .release firstChild, .whole (.dispatch 1 firstChild),
      .mark (.yield 0), .mark (.yield 1), .stamp firstChild, .stamp initproc,
      .release initproc, .release firstChild],
      s.k.mlfqSeq ≤ 2 ^ 64 ∧ Waiting s.k firstChild ∧ Waiting s.k initproc ∧
        s.holder firstChild = none ∧ s.holder initproc = none := by
    decide +kernel
  obtain ⟨s, hs, hseq, hwc, hwi, hfc, hfi⟩ := hrun
  have h := arrival_stamps_fifo (Option.mem_def.mp hs) hseq
  exact ⟨s, Option.mem_def.mp hs, h.1 initproc hwi hfi,
    h.2.1 firstChild initproc (by decide) hwc hwi hfc hfi⟩

/-! ### The atomic sections are among the interleavings -/

/-- The state between two sections. -/
def LockState.idle (k : Kernel) : LockState := ⟨k, fun _ => none, true⟩

theorem sectionStep_of_mark {e : Section} {m : Kernel} (hm : markRunnable k e = some (i, l, m))
    (h : sectionStep .mlfq k e = some k') :
    k' = match l with
      | some c => sched (mlfqEnqueue m i) c
      | none => mlfqEnqueue m i := by
  cases e with
  | kforkRunnable c j =>
    simp only [markRunnable, Option.ite_none_right_eq_some, Option.some.injEq,
      Prod.mk.injEq] at hm
    obtain ⟨hg, rfl, rfl, rfl⟩ := hm
    simp only [sectionStep, hg, and_self, if_true, Option.some.injEq] at h
    exact h.symm
  | yield c =>
    simp only [markRunnable, Option.map_eq_some_iff, Prod.mk.injEq] at hm
    obtain ⟨j, hc, rfl, rfl, rfl⟩ := hm
    simp only [sectionStep, hc, Option.map_some, Option.some.injEq] at h
    exact h.symm
  | wakeup c chan j =>
    simp only [markRunnable, Option.ite_none_right_eq_some, Option.some.injEq,
      Prod.mk.injEq] at hm
    obtain ⟨hg, rfl, rfl, rfl⟩ := hm
    rw [sectionStep, wakeupSlot, if_pos hg] at h
    exact (Option.some.inj h).symm
  | kkill c pid j =>
    simp only [markRunnable, Option.ite_none_right_eq_some, Option.some.injEq,
      Prod.mk.injEq] at hm
    obtain ⟨⟨hg, hs⟩, rfl, rfl, rfl⟩ := hm
    rw [sectionStep, if_pos hg] at h
    have hs' : ((k.modify j (fun p => { p with killed := true })).proc j).state = .sleeping := by
      rw [Kernel.modify_proc_self]
      exact hs
    rw [kkillSlot, if_pos hs'] at h
    exact (Option.some.inj h).symm
  | _ => simp [markRunnable] at hm

theorem sectionStep_reaches {e : Section} (h : sectionStep .mlfq k e = some k') :
    ∃ es, exec lockStep (.idle k) es = some (.idle k') := by
  have hfree : lockFree (.idle k) e = true := by
    unfold lockFree
    cases lockedSlot (LockState.idle k).k e <;> rfl
  rcases hm : markRunnable k e with _ | ⟨i, l, m⟩
  · have hwhole : lockStep (.idle k) (.whole e) = some (.idle k') := by
      have hn : (markRunnable (LockState.idle k).k e).isNone = true := by
        rw [LockState.idle, hm]
        rfl
      rw [lockStep, if_pos ⟨rfl, hfree, hn⟩]
      exact congrArg (Option.map _) h
    exact ⟨[.whole e], by rw [exec_singleton, hwhole]⟩
  · have hk := sectionStep_of_mark hm h
    refine ⟨[.mark e, .stamp i, .release i], ?_⟩
    have hmark : lockStep (.idle k) (.mark e) =
        some ⟨m, Function.update (fun _ => none) i (some ⟨false, l⟩), true⟩ := by
      rw [lockStep, if_pos ⟨rfl, hfree⟩]
      exact congrArg (Option.map _) hm
    rw [exec_cons, hmark]
    cases l <;> simp [exec, lockStep, releaseSlot, hk, LockState.idle]

/-- **Every run of atomic sections is a run of their pieces**, from the call of
    `userinit` on. -/
theorem exec_sectionStep_reaches {es : List Section}
    (h : exec (sectionStep .mlfq) (boot .mlfq) es = some k') :
    ∃ fs, exec lockStep LockState.start fs = some (.idle k') := by
  have hboot : exec lockStep LockState.start
      [.userinit, .stamp initproc, .release initproc, .start] = some (.idle (boot .mlfq)) := by
    have hinit : lockStep LockState.start .userinit =
        some ⟨setRunnable (allocproc .mlfq procinit initproc) initproc,
          Function.update (fun _ => none) initproc (some ⟨false, none⟩), false⟩ := rfl
    have hw : Waiting (boot .mlfq) initproc := rfl
    rw [exec_cons, hinit]
    simp [exec, lockStep, releaseSlot, LockState.idle]
    exact ⟨hw, rfl⟩
  refine exec_invariant (I := fun k => ∃ fs, exec lockStep LockState.start fs = some (.idle k))
    (fun k e k' hI hst => ?_) ⟨_, hboot⟩ h
  obtain ⟨fs, hfs⟩ := hI
  obtain ⟨gs, hgs⟩ := sectionStep_reaches hst
  exact ⟨fs ++ gs, exec_append_eq_some.mpr ⟨_, hfs, hgs⟩⟩

end MiniOs.Xv6

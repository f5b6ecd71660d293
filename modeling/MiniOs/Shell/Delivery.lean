import Mathlib.Data.List.Perm.Basic
import MiniOs.Shell.Ledger

/-!
# Every collected status is recorded once

`waitpid` hands a status to the SIGCHLD handler, which queues it, or to the sweep of
`check_bg_jobs`, which records it at once. The first loop of `check_bg_jobs` records what
it has copied out of the queue. An observer who writes down both what was collected and
what was recorded finds that the two differ by what is still on its way. While nothing but
the kernel, the handler and `check_bg_jobs` runs, the job table and the output are what
`record_status` makes of the recorded statuses, one after the other.
-/

namespace MiniOs.Shell

open Trace

variable {c : Child} {e : Event} {es : List Event} {st : WaitStatus} {w w' : World}

def statusOf (children : List Child) (pid : Pid) : List Record :=
  ((waitpid children pid true).map (fun x => ⟨x.1.pid, x.1.uid, x.2⟩)).toList

/-- What `waitpid` returns to the handler in a step. -/
def queuedBy (w : World) : Event → List Record
  | .handler .iter =>
    match w.handler with
    | some i =>
      if i < w.watched.length ∧ w.queue.length < maxWatch ∧ w.watched.getD i 0 ≠ 0 then
        statusOf w.children (w.watched.getD i 0)
      else []
    | none => []
  | _ => []

/-- What `waitpid` returns to the sweep in a step, which passes it to `record_status`. -/
def sweptBy (w : World) : Event → List Record
  | .main (.sweepCollect pid) => statusOf w.children pid
  | _ => []

/-- What the first loop of `check_bg_jobs` passes to `record_status` in a step. -/
def appliedBy (w : World) : Event → List Record
  | .main .drainApply => w.pc.copied.take 1
  | _ => []

/-- The statuses `waitpid` has returned to the handler and to the sweep, and those that
    have been passed to `record_status`. -/
structure StatusLog where
  collected : List Record
  recorded : List Record

/-- The observer's entry for a step. -/
def noteStatus (w : World) (e : Event) (log : StatusLog) : StatusLog :=
  ⟨log.collected ++ (queuedBy w e ++ sweptBy w e), log.recorded ++ (appliedBy w e ++ sweptBy w e)⟩

def StatusLog.empty : StatusLog := ⟨[], []⟩

theorem statusOf_eq {children : List Child} {pid : Pid}
    (hwait : waitpid children pid true = some (c, st)) :
    statusOf children pid = [⟨pid, c.uid, st⟩] := by
  obtain ⟨-, hpid, -⟩ := waitpid_eq_some hwait
  rw [statusOf, hwait, ← hpid]
  rfl

/-- The handler queues what it collects, and nothing else happens to the queue. -/
theorem handlerStep_queue {e : HandlerEvent} (h : handlerStep w e = some w') :
    w'.queue = w.queue ++ queuedBy w (.handler e) ∧ w'.pc = w.pc := by
  cases e with
  | enter =>
    rw [handlerStep] at h
    split_ifs at h
    cases h
    exact ⟨(List.append_nil _).symm, rfl⟩
  | iter =>
    rw [handlerStep] at h
    split at h
    · cases h
    · next i hi =>
      rw [queuedBy, hi]
      dsimp only
      split_ifs at h with hloop
      · cases h
        rw [handlerVisit]
        dsimp only
        by_cases hzero : w.watched.getD i 0 = 0
        · rw [if_pos hzero, if_neg (fun hc => hc.2.2 hzero)]
          exact ⟨(List.append_nil _).symm, rfl⟩
        · rw [if_neg hzero, if_pos ⟨hloop.1, hloop.2, hzero⟩]
          split
          · next hwait =>
            rw [statusOf, hwait]
            exact ⟨(List.append_nil _).symm, rfl⟩
          · next c st hwait =>
            rw [statusOf_eq hwait]
            exact ⟨rfl, rfl⟩
      · cases h
        rw [if_neg (fun hc => hloop ⟨hc.1, hc.2.1⟩)]
        exact ⟨(List.append_nil _).symm, rfl⟩

/-- A step of the program takes from the front of the backlog what it applies. -/
theorem Acts.backlog {e : MainEvent} (h : Acts w e w') :
    w.backlog = appliedBy w (.main e) ++ w'.backlog := by
  -- the program counter is the only thing that matters, and it holds no statuses
  have hquiet : ∀ {pc : Pc}, w.pc = pc → pc.copied = [] → w.backlog = [] ++ w.queue := by
    intro pc hpc hcopied
    rw [World.backlog, hpc, hcopied]
  cases h with
  | forkStage hpid hnew hpc =>
    rcases hpc with hpc | ⟨hpc, -, -⟩
    · exact hquiet hpc rfl
    · exact hquiet hpc rfl
  | forkHelper hpid hnew => rfl
  | helperWait hpc => rfl
  | pingStop hpc => rfl
  | pingCont hpc => rfl
  | resumeBg hpc hj => rfl
  | copyDrain hpc => rfl
  | copySnoop hpc => rfl
  | sweepCollect hpc hwait => rfl
  | drainCopy hpc =>
    rw [hquiet hpc rfl]
    exact (List.append_nil _).symm
  | drainApply hpc =>
    rw [World.backlog, appliedBy, hpc]
    rfl
  | fgStatus hpc => exact hquiet hpc rfl
  | fgGone hpc => exact hquiet hpc rfl
  | registerBg hpc => exact hquiet hpc rfl
  | registerStopped hpc => exact hquiet hpc rfl
  | launchDone hpc => exact hquiet hpc rfl
  | drainEnd hpc => exact hquiet hpc rfl
  | sweepEnd hpc => exact hquiet hpc rfl
  | resumeFg hpc => exact hquiet hpc rfl
  | resumeWait hpc => exact hquiet hpc rfl
  | waitStop hpc => exact hquiet hpc rfl
  | waitExit hpc => exact hquiet hpc rfl
  | waitGone hpc => exact hquiet hpc rfl
  | waitTimeout hpc => exact hquiet hpc rfl
  | stopAgain hpc => exact hquiet hpc rfl
  | resumeOver hpc => exact hquiet hpc rfl
  | snoopBegin hpc => exact hquiet hpc rfl
  | snoopForeign hpc => exact hquiet hpc rfl
  | snoopChild hpc => exact hquiet hpc rfl
  | snoopDetached hpc => exact hquiet hpc rfl

/-- **Step lemma**: what a step queues goes to the back of the statuses on their way,
    and what it applies comes from the front. -/
theorem step_backlog (h : step w e = some w') :
    w.backlog ++ queuedBy w e = appliedBy w e ++ w'.backlog := by
  cases e with
  | kernel e =>
    obtain ⟨-, rfl⟩ := kernelStep_cases h
    exact List.append_nil _
  | handler e =>
    obtain ⟨hqueue, hpc⟩ := handlerStep_queue h
    show w.backlog ++ _ = w'.pc.copied ++ w'.queue
    rw [hqueue, hpc, ← List.append_assoc]
    rfl
  | main e =>
    show w.backlog ++ [] = _
    rw [List.append_nil]
    cases step_moves h with
    | call hidle hcalls => rfl
    | act hidle hcalls hact => exact hact.backlog

/-- The queue takes one more status only while it has room. -/
theorem step_queue (h : step w e = some w') :
    w'.queue = w.queue ∨ w'.queue = [] ∨
      w.queue.length < maxWatch ∧ ∃ r, w'.queue = w.queue ++ [r] := by
  cases step_moves h with
  | change hfind hlive => exact .inl rfl
  | turn i => exact .inl rfl
  | reap hi hlt hroom hpid hzero hwait => exact .inr (.inr ⟨hroom, _, rfl⟩)
  | call hidle hcalls => exact .inl rfl
  | act hidle hcalls hact =>
    cases hact with
    | drainCopy hpc => exact .inr (.inl rfl)
    | _ => exact .inl rfl

/-- The table and the output after `record_status` of each of the statuses in turn. -/
def recordAll (x : JobTable × List Line) (rs : List Record) : JobTable × List Line :=
  rs.foldl (fun x r => ((recordStatus x.1 r.pid r.status).table,
    x.2 ++ (recordStatus x.1 r.pid r.status).lines)) x

/-- The steps of the kernel, the handler and `check_bg_jobs`, with its calls of
    `bg_unwatch_pid`. -/
def Event.checks : Event → Bool
  | .kernel _ | .handler _ => true
  | .main .call | .main .drainCopy | .main .drainApply | .main .drainEnd
  | .main (.sweepCollect _) | .main .sweepEnd => true
  | _ => false

/-- **Step lemma**: `record_status` is called with the statuses that the observer notes, and
    nothing else changes the table or prints a line. -/
theorem step_records (h : step w e = some w') (hchecks : e.checks = true) :
    (w'.table, w'.out) = recordAll (w.table, w.out) (appliedBy w e ++ sweptBy w e) := by
  cases step_moves h with
  | change hfind hlive => rfl
  | turn i => rfl
  | reap hi hlt hroom hpid hzero hwait => rfl
  | call hidle hcalls => rfl
  | act hidle hcalls hact =>
    cases hact with
    | drainCopy hpc => rfl
    | drainApply hpc =>
      rw [appliedBy, hpc]
      rfl
    | drainEnd hpc => rfl
    | sweepCollect hpc hwait =>
      rw [sweptBy, statusOf_eq hwait]
      rfl
    | sweepEnd hpc hnone => rfl
    | _ => cases hchecks

/-- **Run lemma**: while only the kernel, the handler and `check_bg_jobs` run, the table and
    the output are those that `record_status` leaves of the recorded statuses. -/
theorem exec_records (h : exec step w es = some w') (hchecks : ∀ e ∈ es, e.checks = true) :
    (w'.table, w'.out) =
      recordAll (w.table, w.out) (observe step noteStatus w .empty es).recorded := by
  have hok : Guarded step (fun _ e => e.checks = true) w es :=
    guarded_of_forall_mem (fun e he _ => hchecks e he) w
  have hstart : (w.table, w.out) = recordAll (w.table, w.out) StatusLog.empty.recorded := rfl
  refine observe_invariant (I := fun v (log : StatusLog) =>
    (v.table, v.out) = recordAll (w.table, w.out) log.recorded)
    (fun v log e v' hI he hst => ?_) hstart hok h
  show _ = recordAll (w.table, w.out) (log.recorded ++ (appliedBy v e ++ sweptBy v e))
  rw [step_records hst he, hI]
  exact List.foldl_append.symm

/-- **Run lemma**: what was collected is what was recorded and what is on its way. -/
theorem observe_noteStatus (h : exec step boot es = some w) :
    w.queue.length ≤ maxWatch ∧
      (observe step noteStatus boot .empty es).collected.Perm
        ((observe step noteStatus boot .empty es).recorded ++ w.backlog) := by
  have hok : Guarded step (fun _ _ => True) boot es := guarded_of_forall (fun _ _ => trivial) _ _
  have hboot : boot.queue.length ≤ maxWatch ∧
      StatusLog.empty.collected.Perm (StatusLog.empty.recorded ++ boot.backlog) :=
    ⟨Nat.zero_le _, .refl _⟩
  refine observe_invariant (I := fun w (log : StatusLog) => w.queue.length ≤ maxWatch ∧
    log.collected.Perm (log.recorded ++ w.backlog))
    (fun w log e w' hI _ hst => ⟨?_, ?_⟩) hboot hok h
  · rcases step_queue hst with hq | hq | ⟨hroom, r, hq⟩
    · rw [hq]
      exact hI.1
    · rw [hq]
      exact Nat.zero_le _
    · rw [hq, List.length_append]
      exact hroom
  · show (log.collected ++ (queuedBy w e ++ sweptBy w e)).Perm
      (log.recorded ++ (appliedBy w e ++ sweptBy w e) ++ w'.backlog)
    have hpush : (log.collected ++ queuedBy w e ++ sweptBy w e).Perm
        (log.recorded ++ (appliedBy w e ++ w'.backlog) ++ sweptBy w e) := by
      rw [← step_backlog hst, ← List.append_assoc]
      exact (hI.2.append_right _).append_right _
    have hswap : (log.recorded ++ (appliedBy w e ++ w'.backlog) ++ sweptBy w e).Perm
        (log.recorded ++ (appliedBy w e ++ sweptBy w e) ++ w'.backlog) := by
      simp only [List.append_assoc]
      exact (List.perm_append_comm.append_left _).append_left _
    rw [← List.append_assoc]
    exact hpush.trans hswap

/-! ### What the kernel has to report -/

/-- The steps in which a command waits for a process itself. -/
def Event.waits : Event → Bool
  | .main (.fgWait _) | .main (.helperWait _) | .main .waitNext | .main (.snoopExited _) => true
  | _ => false

theorem KernelEvent.apply_status (e : KernelEvent) (c : Child) :
    (e.apply c).status true ≠ none := by
  cases e <;> exact Option.some_ne_none _

theorem mem_takeStatus_or_eq {children : List Child} (hnd : (children.map Child.pid).Nodup)
    {d : Child} {st' : WaitStatus} {pid : Pid} (hc : c ∈ children) (hst : c.status true = some st)
    (hwait : waitpid children pid true = some (d, st')) :
    c ∈ takeStatus children d.pid ∨ statusOf children pid = [⟨c.pid, c.uid, st⟩] := by
  obtain ⟨hd, hpid, hst'⟩ := waitpid_eq_some hwait
  by_cases hcd : c.pid = d.pid
  · right
    cases eq_of_pid hnd hc hd hcd
    cases hst.symm.trans hst'
    rw [statusOf_eq hwait, ← hpid]
  · exact .inl (mem_takeStatus.mpr (.inl ⟨hc, hcd⟩))

/-- **Step lemma**: a status the kernel has to report stays until the handler or the
    sweep collects it or the state of the process changes again, and then there is a
    status to report as well. -/
theorem step_keeps_status (hnd : (w.children.map Child.pid).Nodup) (h : step w e = some w')
    (hwaits : e.waits = false) (hc : c ∈ w.children) (hst : c.status true = some st) :
    c ∈ w'.children ∨
    (∃ k : KernelEvent, e = .kernel k ∧ k.pid = c.pid ∧ k.apply c ∈ w'.children) ∨
    queuedBy w e ++ sweptBy w e = [⟨c.pid, c.uid, st⟩] := by
  cases step_moves h with
  | @change k d hfind hlive =>
    by_cases hpid : c.pid = k.pid
    · exact .inr (.inl ⟨k, rfl, hpid.symm, List.mem_map.mpr ⟨c, hc, if_pos hpid⟩⟩)
    · exact .inl (List.mem_map.mpr ⟨c, hc, if_neg hpid⟩)
  | turn i => exact .inl hc
  | @reap i d st' hi hlt hroom hpid hzero hwait =>
    rcases mem_takeStatus_or_eq hnd hc hst hwait with hkeep | hthis
    · exact .inl hkeep
    · right
      right
      rw [queuedBy, hi]
      dsimp only
      rw [hpid, if_pos ⟨hlt, hroom, hzero⟩, hthis]
      rfl
  | call hidle hcalls => exact .inl hc
  | act hidle hcalls hact =>
    cases hact with
    | forkStage hpid hnew hpc => exact .inl (List.mem_append_left _ hc)
    | forkHelper hpid hnew => exact .inl (List.mem_append_left _ hc)
    | sweepCollect hpc hwait =>
      rcases mem_takeStatus_or_eq hnd hc hst hwait with hkeep | hthis
      · exact .inl hkeep
      · exact .inr (.inr hthis)
    | fgStatus => cases hwaits
    | helperWait => cases hwaits
    | waitStop => cases hwaits
    | waitExit => cases hwaits
    | snoopChild => cases hwaits
    | _ => exact .inl hc

theorem mem_collected_observe {log : StatusLog} {r : Record} (h : exec step w es = some w')
    (hr : r ∈ log.collected) :
    r ∈ (observe step noteStatus w log es).collected := by
  have hok : Guarded step (fun _ _ => True) w es := guarded_of_forall (fun _ _ => trivial) _ _
  exact observe_invariant (I := fun _ (log : StatusLog) => r ∈ log.collected)
    (fun _ _ _ _ hmem _ _ => List.mem_append_left _ hmem) hr hok h

/-- No event of the run changes the state of the child `pid`. -/
def Undisturbed (pid : Pid) (es : List Event) : Prop :=
  ∀ k : KernelEvent, Event.kernel k ∈ es → k.pid ≠ pid

theorem Undisturbed.tail {pid : Pid} (h : Undisturbed pid (e :: es)) : Undisturbed pid es :=
  fun k hk => h k (List.mem_cons_of_mem e hk)

/-- **Run lemma**: as long as no command waits for a process itself, a status the kernel
    has to report for it is collected by the handler or the sweep, or there still is one. -/
theorem exec_keeps_status (log : StatusLog) (hk : KernelOk w.ids w.nextUid w.collector)
    (hwaits : ∀ e ∈ es, e.waits = false) (h : exec step w es = some w') (hc : c ∈ w.children)
    (hst : c.status true = some st) :
    (∃ r ∈ (observe step noteStatus w log es).collected,
      r.uid = c.uid ∧ (Undisturbed c.pid es → r = ⟨c.pid, c.uid, st⟩)) ∨
    ∃ c' ∈ w'.children, c'.uid = c.uid ∧ c'.status true ≠ none ∧
      (Undisturbed c.pid es → c' = c) := by
  induction es generalizing w log c st with
  | nil =>
    cases h
    exact .inr ⟨c, hc, rfl, by rw [hst]; exact Option.some_ne_none st, fun _ => rfl⟩
  | cons e es ih =>
    obtain ⟨m, hsm, hmt⟩ := exec_cons_eq_some.mp h
    have hobs : observe step noteStatus w log (e :: es) =
        observe step noteStatus m (noteStatus w e log) es := by
      simp only [observe, hsm]
    have hrest : ∀ e' ∈ es, e'.waits = false :=
      fun e' he' => hwaits e' (List.mem_cons_of_mem e he')
    rw [hobs]
    rcases step_keeps_status hk.pids_nodup hsm (hwaits e List.mem_cons_self) hc hst with
      hstay | ⟨k, rfl, hpid, hnew⟩ | hthis
    · rcases ih _ (hk.step hsm) hrest hmt hstay hst with ⟨r, hr, hu, heq⟩ | ⟨c', hc', hu, hne, heq⟩
      · exact .inl ⟨r, hr, hu, fun hund => heq hund.tail⟩
      · exact .inr ⟨c', hc', hu, hne, fun hund => heq hund.tail⟩
    · -- the state has changed, so the run is not undisturbed
      obtain ⟨st', hst'⟩ := Option.ne_none_iff_exists'.mp (k.apply_status c)
      have huid : (k.apply c).uid = c.uid := congrArg (fun i => i.2.1) (k.apply_id c)
      have hdist : ¬ Undisturbed c.pid (.kernel k :: es) :=
        fun hund => hund k List.mem_cons_self hpid
      rcases ih _ (hk.step hsm) hrest hmt hnew hst' with ⟨r, hr, hu, -⟩ | ⟨c', hc', hu, hne, -⟩
      · exact .inl ⟨r, hr, hu.trans huid, fun hund => absurd hund hdist⟩
      · exact .inr ⟨c', hc', hu.trans huid, hne, fun hund => absurd hund hdist⟩
    · refine .inl ⟨⟨c.pid, c.uid, st⟩, mem_collected_observe hmt ?_, rfl, fun _ => rfl⟩
      show _ ∈ log.collected ++ (queuedBy w e ++ sweptBy w e)
      rw [hthis]
      exact List.mem_append_right _ List.mem_cons_self

/-- The sweep of `check_bg_jobs` ends when the kernel has nothing left to report. -/
theorem sweepEnd_children (h : step w (.main .sweepEnd) = some w') :
    ∀ c ∈ w'.children, c.status true = none := by
  cases step_moves h with
  | act hidle hcalls hact =>
    cases hact with
    | sweepEnd hpc hnone => exact hnone

/-- **No wait status is lost or applied twice**: the queue stays within its array; the
    statuses that `waitpid` returned to the handler and to the sweep are those passed to
    `record_status` and those still in the queue or the copy of it, each as often; from every
    state on, as long as only the kernel, the handler and `check_bg_jobs` run, the job table
    and the output are what one call of `record_status` for each recorded status makes of
    them, in order; and a status that was not collected stays with the kernel until the
    handler or the sweep collects it, at the latest when a sweep ends. -/
theorem statuses_recorded_once {es : List Event} {w : World} (h : exec step boot es = some w) :
    w.queue.length ≤ maxWatch ∧
    (∀ e w', step w e = some w' → w'.queue = w.queue ∨ w'.queue = [] ∨
      w.queue.length < maxWatch ∧ ∃ r, w'.queue = w.queue ++ [r]) ∧
    (observe step noteStatus boot .empty es).collected.Perm
      ((observe step noteStatus boot .empty es).recorded ++ w.backlog) ∧
    (∀ fs w', (∀ e ∈ fs, e.checks = true) → exec step w fs = some w' → (w'.table, w'.out) =
      recordAll (w.table, w.out) (observe step noteStatus w .empty fs).recorded) ∧
    ∀ c ∈ w.children, ∀ st, c.status true = some st → ∀ fs w',
      (∀ e ∈ fs, e.waits = false) → exec step w fs = some w' →
      (∃ r ∈ (observe step noteStatus w .empty fs).collected,
        r.uid = c.uid ∧ (Undisturbed c.pid fs → r = ⟨c.pid, c.uid, st⟩)) ∨
      (∃ c' ∈ w'.children, c'.uid = c.uid ∧ c'.status true ≠ none ∧
        (Undisturbed c.pid fs → c' = c)) ∧
      ∀ gs, fs ≠ gs ++ [.main .sweepEnd] := by
  obtain ⟨hlen, hperm⟩ := observe_noteStatus h
  refine ⟨hlen, fun _ _ hst => step_queue hst, hperm,
    fun _ _ hchecks hfs => exec_records hfs hchecks, ?_⟩
  intro c hc st hst fs w' hwaits hfs
  rcases exec_keeps_status .empty (exec_kernelOk h) hwaits hfs hc hst with
    hcollected | ⟨c', hc', hu, hne, heq⟩
  · exact .inl hcollected
  · refine .inr ⟨⟨c', hc', hu, hne, heq⟩, ?_⟩
    rintro gs rfl
    obtain ⟨m, -, hend⟩ := exec_concat_eq_some.mp hfs
    exact hne (sweepEnd_children hend c' hc')

/-- A job stops, the handler queues that, and the job is killed before the handler
    looks again. -/
def stopThenExit : List Event :=
  [.main (.fork 7 true []), .main (.registerBg 7 []), .main .call, .kernel (.stop 7 19),
    .handler .enter, .handler .iter, .kernel (.exit 7 (Terminal.signaled 9)), .handler .iter]

/-- The call of `check_bg_jobs` that follows. -/
def drainAndSweep : List Event :=
  [.main .drainCopy, .main .drainApply, .main .drainEnd, .main (.sweepCollect 7), .main .call,
    .main .sweepEnd]

theorem statuses_recorded_once_stop :
    ∃ w ∈ exec step boot stopThenExit,
      (observe step noteStatus boot .empty stopThenExit).collected.Perm
        ((observe step noteStatus boot .empty stopThenExit).recorded ++ [⟨7, 0, .stopped 19⟩]) ∧
      ⟨7, 0, .signaled 9⟩ ∈ (observe step noteStatus w .empty drainAndSweep).collected ∧
      ∃ w' ∈ exec step w drainAndSweep, (w'.table, w'.out) =
        recordAll (w.table, w.out) [⟨7, 0, .stopped 19⟩, ⟨7, 0, .signaled 9⟩] := by
  have hrun : ∃ w ∈ exec step boot stopThenExit, w.backlog = [⟨7, 0, .stopped 19⟩] ∧
      ⟨7, 0, true, .zombie (Terminal.signaled 9), none⟩ ∈ w.children ∧
      (observe step noteStatus w .empty drainAndSweep).recorded =
        [⟨7, 0, .stopped 19⟩, ⟨7, 0, .signaled 9⟩] ∧
      ∃ w' ∈ exec step w drainAndSweep, w'.pc = .idle := by
    decide +kernel
  obtain ⟨w, hw, hback, hc, hrecorded, w', hw', -⟩ := hrun
  obtain ⟨-, -, hperm, hrecords, hstays⟩ := statuses_recorded_once (Option.mem_def.mp hw)
  refine ⟨w, hw, hback ▸ hperm, ?_, w', hw', ?_⟩
  · rcases hstays _ hc _ rfl drainAndSweep w' (by decide) (Option.mem_def.mp hw') with
      ⟨r, hr, -, heq⟩ | ⟨-, hlast⟩
    · rw [heq (by simp [Undisturbed, drainAndSweep])] at hr
      exact hr
    · exact absurd rfl (hlast [.main .drainCopy, .main .drainApply, .main .drainEnd,
        .main (.sweepCollect 7), .main .call])
  · rw [hrecords drainAndSweep w' (by decide) (Option.mem_def.mp hw'), hrecorded]

end MiniOs.Shell

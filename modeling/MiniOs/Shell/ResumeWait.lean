import MiniOs.Shell.Identity
import MiniOs.Shell.WatchList

/-!
# What `resume_fg` leaves behind

When its wait is over, `resume_fg` gives the job back to the table if some of its
processes stopped, and drops it otherwise. When its alarm fires it sends SIGTERM, drops
the job and hands the processes back to the SIGCHLD handler. It does not continue those
it has seen stop, and a stopped process does not act on SIGTERM.

The calls of `bg_watch_pid` come last, and the kernel and the handler may take steps
between them.
-/

namespace MiniOs.Shell

open Trace

variable {done rest stopped : List Pid} {n : ℕ} {timer : Bool} {w w' : World} {x : Pid × ℕ}

/-- A step that may be taken after the end of the wait and before `resume_fg` returns:
    a call of `bg_watch_pid` or `bg_unwatch_pid`, or a step of the kernel or the handler. -/
def Event.returning : Event → Bool
  | .main .call => true
  | .main _ => false
  | _ => true

/-- No process of the job `n` is stopped, and none is stopped in the steps `fs`. -/
structure NoneStopped (w : World) (n : ℕ) (fs : List Event) : Prop where
  now : ∀ x ∈ w.regs n, ∀ c ∈ w.children, c.uid = x.2 → c.phase ≠ .stopped
  later : ∀ pid sig, Event.kernel (.stop pid sig) ∉ fs

theorem not_acts_of_returning {e : MainEvent} (he : Event.returning (.main e) = true) :
    ¬ Acts w e w' := by
  have hcall : e = .call := by
    cases e <;> first | rfl | cases he
  subst hcall
  exact fun hact => nomatch hact

/-! ### Until `resume_fg` returns -/

/-- The steps in question leave the table alone, and collected is collected. -/
structure Waited (w v : World) : Prop where
  ok : WorldOk v
  table : v.table = w.table
  timedOut : v.timedOut = w.timedOut
  collected : ∀ {u : ℕ}, w.collector u ≠ none → v.collector u ≠ none

theorem Moves.collected {e : Event} (hmove : Moves w e w') (h : WorldOk w) {u : ℕ}
    (hu : w.collector u ≠ none) : w'.collector u ≠ none := by
  rcases hmove.identities h.pids_nodup with ⟨-, -, hcol⟩ | ⟨q, v, stage, who, -, -, -, hcol⟩ |
    ⟨q, stage, -, -, -, hcol⟩
  · rw [hcol]
    exact hu
  · rw [hcol]
    exact update_ne_none who hu
  · rw [hcol]
    exact hu

theorem exec_waited {v : World} {fs : List Event} (hok : WorldOk w)
    (hfs : Guarded step (fun _ e => e.returning = true) w fs) (h : exec step w fs = some v) :
    Waited w v := by
  have hstart : Waited w w := ⟨hok, rfl, rfl, fun hu => hu⟩
  refine exec_invariant_of_guarded (I := Waited w) (fun v e v' hI he hst => ?_) hstart hfs h
  have hmove := step_moves hst
  have hcol : ∀ {u : ℕ}, w.collector u ≠ none → v'.collector u ≠ none :=
    fun hu => hmove.collected hI.ok (hI.collected hu)
  have hok' := hI.ok.step hst
  cases hmove with
  | change hfind hlive => exact ⟨hok', hI.table, hI.timedOut, hcol⟩
  | turn i => exact ⟨hok', hI.table, hI.timedOut, hcol⟩
  | reap hi hlt hroom hpid hzero hwait => exact ⟨hok', hI.table, hI.timedOut, hcol⟩
  | call hidle hcalls => exact ⟨hok', hI.table, hI.timedOut, hcol⟩
  | act hidle hcalls hact => exact absurd hact (not_acts_of_returning he)

/-- The process `x` has been handed back: it is not stopped, and unless it is collected
    it is in the watch list once the outstanding calls are made. -/
structure HandedBack (x : Pid × ℕ) (w : World) : Prop where
  own : ∀ i ∈ w.ids, i.1 = x.1 → i.2.1 = x.2
  watched : w.collector x.2 = none →
    watchedAfter x.1 (decide (x.1 ∈ w.watched)) w.calls = true
  awake : ∀ c ∈ w.children, c.uid = x.2 → c.phase ≠ .stopped

theorem HandedBack.reap {i : ℕ} {c : Child} {st : WaitStatus} (h : HandedBack x w)
    (hok : WorldOk w) (hpid : w.watched.getD i 0 = c.pid)
    (hwait : waitpid w.children c.pid true = some (c, st)) :
    HandedBack x { w.collect c st .handler with
      watched := if st.terminal then w.watched.set i 0 else w.watched
      queue := w.queue ++ [⟨c.pid, c.uid, st⟩]
      handler := some (i + 1) } := by
  have hnd := hok.pids_nodup
  obtain ⟨hc, -, -⟩ := waitpid_eq_some hwait
  refine ⟨fun j hj => ?_, fun hnone => ?_, fun d hd hduid => ?_⟩
  · rcases ids_collect hnd hwait .handler with ⟨hids, -⟩ | ⟨-, hids, -⟩
    · exact h.own j (hids ▸ hj)
    · have hmem : j ∈ w.ids.filter (·.1 ≠ c.pid) := hids ▸ hj
      exact h.own j (List.mem_of_mem_filter hmem)
  · cases hst : st.terminal with
    | false =>
      have hcol := (ids_collect_change hnd hwait hst .handler).2
      exact h.watched (hcol ▸ hnone)
    | true =>
      have hcol := (ids_collect_exit hnd hwait hst .handler).2
      have hnone' : Function.update w.collector c.uid (some .handler) x.2 = none := hcol ▸ hnone
      -- the child that is collected is another one
      have hne : x.2 ≠ c.uid := by
        intro heq
        rw [heq, Function.update_self] at hnone'
        cases hnone'
      rw [Function.update_of_ne hne] at hnone'
      have hother : w.watched.getD i 0 ≠ x.1 := by
        intro heq
        exact hne (h.own _ (id_mem_of_waitpid hwait) (hpid.symm.trans heq)).symm
      refine watchedAfter_mono (fun hmem => decide_eq_true ?_) (h.watched hnone')
      exact mem_set_of_ne (of_decide_eq_true hmem) hother
  · rcases takeStatus_cases hnd hwait hd with ⟨hd, -⟩ | ⟨-, rfl, -⟩
    · exact h.awake d hd hduid
    · exact h.awake c hc hduid

/-- **Step lemma.** -/
theorem HandedBack.step {e : Event} (h : HandedBack x w) (hok : WorldOk w) (hx : x.1 ≠ 0)
    (he : e.returning = true) (hstop : ∀ pid sig, e ≠ .kernel (.stop pid sig))
    (hroom : RoomToWatch w e) (hstep : step w e = some w') : HandedBack x w' := by
  cases step_moves hstep with
  | @change e c hfind hlive =>
    have hids : (w.change e.pid e.apply).ids = w.ids := ids_changeChild (KernelEvent.apply_id e)
    refine ⟨hids ▸ h.own, h.watched, fun d hd hduid => ?_⟩
    rcases mem_changeChild hd with ⟨hd, -⟩ | ⟨k, -, -, rfl⟩
    · exact h.awake d hd hduid
    · cases e with
      | exit pid st => exact fun hphase => nomatch hphase
      | stop pid sig => exact absurd rfl (hstop pid sig)
      | cont pid => exact fun hphase => nomatch hphase
  | turn i => exact ⟨h.own, h.watched, h.awake⟩
  | reap hi hlt hfree hpid hzero hwait => exact h.reap hok hpid hwait
  | call hidle hcalls =>
    refine ⟨h.own, fun hnone => ?_, h.awake⟩
    have hlist := h.watched hnone
    rw [hcalls] at hlist
    exact watchedAfter_call hx (hroom.call hcalls) hlist
  | act hidle hcalls hact => exact absurd hact (not_acts_of_returning he)

/-- **Run lemma.** -/
theorem exec_handedBack {v : World} {fs : List Event} (h : HandedBack x w) (hok : WorldOk w)
    (hx : x.1 ≠ 0) (hfs : Guarded step (fun w e => e.returning = true ∧ RoomToWatch w e) w fs)
    (hstop : ∀ pid sig, Event.kernel (.stop pid sig) ∉ fs) (hv : exec step w fs = some v) :
    HandedBack x v := by
  have hnever : Guarded step (fun _ e => ∀ pid sig, e ≠ .kernel (.stop pid sig)) w fs := by
    refine guarded_of_forall_mem (fun e he _ pid sig heq => ?_) w
    exact hstop pid sig (heq ▸ he)
  have hstart : WorldOk w ∧ HandedBack x w := ⟨hok, h⟩
  refine (exec_invariant_of_guarded (I := fun v => WorldOk v ∧ HandedBack x v)
    (fun v e v' hI hguard hst => ?_) hstart (hfs.and hnever) hv).2
  obtain ⟨⟨hret, hroom⟩, hne⟩ := hguard
  exact ⟨hI.1.step hst, hI.2.step hI.1 hx hret hne hroom hst⟩

/-! ### The end of the wait -/

/-- A process of the job that no one has collected is among those that `resume_fg` has
    seen stop or still waits for. -/
theorem Identified.uncollected (h : Identified w)
    (hpc : w.pc = .waiting n timer done rest stopped) (hx : x ∈ w.regs n)
    (hnone : w.collector x.2 = none) :
    ∃ j, findJob w.table n = some j ∧ x.1 ∈ j.pids ∧ (x.1 ∈ rest ∨ x.1 ∈ stopped) := by
  have hplaced := h.ok.placed
  have hwaits := h.waits
  rw [hpc] at hplaced hwaits
  obtain ⟨j, hj, -, -⟩ := hplaced
  have hp : x.1 ∈ j.pids := by
    by_contra hp
    refine (h.jobs j (mem_of_findJob hj)).gone x ?_ hp hnone
    rw [number_of_findJob hj]
    exact hx
  refine ⟨j, hj, hp, ?_⟩
  rcases hwaits j hj x hx hp with hrest | hstopped | hcol
  · exact .inl hrest
  · exact .inr hstopped
  · exact absurd hnone hcol

theorem stopped_of_mem_keepStopped {j : BgJob} {pids : List Pid} {p : BgProc}
    (hp : p ∈ (j.keepStopped pids).procs) : p.stopped = true := by
  obtain ⟨q, -, rfl⟩ := List.mem_map.mp hp
  rfl

/-- A process of a job that stops again is in the job, and marked stopped. -/
theorem marked_of_stopAgain (h : WorldOk w) (hpc : w.pc = .waiting n timer done [] stopped)
    {j : BgJob} (hj : findJob w.table n = some j) {q : Pid} (hq : q ∈ stopped) :
    ∃ k, findJob (bgSetStopped w.table n stopped).table n = some k ∧
      ∃ p ∈ k.procs, p.pid = q ∧ p.stopped = true := by
  have hpids := (h.pids_keepStopped hpc hj).2
  refine ⟨j.keepStopped stopped,
    findJob_updateJob (f := fun j => j.keepStopped stopped) (fun _ => rfl) hj, ?_⟩
  rw [← hpids] at hq
  obtain ⟨p, hp, hpq⟩ := List.mem_map.mp hq
  exact ⟨p, hp, hpq, stopped_of_mem_keepStopped hp⟩

/-- When the wait ends by itself, a process that was not collected stopped in it. -/
theorem marked_of_waitEnd (h : Identified w) (hpc : w.pc = .waiting n timer done rest stopped)
    (hact : Acts w .waitEnd w') (hx : x ∈ w.regs n) (hnone : w.collector x.2 = none) :
    ∃ j, findJob w'.table n = some j ∧ ∃ p ∈ j.procs, p.pid = x.1 ∧ p.stopped = true := by
  obtain ⟨j, hj, -, hleft⟩ := h.uncollected hpc hx hnone
  cases hact with
  | stopAgain hpc' hne =>
    cases hpc.symm.trans hpc'
    rcases hleft with hrest | hstopped
    · cases hrest
    · exact marked_of_stopAgain h.ok hpc hj hstopped
  | resumeOver hpc' =>
    -- nothing is left to wait for and nothing stopped
    cases hpc.symm.trans hpc'
    rcases hleft with hrest | hstopped
    · cases hrest
    · cases hstopped

theorem findJob_bgRemoveJob {t : JobTable} (ht : TableOk t) (n : ℕ) :
    findJob (bgRemoveJob t n).table n = none := by
  refine List.find?_eq_none.mpr (fun k hk hn => ?_)
  exact (mem_bgRemoveJob ht hk).2 (of_decide_eq_true hn)

theorem removed_of_timeout (ht : TableOk w.table)
    (hpc : w.pc = .waiting n timer done rest stopped) (hact : Acts w .waitTimeout w') :
    findJob w'.table n = none ∧ n ∈ w'.timedOut := by
  cases hact with
  | waitTimeout hpc' =>
    cases hpc.symm.trans hpc'
    exact ⟨findJob_bgRemoveJob ht n, List.mem_cons_self⟩

/-- When the alarm has fired, a process that is not stopped has been handed back. -/
theorem handedBack_of_timeout (h : Identified w) (hpc : w.pc = .waiting n timer done rest stopped)
    (hact : Acts w .waitTimeout w') (hx : x ∈ w.regs n) (hnone : w.collector x.2 = none)
    (hawake : ∀ c ∈ w.children, c.uid = x.2 → c.phase ≠ .stopped) :
    x.1 ≠ 0 ∧ HandedBack x w' := by
  obtain ⟨j, hj, hp, hleft⟩ := h.uncollected hpc hx hnone
  have hjob := mem_of_findJob hj
  have hplaced := h.ok.placed
  rw [hpc] at hplaced
  obtain ⟨-, -, -, hdone⟩ := hplaced
  have hreg : x ∈ w.regs j.jobNumber := by
    rw [number_of_findJob hj]
    exact hx
  refine ⟨h.ok.nonzero j hjob x.1 hp, ?_⟩
  cases hact with
  | waitTimeout hpc' =>
    cases hpc.symm.trans hpc'
    refine ⟨(h.jobs j hjob).child x hreg hp, fun _ => ?_, hawake⟩
    show watchedAfter _ _ (_ ++ List.map WatchCall.watch _) = true
    rw [watchedAfter_append, watchedAfter_watch, Bool.or_eq_true, decide_eq_true_eq]
    right
    rcases hleft with hrest | hstopped
    · exact List.mem_append_right _ hrest
    · exact List.mem_append_left _ (hdone x.1 hstopped)

/-- **`resume_fg` leaves no process stopped and forgotten**, unless one is stopped when the
    alarm ends the wait. In a run in which no process gets a pid that is still on the
    books, let the wait for job `n` end, by itself or by the alarm, and let `fs` be the
    steps until the function returns. A process of the job that has not exited is then
    marked stopped in the job, or the job timed out and is gone, the process is in the
    watch list, and it is not stopped. -/
theorem resume_fg_forgets_none {es fs : List Event} {w w' v : World} {e : MainEvent} {n : ℕ}
    {timer : Bool} {done rest stopped : List Pid} (hfresh : Guarded step FreshPid boot es)
    (hw : exec step boot es = some w) (hpc : w.pc = .waiting n timer done rest stopped)
    (he : e = .waitEnd ∨ e = .waitTimeout) (hstep : step w (.main e) = some w')
    (hfs : Guarded step (fun w e => e.returning = true ∧ RoomToWatch w e) w' fs)
    (hv : exec step w' fs = some v) (hreturned : v.calls = [])
    (hawake : e = .waitTimeout → NoneStopped w n fs) :
    ∀ x ∈ w.regs n, ∀ c ∈ v.children, c.uid = x.2 → (∀ st, c.phase ≠ .zombie st) →
      (∃ j, findJob v.table n = some j ∧ ∃ p ∈ j.procs, p.pid = x.1 ∧ p.stopped = true) ∨
        findJob v.table n = none ∧ n ∈ v.timedOut ∧ x.1 ∈ v.watched ∧ c.phase ≠ .stopped := by
  intro x hx c hc hcuid _
  have hident := exec_identified hfresh hw
  have hok' := hident.ok.step hstep
  have hwaited := exec_waited hok' (hfs.imp (fun _ _ hguard => hguard.1)) hv
  have hv_none : v.collector x.2 = none := by
    rw [← hcuid]
    exact hwaited.ok.kernel.uncollected c.id (List.mem_map_of_mem hc)
  have hmove := step_moves hstep
  have hnone : w.collector x.2 = none := by
    by_contra hcol
    exact hwaited.collected (hmove.collected hident.ok hcol) hv_none
  rcases he with rfl | rfl
  · cases hmove with
    | act hidle hcalls hact =>
      rw [hwaited.table]
      exact .inl (marked_of_waitEnd hident hpc hact hx hnone)
  · cases hmove with
    | act hidle hcalls hact =>
      obtain ⟨hnow, hlater⟩ := hawake rfl
      obtain ⟨hzero, hback⟩ := handedBack_of_timeout hident hpc hact hx hnone (hnow x hx)
      obtain ⟨hgone, htimedOut⟩ := removed_of_timeout hident.ok.table hpc hact
      have hlast := exec_handedBack hback hok' hzero hfs hlater hv
      have hlist := hlast.watched hv_none
      rw [hreturned] at hlist
      rw [hwaited.table, hwaited.timedOut]
      exact .inr ⟨hgone, htimedOut, of_decide_eq_true hlist, hlast.awake c hc hcuid⟩

/-- Job 1 is a pipeline of 7 and 8 that the shell waits for, with an alarm set. -/
def timedPair : List Event :=
  [.main (.fork 7 true []), .main (.fork 8 true []), .main (.registerBg 7 []), .main .call,
    .main .call, .main (.resumeFg 1 true), .main .call, .main .call, .main .resumeWait]

/-- The alarm fires and the processes are handed back. -/
def alarmFires : List Event := .main .waitTimeout :: List.replicate 4 (.main .call)

/-- 7 has stopped and 8 runs on when the alarm fires: 7 stays stopped, in no job. -/
theorem stopped_process_forgotten :
    ∃ v ∈ exec step boot (timedPair ++ [.kernel (.stop 7 20), .main .waitNext] ++ alarmFires),
      Guarded step (fun w e => FreshPid w e ∧ RoomToWatch w e) boot
        (timedPair ++ [.kernel (.stop 7 20), .main .waitNext] ++ alarmFires) ∧
      v.calls = [] ∧ v.pc = .idle ∧ findJob v.table 1 = none ∧ v.timedOut = [1] ∧
      ∃ c ∈ v.children, (c.pid, c.uid) ∈ v.regs 1 ∧ c.phase = .stopped := by
  decide +kernel

/-- Neither has stopped when the alarm fires. -/
theorem resume_fg_forgets_none_running :
    ∃ w ∈ exec step boot timedPair, ∃ v ∈ exec step w alarmFires,
      ∀ x ∈ w.regs 1, ∀ c ∈ v.children, c.uid = x.2 → (∀ st, c.phase ≠ .zombie st) →
        (∃ j, findJob v.table 1 = some j ∧ ∃ p ∈ j.procs, p.pid = x.1 ∧ p.stopped = true) ∨
          findJob v.table 1 = none ∧ 1 ∈ v.timedOut ∧ x.1 ∈ v.watched ∧ c.phase ≠ .stopped := by
  have hfresh : Guarded step FreshPid boot timedPair := by decide +kernel
  have hrun : ∃ w ∈ exec step boot timedPair, w.pc = .waiting 1 true [] [7, 8] [] ∧
      (∀ x ∈ w.regs 1, ∀ c ∈ w.children, c.uid = x.2 → c.phase ≠ .stopped) ∧
      ∃ w' ∈ step w (.main .waitTimeout),
        Guarded step (fun w e => e.returning = true ∧ RoomToWatch w e) w'
          (List.replicate 4 (.main .call)) ∧
        ∃ v ∈ exec step w' (List.replicate 4 (.main .call)), v.calls = [] := by
    decide +kernel
  obtain ⟨w, hw, hpc, hnow, w', hw', hfs, v, hv, hcalls⟩ := hrun
  have hawake : NoneStopped w 1 (List.replicate 4 (.main .call)) :=
    ⟨hnow, fun pid sig hmem => nomatch List.eq_of_mem_replicate hmem⟩
  have hlast : exec step w alarmFires = some v :=
    exec_cons_eq_some.mpr ⟨w', Option.mem_def.mp hw', Option.mem_def.mp hv⟩
  exact ⟨w, hw, v, hlast, resume_fg_forgets_none hfresh (Option.mem_def.mp hw) hpc (.inr rfl)
    (Option.mem_def.mp hw') hfs (Option.mem_def.mp hv) hcalls (fun _ => hawake)⟩

end MiniOs.Shell

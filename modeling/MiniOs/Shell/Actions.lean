import MiniOs.Shell.Reaper

/-!
# What a step of the shell does

The step functions of the shell read the program counter, the table and the children
before they act. `Acts` says the same as a relation, one constructor an outcome, so that
a proof about every step names the cases and what is known in each.
-/

namespace MiniOs.Shell

open Trace

variable {w w' : World}

def KernelEvent.pid : KernelEvent → Pid
  | exit pid _ | stop pid _ | cont pid => pid

/-- The child after the change. -/
def KernelEvent.apply (e : KernelEvent) (c : Child) : Child :=
  match e with
  | exit _ st => { c with phase := .zombie st, pending := none }
  | stop _ sig => { c with phase := .stopped, pending := some ⟨.stopped sig, terminal_stopped sig⟩ }
  | cont _ => { c with phase := .running, pending := some ⟨.continued, terminal_continued⟩ }

theorem KernelEvent.apply_id (e : KernelEvent) (c : Child) : (e.apply c).id = c.id := by
  cases e <;> rfl

/-- The status of a child changes only while it has not ended. -/
theorem kernelStep_cases {e : KernelEvent} (h : kernelStep w e = some w') :
    (∃ c, w.children.find? (fun c => c.pid = e.pid) = some c ∧ ∀ st, c.phase ≠ .zombie st) ∧
      w' = w.change e.pid e.apply := by
  have hfound : ∀ {phase : Phase}, phaseOf w.children e.pid = some phase →
      (∀ st, phase ≠ .zombie st) →
      ∃ c, w.children.find? (fun c => c.pid = e.pid) = some c ∧ ∀ st, c.phase ≠ .zombie st := by
    intro phase hphase hlive
    obtain ⟨c, hc, rfl⟩ := Option.map_eq_some_iff.mp hphase
    exact ⟨c, hc, hlive⟩
  cases e with
  | exit pid st =>
    rw [kernelStep] at h
    split at h <;> cases h
    · next hphase => exact ⟨hfound hphase (fun _ hz => nomatch hz), rfl⟩
    · next hphase => exact ⟨hfound hphase (fun _ hz => nomatch hz), rfl⟩
  | stop pid sig =>
    rw [kernelStep] at h
    split at h <;> cases h
    next hphase => exact ⟨hfound hphase (fun _ hz => nomatch hz), rfl⟩
  | cont pid =>
    rw [kernelStep] at h
    split at h <;> cases h
    next hphase => exact ⟨hfound hphase (fun _ hz => nomatch hz), rfl⟩

def World.forked (w : World) (pid : Pid) (stage : Bool) : World :=
  { w with
    children := w.children ++ [⟨pid, w.nextUid, stage, .running, none⟩]
    nextUid := w.nextUid + 1 }

/-- A step of the program, when it has no outstanding call. -/
inductive Acts (w : World) : MainEvent → World → Prop where
  | forkStage {pid : Pid} {name : List Byte} {stopped kids : List Kid} (hpid : pid ≠ 0)
      (hnew : pid ∉ w.children.map Child.pid)
      (hpc : w.pc = .launching stopped kids ∨ w.pc = .idle ∧ stopped = [] ∧ kids = []) :
      Acts w (.fork pid true name)
        { w.forked pid true with pc := .launching stopped (kids ++ [⟨pid, w.nextUid, name⟩]) }
  | forkHelper {pid : Pid} {name : List Byte} (hpid : pid ≠ 0)
      (hnew : pid ∉ w.children.map Child.pid)
      (hpc : w.pc = .idle ∨ ∃ stopped kids, w.pc = .launching stopped kids) :
      Acts w (.fork pid false name) (w.forked pid false)
  | fgStatus {garbage : Bool} {stopped kids : List Kid} {k : Kid} {c : Child} {st : WaitStatus}
      (hpc : w.pc = .launching stopped (k :: kids))
      (hwait : waitpid w.children k.pid false = some (c, st)) :
      Acts w (.fgWait garbage) { w.collect c st .own with
        pc := .launching (if st.wifstopped then stopped ++ [k] else stopped) kids }
  | fgGone {garbage : Bool} {stopped kids : List Kid} {k : Kid}
      (hpc : w.pc = .launching stopped (k :: kids)) (hgone : k.pid ∉ w.children.map Child.pid) :
      Acts w (.fgWait garbage)
        { w with pc := .launching (if garbage then stopped ++ [k] else stopped) kids }
  | registerBg {pgid : Pid} {cmdline : List Byte} {kids : List Kid}
      (hpc : w.pc = .launching [] kids) :
      Acts w (.registerBg pgid cmdline)
        (w.register (registerBgGroup w.table pgid (Kid.stages kids) cmdline) kids)
  | registerStopped {pgid : Pid} {cmdline : List Byte} {k : Kid} {kids : List Kid}
      (hpc : w.pc = .launching (k :: kids) []) :
      Acts w (.registerStopped pgid cmdline)
        (w.register (registerStoppedJob w.table pgid (Kid.stages (k :: kids)) cmdline) (k :: kids))
  | launchDone (hpc : w.pc = .launching [] []) : Acts w .launchDone { w with pc := .idle }
  | helperWait {pid : Pid} {c : Child} {st : Terminal} (hpc : w.pc = .idle)
      (hfind : w.children.find? (fun c => c.pid = pid) = some c) (hstage : c.stage = false)
      (hphase : c.phase = .zombie st) : Acts w (.helperWait pid) (w.collect c st .own)
  | drainCopy (hpc : w.pc = .idle) :
      Acts w .drainCopy { w with pc := .draining w.queue, queue := [] }
  | drainApply {r : Record} {rest : List Record} (hpc : w.pc = .draining (r :: rest)) :
      Acts w .drainApply
        { w.perform (recordStatus w.table r.pid r.status) with pc := .draining rest }
  | drainEnd (hpc : w.pc = .draining []) : Acts w .drainEnd { w with pc := .sweeping }
  | sweepCollect {pid : Pid} {c : Child} {st : WaitStatus} (hpc : w.pc = .sweeping)
      (hwait : waitpid w.children pid true = some (c, st)) :
      Acts w (.sweepCollect pid) ((w.collect c st .sweep).perform (recordStatus w.table pid st))
  | sweepEnd (hpc : w.pc = .sweeping) (hnone : ∀ c ∈ w.children, c.status true = none) :
      Acts w .sweepEnd { w with pc := .idle }
  | pingStop {n : ℕ} (hpc : w.pc = .idle) :
      Acts w (.pingStop n)
        (w.perform (bgSetStopped w.table n (stoppedPids w.table n (fun _ => true))))
  | pingCont {n : ℕ} (hpc : w.pc = .idle) :
      Acts w (.pingCont n) (w.perform (bgSetRunning w.table n))
  | resumeBg {n : ℕ} {j : BgJob} (hpc : w.pc = .idle) (hj : findJob w.table n = some j) :
      Acts w (.resumeBg n)
        (w.perform { bgSetRunning w.table n with lines := [.running n j.cmdline] })
  | resumeFg {n : ℕ} {timer : Bool} {j : BgJob} (hpc : w.pc = .idle)
      (hj : findJob w.table n = some j) :
      Acts w (.resumeFg n timer)
        { w.perform ⟨(bgSetRunning w.table n).table, j.pids.map WatchCall.unwatch,
            [.foreground j.cmdline], false⟩ with pc := .resuming n timer j.pids }
  | resumeWait {n : ℕ} {timer : Bool} {pids : List Pid} (hpc : w.pc = .resuming n timer pids) :
      Acts w .resumeWait { w with pc := .waiting n timer [] pids [] }
  | waitStop {n : ℕ} {timer : Bool} {done rest stopped : List Pid} {p : Pid} {c : Child}
      {st : WaitStatus} (hpc : w.pc = .waiting n timer done (p :: rest) stopped)
      (hwait : waitpid w.children p false = some (c, st)) (hst : st.terminal = false) :
      Acts w .waitNext { w.collect c st .own with
        pc := .waiting n timer (done ++ [p]) rest (stopped ++ [p]) }
  | waitExit {n : ℕ} {timer : Bool} {done rest stopped : List Pid} {p : Pid} {c : Child}
      {st : WaitStatus} (hpc : w.pc = .waiting n timer done (p :: rest) stopped)
      (hwait : waitpid w.children p false = some (c, st)) (hst : st.terminal = true) :
      Acts w .waitNext { w.collect c st .own with
        pc := .waiting n timer (done ++ [0]) rest stopped }
  | waitGone {n : ℕ} {timer : Bool} {done rest stopped : List Pid} {p : Pid}
      (hpc : w.pc = .waiting n timer done (p :: rest) stopped)
      (hgone : p ∉ w.children.map Child.pid) :
      Acts w .waitNext { w with pc := .waiting n timer (done ++ [0]) rest stopped }
  | waitTimeout {n : ℕ} {done rest stopped : List Pid} {p : Pid}
      (hpc : w.pc = .waiting n true done (p :: rest) stopped) :
      Acts w .waitTimeout
        { w.perform ⟨(bgRemoveJob w.table n).table,
            (bgRemoveJob w.table n).calls ++ (done ++ p :: rest).map WatchCall.watch,
            [.timedOut], false⟩ with
          pc := .idle
          timedOut := n :: w.timedOut }
  | stopAgain {n : ℕ} {timer : Bool} {done stopped : List Pid}
      (hpc : w.pc = .waiting n timer done [] stopped) (hne : stopped ≠ []) :
      Acts w .waitEnd
        { w.perform { bgSetStopped w.table n stopped with
            lines := (findJob w.table n).toList.map (fun j => Line.stopped n j.cmdline) } with
          pc := .idle }
  | resumeOver {n : ℕ} {timer : Bool} {done : List Pid}
      (hpc : w.pc = .waiting n timer done [] []) :
      Acts w .waitEnd { w.perform { bgRemoveJob w.table n with lines := [] } with pc := .idle }
  | snoopBegin {pid : Pid} (hpc : w.pc = .idle) (hpid : pid ≠ 0) :
      Acts w (.snoopBegin pid) { w with
        watched := bgUnwatchPid w.watched pid
        pc := .snooping pid (pid ∈ w.watched) }
  | snoopForeign {pid : Pid} {wasWatched : Bool} {st : Terminal}
      (hpc : w.pc = .snooping pid wasWatched) (hgone : pid ∉ w.children.map Child.pid) :
      Acts w (.snoopExited st) { w.perform (bgChildExited w.table pid st) with pc := .idle }
  | snoopChild {pid : Pid} {wasWatched : Bool} {c : Child} {st : Terminal}
      (hpc : w.pc = .snooping pid wasWatched)
      (hwait : waitpid w.children pid false = some (c, st.val)) :
      Acts w (.snoopExited st)
        { (w.collect c st .own).perform (bgChildExited w.table pid st) with pc := .idle }
  | snoopDetached {pid : Pid} {wasWatched : Bool} (hpc : w.pc = .snooping pid wasWatched) :
      Acts w .snoopDetached
        { w with calls := if wasWatched then [.watch pid] else [], pc := .idle }
  | copyDrain {stopped kids : List Kid} (hpc : w.pc = .launching stopped kids) :
      Acts w .copyDrain { w with out := w.out ++ copyLines w.table w.queue }
  | copySnoop {pid : Pid} {st : Terminal} {stopped kids : List Kid}
      (hpc : w.pc = .launching stopped kids) :
      Acts w (.copySnoop pid st) { w with out := w.out ++ (bgChildExited w.table pid st).lines }

theorem forkChild_acts {pid : Pid} {stage : Bool} {name : List Byte}
    (h : forkChild w pid stage name = some w') : Acts w (.fork pid stage name) w' := by
  rw [forkChild] at h
  split_ifs at h with hpid
  rw [not_or] at hpid
  dsimp only at h
  split at h <;> cases h
  · next hpc => exact @Acts.forkStage w pid name [] [] hpid.1 hpid.2 (.inr ⟨hpc, rfl, rfl⟩)
  · next stopped kids hpc => exact .forkStage hpid.1 hpid.2 (.inl hpc)
  · next hpc => exact .forkHelper hpid.1 hpid.2 (.inl hpc)
  · next stopped kids hpc => exact .forkHelper hpid.1 hpid.2 (.inr ⟨stopped, kids, hpc⟩)

theorem fgWait_acts {garbage : Bool} (h : fgWait w garbage = some w') :
    Acts w (.fgWait garbage) w' := by
  rw [fgWait] at h
  split at h
  · next stopped k kids hpc =>
    by_cases hchild : k.pid ∈ w.children.map Child.pid
    · rw [if_pos hchild] at h
      split at h <;> cases h
      next c st hwait => exact .fgStatus hpc hwait
    · rw [if_neg hchild] at h
      cases h
      exact .fgGone hpc hchild
  · cases h

theorem not_wifstopped_of_terminal {st : WaitStatus} (h : st.terminal = true) :
    ¬ st.wifstopped = true := by
  cases st <;> first | exact Bool.false_ne_true | cases h

theorem waitNext_acts (h : waitNext w = some w') : Acts w .waitNext w' := by
  rw [waitNext] at h
  split at h
  · next n timer done p rest stopped hpc =>
    split_ifs at h with hchild
    · split at h <;> cases h
      next c st hwait =>
      cases hst : st.terminal with
      | false =>
        rw [if_pos (Child.wifstopped_of_status (waitpid_eq_some hwait).2.2 hst)]
        exact .waitStop hpc hwait hst
      | true =>
        rw [if_neg (not_wifstopped_of_terminal hst)]
        exact .waitExit hpc hwait hst
    · cases h
      exact .waitGone hpc hchild
  · cases h

theorem waitEnd_acts (h : waitEnd w = some w') : Acts w .waitEnd w' := by
  rw [waitEnd] at h
  split at h <;> cases h
  next n timer done stopped hpc =>
  by_cases hne : stopped = []
  · subst hne
    exact .resumeOver hpc
  · rw [if_pos hne, if_pos hne]
    exact .stopAgain hpc hne

theorem snoopExited_acts {st : Terminal} (h : snoopExited w st = some w') :
    Acts w (.snoopExited st) w' := by
  rw [snoopExited] at h
  split at h
  · next pid wasWatched hpc =>
    split at h
    · next hfind =>
      cases h
      refine .snoopForeign hpc (fun hmem => ?_)
      obtain ⟨c, hc, hcp⟩ := List.mem_map.mp hmem
      exact absurd (decide_eq_true hcp) (List.find?_eq_none.mp hfind c hc)
    · next c hfind =>
      split_ifs at h with hphase
      cases h
      exact .snoopChild hpc (waitpid_zombie hfind hphase false)
  · cases h

/-- **Inversion** of the program's step. -/
theorem program_acts {e : MainEvent} (h : program w e = some w') : Acts w e w' := by
  cases e with
  | call => cases h
  | fork pid stage name => exact forkChild_acts h
  | fgWait garbage => exact fgWait_acts h
  | waitNext => exact waitNext_acts h
  | waitEnd => exact waitEnd_acts h
  | snoopExited st => exact snoopExited_acts h
  | sweepEnd =>
    rw [program] at h
    split_ifs at h with hend
    cases h
    exact .sweepEnd hend.1 hend.2
  | snoopBegin pid =>
    rw [program] at h
    split at h
    · next hpc =>
      split_ifs at h with hpid
      cases h
      exact .snoopBegin hpc hpid
    · cases h
  | waitTimeout =>
    rw [program, Shell.waitTimeout] at h
    split at h <;> cases h
    next hpc => exact .waitTimeout hpc
  | resumeFg n timer =>
    rw [program, Shell.resumeFg] at h
    split at h <;> cases h
    next hpc hj => exact .resumeFg hpc hj
  | helperWait pid =>
    rw [program] at h
    split at h <;> cases h
    next hpc hfind => exact .helperWait hpc hfind rfl rfl
  | sweepCollect pid =>
    rw [program] at h
    split at h <;> cases h
    next hpc hwait => exact .sweepCollect hpc hwait
  | resumeBg n =>
    rw [program] at h
    split at h <;> cases h
    next hpc hj => exact .resumeBg hpc hj
  | _ =>
    rw [program] at h
    split at h <;> cases h
    next hpc => first
      | exact .registerBg hpc
      | exact .registerStopped hpc
      | exact .launchDone hpc
      | exact .drainCopy hpc
      | exact .drainApply hpc
      | exact .drainEnd hpc
      | exact .pingStop hpc
      | exact .pingCont hpc
      | exact .resumeWait hpc
      | exact .snoopDetached hpc
      | exact .copyDrain hpc
      | exact .copySnoop hpc

/-- What a step of the program does to the children: nothing, it collects a status, or
    it forks. -/
inductive OnChildren (w : World) (e : MainEvent) (w' : World) : Prop where
  | same (hchildren : w'.children = w.children) (hnext : w'.nextUid = w.nextUid)
      (hcol : w'.collector = w.collector)
  | collect {pid : Pid} {b : Bool} {c : Child} {st : WaitStatus} (who : Collector)
      (hwait : waitpid w.children pid b = some (c, st))
      (hchildren : w'.children = (w.collect c st who).children) (hnext : w'.nextUid = w.nextUid)
      (hcol : w'.collector = (w.collect c st who).collector)
  | fork {pid : Pid} {stage : Bool} {name : List Byte} (he : e = .fork pid stage name)
      (hnew : pid ∉ w.children.map Child.pid)
      (hchildren : w'.children = (w.forked pid stage).children)
      (hnext : w'.nextUid = w.nextUid + 1) (hcol : w'.collector = w.collector)

theorem Acts.onChildren {e : MainEvent} (h : Acts w e w') : OnChildren w e w' := by
  cases h with
  | forkStage hpid hnew hpc => exact .fork rfl hnew rfl rfl rfl
  | forkHelper hpid hnew hpc => exact .fork rfl hnew rfl rfl rfl
  | fgStatus hpc hwait => exact .collect .own hwait rfl rfl rfl
  | helperWait hpc hfind hstage hphase =>
    exact .collect .own (waitpid_zombie hfind hphase false) rfl rfl rfl
  | sweepCollect hpc hwait => exact .collect .sweep hwait rfl rfl rfl
  | waitStop hpc hwait hst => exact .collect .own hwait rfl rfl rfl
  | waitExit hpc hwait hst => exact .collect .own hwait rfl rfl rfl
  | snoopChild hpc hwait => exact .collect .own hwait rfl rfl rfl
  | _ => exact .same rfl rfl rfl

/-- A step of the kernel, of the handler, or of the program. -/
inductive Moves (w : World) : Event → World → Prop where
  | change {e : KernelEvent} {c : Child}
      (hfind : w.children.find? (fun c => c.pid = e.pid) = some c)
      (hlive : ∀ st, c.phase ≠ .zombie st) : Moves w (.kernel e) (w.change e.pid e.apply)
  | turn {e : HandlerEvent} (i : Option ℕ) : Moves w (.handler e) { w with handler := i }
  | reap {i : ℕ} {c : Child} {st : WaitStatus} (hi : w.handler = some i)
      (hlt : i < w.watched.length) (hroom : w.queue.length < maxWatch)
      (hpid : w.watched.getD i 0 = c.pid) (hzero : c.pid ≠ 0)
      (hwait : waitpid w.children c.pid true = some (c, st)) :
      Moves w (.handler .iter) { w.collect c st .handler with
        watched := if st.terminal then w.watched.set i 0 else w.watched
        queue := w.queue ++ [⟨c.pid, c.uid, st⟩]
        handler := some (i + 1) }
  | call {c : WatchCall} {rest : List WatchCall} (hidle : w.handler = none)
      (hcalls : w.calls = c :: rest) :
      Moves w (.main .call) { w with watched := c.run w.watched, calls := rest }
  | act {e : MainEvent} {w' : World} (hidle : w.handler = none) (hcalls : w.calls = [])
      (h : Acts w e w') : Moves w (.main e) w'

/-- **Inversion** of a step. -/
theorem step_moves {e : Event} (h : step w e = some w') : Moves w e w' := by
  cases e with
  | kernel e =>
    obtain ⟨⟨c, hfind, hlive⟩, rfl⟩ := kernelStep_cases h
    exact .change hfind hlive
  | handler e =>
    rcases handlerStep_cases h with
      ⟨i, rfl⟩ | ⟨i, c, st, rfl, hi, hlt, hroom, hpid, hzero, hwait, rfl⟩
    · exact .turn i
    · exact .reap hi hlt hroom hpid hzero hwait
  | main e =>
    obtain ⟨hidle, ⟨c, rest, hcalls, rfl, rfl⟩ | ⟨hcalls, hprog⟩⟩ := mainStep_cases h
    · exact .call hidle hcalls
    · exact .act hidle hcalls (program_acts hprog)

end MiniOs.Shell

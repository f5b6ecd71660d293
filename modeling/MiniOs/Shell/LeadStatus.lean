import MiniOs.Shell.Reports

/-!
# The completion line reports the lead process

`bg_child_exited` keeps the status of the lead process of a job, so that the completion
line can tell how it ended even if other stages outlive it. An observer of the kernel
writes down how each process ended; the line agrees with that as long as the end of the
lead reaches `bg_child_exited`. The wait of `resume_fg` does not pass it on.
-/

namespace MiniOs.Shell

open Trace

variable {b : Bool} {c : Child} {pid : Pid} {st : WaitStatus} {w : World}

def Child.ended (c : Child) : Option WaitStatus :=
  match c.phase with
  | .zombie st => some st
  | _ => none

/-- An observer of the kernel, who writes down how each process ends. -/
def noteEnd (w : World) (e : Event) (ended : ℕ → Option WaitStatus) : ℕ → Option WaitStatus :=
  match e with
  | .kernel e =>
    match w.children.find? (fun c => c.pid = e.pid) with
    | some c => Function.update ended c.uid (e.apply c).ended
    | none => ended
  | _ => ended

/-- The job that `resume_fg` waits for, and the processes it has seen stop. -/
def Pc.stopping : Pc → Option (ℕ × List Pid)
  | waiting n _ _ _ stopped => some (n, stopped)
  | _ => none

/-- When a resumed job stops again, its lead is among the processes that stopped, or
    `bg_child_exited` has its status already. -/
def LeadKept (w : World) : Event → Prop
  | .main .waitEnd => ∀ s ∈ w.pc.stopping, s.2 ≠ [] →
    ∀ j ∈ findJob w.table s.1, j.leadReaped = true ∨ j.leadPid ∈ s.2
  | _ => True

instance (w : World) (e : Event) : Decidable (LeadKept w e) := by
  unfold LeadKept
  split <;> infer_instance

/-! ### What the observer knows -/

/-- The observer knows how the children ended that have. -/
structure EndsOk (ended : ℕ → Option WaitStatus) (children : List Child) (nextUid : ℕ) : Prop where
  exact : ∀ c ∈ children, ended c.uid = c.ended
  unborn : ∀ u, nextUid ≤ u → ended u = none

theorem Child.ended_of_status (h : c.status b = some st) (hst : st.terminal = true) :
    c.ended = some st := by
  obtain ⟨pid, uid, stage, phase, pending⟩ := c
  cases phase with
  | zombie z => exact h
  | _ =>
    have hchange := ((Child.status_terminal h).1.mp hst)
    cases hchange

theorem EndsOk.of_waitpid {ended : ℕ → Option WaitStatus} {children : List Child} {nextUid : ℕ}
    (h : EndsOk ended children nextUid) (hwait : waitpid children pid b = some (c, st))
    (hst : st.terminal = true) :
    ended c.uid = some st := by
  obtain ⟨hc, -, hstatus⟩ := waitpid_eq_some hwait
  rw [h.exact c hc]
  exact Child.ended_of_status hstatus hst

theorem EndsOk.collect {ended : ℕ → Option WaitStatus} {nextUid : ℕ}
    (h : EndsOk ended w.children nextUid) (hnd : (w.children.map Child.pid).Nodup)
    (hwait : waitpid w.children pid b = some (c, st)) (who : Collector) :
    EndsOk ended (w.collect c st who).children nextUid := by
  refine ⟨fun d hd => ?_, h.unborn⟩
  obtain ⟨hc, rfl, -⟩ := waitpid_eq_some hwait
  rcases takeStatus_cases hnd hwait hd with ⟨hd, -⟩ | ⟨-, rfl, -⟩
  · exact h.exact d hd
  · exact h.exact c hc

theorem EndsOk.act {ended : ℕ → Option WaitStatus} {w' : World} {e : MainEvent}
    (h : EndsOk ended w.children w.nextUid) (hnd : (w.children.map Child.pid).Nodup)
    (hact : Acts w e w') : EndsOk ended w'.children w'.nextUid := by
  cases hact.onChildren with
  | same hchildren hnext hcol =>
    rw [hchildren, hnext]
    exact h
  | collect who hwait hchildren hnext hcol =>
    rw [hchildren, hnext]
    exact h.collect hnd hwait who
  | fork he hnew hchildren hnext hcol =>
    rw [hchildren, hnext]
    refine ⟨fun c hc => ?_, fun u hu => h.unborn u (Nat.le_of_succ_le hu)⟩
    rcases List.mem_append.mp hc with hc | hc
    · exact h.exact c hc
    · cases List.mem_singleton.mp hc
      exact h.unborn w.nextUid le_rfl

theorem Child.ended_of_live (hlive : ∀ st, c.phase ≠ .zombie st) : c.ended = none := by
  obtain ⟨pid, uid, stage, phase, pending⟩ := c
  cases phase with
  | zombie st => exact absurd rfl (hlive st)
  | _ => rfl

section Change

variable {ended : ℕ → Option WaitStatus} {w : World} {e : KernelEvent} {c : Child}
  (h : EndsOk ended w.children w.nextUid)
  (hfind : w.children.find? (fun c => c.pid = e.pid) = some c)
include h hfind

omit h in
theorem noteEnd_change :
    noteEnd w (.kernel e) ended = Function.update ended c.uid (e.apply c).ended := by
  rw [noteEnd, hfind]

theorem noteEnd_grows (hlive : ∀ st, c.phase ≠ .zombie st) {u : ℕ} (hu : ended u = some st) :
    noteEnd w (.kernel e) ended u = some st := by
  have hc : ended c.uid = none :=
    (h.exact c (List.mem_of_find?_eq_some hfind)).trans (Child.ended_of_live hlive)
  have hne : u ≠ c.uid := by
    rintro rfl
    cases hu.symm.trans hc
  rw [noteEnd_change hfind, Function.update_of_ne hne]
  exact hu

theorem EndsOk.change (hk : KernelOk w.ids w.nextUid w.collector) :
    EndsOk (noteEnd w (.kernel e) ended) (w.change e.pid e.apply).children w.nextUid := by
  have hc : c ∈ w.children := List.mem_of_find?_eq_some hfind
  have hpid : c.pid = e.pid := by simpa using List.find?_some hfind
  rw [noteEnd_change hfind]
  refine ⟨fun d hd => ?_, fun u hu => ?_⟩
  · rcases mem_changeChild hd with ⟨hd, hne⟩ | ⟨k, hk', hkpid, rfl⟩
    · have huid : d.uid ≠ c.uid := by
        intro heq
        have hid : d.id = c.id := List.inj_on_of_nodup_map hk.uids (List.mem_map_of_mem hd)
          (List.mem_map_of_mem hc) heq
        exact hne ((congrArg Prod.fst hid).trans hpid)
      rw [Function.update_of_ne huid]
      exact h.exact d hd
    · have huid : (e.apply c).uid = c.uid := congrArg (fun i => i.2.1) (e.apply_id c)
      rw [eq_of_pid hk.pids_nodup hk' hc (hkpid.trans hpid.symm), huid, Function.update_self]
  · have hborn := hk.born c.id (List.mem_map_of_mem hc)
    have hne : u ≠ c.uid := Nat.ne_of_gt (Nat.lt_of_lt_of_le hborn hu)
    rw [Function.update_of_ne hne]
    exact h.unborn u hu

end Change

/-! ### The invariant -/

/-- The process `u` is the lead of the job `j`. If `bg_child_exited` has its status, that
    is how it ended; if not, the job still lists it. -/
structure LeadOk (ended : ℕ → Option WaitStatus) (m : List (Pid × ℕ)) (j : BgJob) (u : ℕ) :
    Prop where
  head : m.head? = some (j.leadPid, u)
  reaped : j.leadReaped = true → ended u = some j.leadStatus
  listed : j.leadReaped = false → j.leadPid ∈ j.pids

/-- The first of the processes `m` is `pid`, and `normally` says how it ended. -/
def EndedAs (ended : ℕ → Option WaitStatus) (m : List (Pid × ℕ)) (pid : Pid) (normally : Bool) :
    Prop := ∃ u st, m.head? = some (pid, u) ∧ ended u = some st ∧ normally = st.wifexited

/-- **The invariant.** -/
structure Led (ended : ℕ → Option WaitStatus) (w : World) : Prop where
  ident : Identified w
  ends : EndsOk ended w.children w.nextUid
  records : ∀ r ∈ w.backlog, r.status.terminal = true → ended r.uid = some r.status
  lead : ∀ j ∈ w.table.jobs, ∃ u, LeadOk ended (w.regs j.jobNumber) j u
  lines : ∀ {n : ℕ} {name : List Byte} {pid : Pid} {b : Bool}, Line.completed n name pid b ∈ w.out →
    n ≤ w.table.nextJobNumber ∧ EndedAs ended (w.regs n) pid b

theorem boot_led : Led (fun _ => none) boot :=
  ⟨boot_identified, ⟨(fun _ hc => nomatch hc), fun _ _ => rfl⟩, (fun _ hr => nomatch hr),
    (fun _ hj => nomatch hj), fun hl => nomatch hl⟩

section Act

variable {ended : ℕ → Option WaitStatus} {w w' : World} {e : MainEvent} (h : Led ended w)
  (hfresh : FreshPid w (.main e))
include h hfresh

/-- The status that is applied to a job is how the process ended. -/
theorem Applied.seen (happ : Applied w e pid st) {j : BgJob} (hj : j ∈ w.table.jobs) {x : Pid × ℕ}
    (hx : x ∈ w.regs j.jobNumber) (hpid : x.1 = pid) (hp : x.1 ∈ j.pids) : ended x.2 = some st := by
  cases happ with
  | @drain r rest hpc hst =>
    have hr : r ∈ w.backlog := by
      rw [World.backlog, hpc]
      exact List.mem_append_left _ List.mem_cons_self
    rw [← (h.ident.jobs j hj).record x hx hp r hr hst hpid.symm]
    exact h.records r hr hst
  | sweep hwait hst =>
    rw [← h.ident.child_uid hwait hj hx hpid hp]
    exact h.ends.of_waitpid hwait hst
  | @snoop pid wasWatched c st hpc hwait =>
    rw [← h.ident.child_uid hwait hj hx hpid hp]
    exact h.ends.of_waitpid hwait st.2
  | @foreign pid wasWatched st hpc hgone =>
    exact absurd (hfresh.traced hpc (hpid ▸ mem_pids hj hp)) hgone
  | copy => exact absurd (hpid ▸ mem_pids hj hp) hfresh

theorem Keeps.lead {k : BgJob} (hkeeps : Keeps w e k) (hkept : LeadKept w (.main e)) :
    ∃ u, LeadOk ended (w.regs k.jobNumber) k u := by
  cases hkeeps with
  | @same j hj hsame =>
    obtain ⟨u, hlead⟩ := h.lead j hj
    refine ⟨u, ?_, ?_, ?_⟩
    · rw [hsame.number, hsame.leadPid]
      exact hlead.head
    · rw [hsame.leadReaped, hsame.leadStatus]
      exact hlead.reaped
    · rw [hsame.leadReaped, hsame.leadPid, hsame.pids]
      exact hlead.listed
  | @reaped j pid st hj happ hpid hk =>
    obtain ⟨u, hlead⟩ := h.lead j hj
    rw [hk]
    refine ⟨u, hlead.head, ?_, ?_⟩
    · show (if pid = j.leadPid then true else j.leadReaped) = true →
        ended u = some (if pid = j.leadPid then st else j.leadStatus)
      by_cases hlp : pid = j.leadPid
      · rw [if_pos hlp, if_pos hlp]
        exact fun _ => happ.seen h hfresh hj (List.mem_of_mem_head? hlead.head) hlp.symm
          (hlp ▸ hpid)
      · rw [if_neg hlp, if_neg hlp]
        exact hlead.reaped
    · show (if pid = j.leadPid then true else j.leadReaped) = false →
        j.leadPid ∈ (j.reap pid st).pids
      by_cases hlp : pid = j.leadPid
      · rw [if_pos hlp]
        exact fun hfalse => nomatch hfalse
      · rw [if_neg hlp, pids_reap]
        exact fun hfalse => (List.mem_erase_of_ne (Ne.symm hlp)).mpr (hlead.listed hfalse)
  | @stopped n timer done stopped j he hpc hne hj hk =>
    obtain ⟨u, hlead⟩ := h.lead j (mem_of_findJob hj)
    have hpids := (h.ident.ok.pids_keepStopped hpc hj).2
    rw [hk]
    refine ⟨u, hlead.head, hlead.reaped, fun hfalse => ?_⟩
    rw [hpids]
    rw [he, LeadKept, hpc] at hkept
    rcases hkept (n, stopped) rfl hne j hj with htrue | hmem
    · exact absurd (hfalse.symm.trans htrue) Bool.false_ne_true
    · exact hmem

omit hfresh h in
theorem Launches.lead_ok {kids : List Kid} {j : BgJob} (hlaunch : Launches w w' kids j) :
    ∃ u, LeadOk ended (w'.regs j.jobNumber) j u := by
  obtain ⟨k, hk, hkpid⟩ := Option.map_eq_some_iff.mp hlaunch.lead
  obtain ⟨rest, rfl⟩ := List.head?_eq_some_iff.mp hk
  refine ⟨k.uid, ?_, fun htrue => ?_, fun _ => ?_⟩
  · rw [hlaunch.regs, Function.update_self, ← hkpid]
    rfl
  · exact absurd (hlaunch.registers.fresh.symm.trans htrue) Bool.false_ne_true
  · rw [hlaunch.pids, ← hkpid]
    exact List.mem_cons_self

theorem Applied.reports {n : ℕ} {name : List Byte} {lead : Pid} (happ : Applied w e pid st)
    (hl : Line.completed n name lead b ∈ (bgChildExited w.table pid st).lines) :
    n ≤ w.table.nextJobNumber ∧ EndedAs ended (w.regs n) lead b := by
  obtain ⟨j, hfin⟩ := finishes_of_mem_lines hl
  obtain ⟨u, hlead⟩ := h.lead j hfin.mem
  have hline := BgJob.mem_completion hfin.line
  injection hline with hn hname hpid hb
  subst hn hpid
  have hended : ended u = some (if (j.reap pid st).leadReaped then (j.reap pid st).leadStatus
      else (j.reap pid st).lastStatus) := by
    show _ = some (if (if pid = j.leadPid then true else j.leadReaped) = true then
      if pid = j.leadPid then st else j.leadStatus else st)
    by_cases hlp : pid = j.leadPid
    · rw [if_pos hlp, if_pos hlp, if_pos rfl]
      refine happ.seen h hfresh hfin.mem (List.mem_of_mem_head? hlead.head) hlp.symm ?_
      rw [hfin.pids]
      exact List.mem_singleton.mpr hlp.symm
    · have hreaped : j.leadReaped = true := by
        -- were it not, the lead would be the process that is left
        by_contra hfalse
        have hmem := hlead.listed (eq_false_of_ne_true hfalse)
        rw [hfin.pids] at hmem
        exact hlp (List.mem_singleton.mp hmem).symm
      rw [if_neg hlp, if_neg hlp, if_pos hreaped]
      exact hlead.reaped hreaped
  exact ⟨h.ident.ok.table.bounded j hfin.mem, u, _, hlead.head, hended, hb⟩

theorem Led.act (hact : Acts w e w') (hne : e ≠ .copyDrain) (hkept : LeadKept w (.main e))
    (hok : WorldOk w') : Led ended w' := by
  obtain ⟨hnext, hregs⟩ := hact.older h.ident.ok
  refine ⟨h.ident.act hact hfresh hok, h.ends.act h.ident.ok.pids_nodup hact, ?_, ?_, ?_⟩
  · intro r hr
    refine h.records r ?_
    rw [hact.backlog]
    exact List.mem_append_right _ hr
  · intro k hk
    rcases hact.jobs h.ident.ok with ⟨j, -, hlaunch⟩ | hleaves
    · rcases hlaunch.mem hk with hk | rfl
      · rw [hregs _ (h.ident.ok.table.bounded k hk)]
        exact h.lead k hk
      · exact hlaunch.lead_ok
    · rw [hleaves.regs]
      exact (hleaves.keeps k hk).lead h hfresh hkept
  · intro n name pid b hl
    have hn : (Line.completed n name pid b).completes n = true := decide_eq_true rfl
    have hline : n ≤ w.table.nextJobNumber ∧ EndedAs ended (w.regs n) pid b := by
      rcases hact.lines hl hn with hold | ⟨q, st, happ, hl⟩ | ⟨he, -⟩
      · exact h.lines hold
      · exact happ.reports h hfresh hl
      · exact absurd he hne
    rw [hregs n hline.1]
    exact ⟨hline.1.trans hnext, hline.2⟩

end Act

theorem Led.copyDrain {ended : ℕ → Option WaitStatus} {stopped kids : List Kid} (h : Led ended w)
    (hpc : w.pc = .launching stopped kids) :
    Led ended { w with out := w.out ++ copyLines w.table w.queue } := by
  have hrecords : ∀ r ∈ w.queue ++ [], r.status.terminal = true → ended r.uid = some r.status := by
    have hold := h.records
    rw [World.backlog, hpc] at hold
    rw [List.append_nil]
    exact hold
  have hstart : Led ended { w with pc := .draining w.queue, queue := [] } :=
    ⟨h.ident.copy hpc, h.ends, hrecords, h.lead, h.lines⟩
  have hdrain : ∀ {v v' : World}, Led ended v → Acts v .drainApply v' → Led ended v' := by
    intro v v' hv hact
    have hfresh : FreshPid v (.main .drainApply) := trivial
    exact hv.act hfresh hact drainApply_ne_copyDrain trivial (hv.ident.ok.drainApply hact)
  obtain ⟨v', hv', hout, hregs, hcol, hnext⟩ := copyLines_rule hdrain rfl hstart
  refine ⟨h.ident.print _, h.ends, h.records, h.lead, fun {n name pid b} hl => ?_⟩
  have hlines := hv'.lines (hout ▸ hl)
  rw [hregs, hnext] at hlines
  exact hlines

/-- **Step lemma.** -/
theorem Led.step {ended : ℕ → Option WaitStatus} {w' : World} {e : Event} (h : Led ended w)
    (hfresh : FreshPid w e) (hkept : LeadKept w e) (hstep : step w e = some w') :
    Led (noteEnd w e ended) w' := by
  have hident := h.ident.step hfresh hstep
  cases step_moves hstep with
  | @change e c hfind hlive =>
    have hgrows : ∀ {u : ℕ} {st : WaitStatus}, ended u = some st →
        noteEnd w (.kernel e) ended u = some st := fun hu => noteEnd_grows h.ends hfind hlive hu
    refine ⟨hident, h.ends.change hfind h.ident.ok.kernel, ?_, ?_, ?_⟩
    · exact fun r hr hst => hgrows (h.records r hr hst)
    · intro j hj
      obtain ⟨u, hlead⟩ := h.lead j hj
      exact ⟨u, hlead.head, fun htrue => hgrows (hlead.reaped htrue), hlead.listed⟩
    · intro n name pid b hl
      obtain ⟨hle, u, st, hhead, hended, hb⟩ := h.lines hl
      exact ⟨hle, u, st, hhead, hgrows hended, hb⟩
  | turn i => exact ⟨hident, h.ends, h.records, h.lead, h.lines⟩
  | call hidle hcalls => exact ⟨hident, h.ends, h.records, h.lead, h.lines⟩
  | reap hi hlt hroom hpid hzero hwait =>
    refine ⟨hident, h.ends.collect h.ident.ok.pids_nodup hwait .handler, fun r hr hst => ?_, h.lead,
      h.lines⟩
    rcases mem_backlog_enqueue (w := w) hr with hr | rfl
    · exact h.records r hr hst
    · exact h.ends.of_waitpid hwait hst
  | @act e w' hidle hcalls hact =>
    by_cases hcopy : e = .copyDrain
    · subst hcopy
      cases hact with
      | copyDrain hpc => exact h.copyDrain hpc
    · exact h.act hfresh hact hcopy hkept hident.ok

/-- **Run lemma.** -/
theorem exec_led {es : List Event}
    (hok : Guarded step (fun w e => FreshPid w e ∧ LeadKept w e) boot es)
    (h : exec step boot es = some w) : Led (observe step noteEnd boot (fun _ => none) es) w := by
  refine observe_invariant (I := fun w ended => Led ended w) (fun w ended e w' hI hguard hst => ?_)
    boot_led hok h
  exact hI.step hguard.1 hguard.2 hst

/-- **The completion line reports how the lead process ended**, in every run in which no
    process gets a pid that is still on the books and a resumed job that stops again
    does so with its lead: the line names the first process of the job, and says
    `normally` exactly if that process exited. -/
theorem completion_reports_lead {es : List Event} {w : World}
    (hok : Guarded step (fun w e => FreshPid w e ∧ LeadKept w e) boot es)
    (h : exec step boot es = some w) {n : ℕ} {name : List Byte} {pid : Pid} {normally : Bool}
    (hl : Line.completed n name pid normally ∈ w.out) :
    ∃ u st, (w.regs n).head? = some (pid, u) ∧
      observe step noteEnd boot (fun _ => none) es u = some st ∧ normally = st.wifexited :=
  ((exec_led hok h).lines hl).2

/-- Job 1 is a pipeline of 7 and 8, in the background; the shell waits for it after
    `resume fg`. -/
def resumedPair : List Event :=
  [.main (.fork 7 true []), .main (.fork 8 true []), .main (.registerBg 7 []), .main .call,
    .main .call, .main (.resumeFg 1 false), .main .call, .main .call, .main .resumeWait]

/-- The lead is killed while the shell waits, the other process stops and the job with
    it; later the other process exits, and its status is reported as that of the lead. -/
def leadKilledInWait : List Event :=
  resumedPair ++ [.kernel (.exit 7 (Terminal.signaled 9)), .main .waitNext, .kernel (.stop 8 20),
    .main .waitNext, .main .waitEnd, .main .call, .kernel (.exit 8 (Terminal.exited 0)),
    .main .drainCopy, .main .drainEnd, .main (.sweepCollect 8)]

theorem killed_lead_reported_normal :
    Guarded step FreshPid boot leadKilledInWait ∧
      ∃ w ∈ exec step boot leadKilledInWait, Line.completed 1 [] 7 true ∈ w.out ∧
        w.regs 1 = [(7, 0), (8, 1)] ∧
        observe step noteEnd boot (fun _ => none) leadKilledInWait 0 = some (.signaled 9) := by
  decide +kernel

/-- The other process ends while the shell waits and the lead stops; it is killed later. -/
def leadStopsInWait : List Event :=
  resumedPair ++ [.kernel (.stop 7 20), .main .waitNext, .kernel (.exit 8 (Terminal.exited 0)),
    .main .waitNext, .main .waitEnd, .main .call, .kernel (.exit 7 (Terminal.signaled 9)),
    .main .drainCopy, .main .drainEnd, .main (.sweepCollect 7)]

theorem completion_reports_lead_stopped :
    ∃ w ∈ exec step boot leadStopsInWait, Line.completed 1 [] 7 false ∈ w.out ∧
      ∃ u st, (w.regs 1).head? = some (7, u) ∧
        observe step noteEnd boot (fun _ => none) leadStopsInWait u = some st ∧
        false = st.wifexited := by
  have hok : Guarded step (fun w e => FreshPid w e ∧ LeadKept w e) boot leadStopsInWait := by
    decide +kernel
  have hrun : ∃ w ∈ exec step boot leadStopsInWait, Line.completed 1 [] 7 false ∈ w.out := by
    decide +kernel
  obtain ⟨w, hw, hl⟩ := hrun
  exact ⟨w, hw, hl, completion_reports_lead hok (Option.mem_def.mp hw) hl⟩

end MiniOs.Shell

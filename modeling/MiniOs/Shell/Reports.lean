import MiniOs.Shell.Identity
import MiniOs.Shell.Pipeline

/-!
# A completion line stands for every process of its job

`bg_child_exited` prints the completion line of a job when it takes the last process off
its list. As long as pids are not given out again too early, each process of the job has
then been collected. The list is that of the pipeline only if it has room for it:
`add_job`, and `record_bg_stage` before it, keep the first `MAX_JOB_PROCS` stages.
-/

namespace MiniOs.Shell

open Trace

variable {j : BgJob} {w w' : World}

/-! ### The line of a job -/

theorem BgJob.mem_completion {l : Line} (h : l ∈ j.completion) :
    l = .completed j.jobNumber j.leadName j.leadPid
      (if j.leadReaped then j.leadStatus else j.lastStatus).wifexited := by
  rw [BgJob.completion] at h
  generalize (if j.leadReaped then j.leadStatus else j.lastStatus) = st at h ⊢
  split_ifs at h with hexit hsig
  · rw [hexit]
    exact List.mem_singleton.mp h
  · rw [eq_false_of_ne_true hexit]
    exact List.mem_singleton.mp h
  · cases h

/-- `bg_child_exited` takes the last process off the job `j` and prints `l`. -/
structure Finishes (t : JobTable) (pid : Pid) (st : WaitStatus) (j : BgJob) (l : Line) : Prop where
  mem : j ∈ t.jobs
  pids : j.pids = [pid]
  line : l ∈ (j.reap pid st).completion

theorem Finishes.number {t : JobTable} {pid : Pid} {st : WaitStatus} {l : Line} {n : ℕ}
    (h : Finishes t pid st j l) (hn : l.completes n = true) : j.jobNumber = n := by
  rw [BgJob.mem_completion h.line] at hn
  exact of_decide_eq_true hn

theorem finishes_of_mem_lines {t : JobTable} {pid : Pid} {st : WaitStatus} {l : Line}
    (h : l ∈ (bgChildExited t pid st).lines) : ∃ j, Finishes t pid st j l := by
  rcases reapIn_spec pid st t.jobs with ⟨-, heq⟩ | ⟨l₁, j, l₂, hjobs, -, hpid, ⟨hnil, heq⟩ | heq⟩
  · rw [lines_of_reapIn_none (by rw [heq])] at h
    cases h
  · refine ⟨j, ?_, ?_, ?_⟩
    · rw [hjobs]
      exact List.mem_append_right l₁ List.mem_cons_self
    · have hleft : j.pids.erase pid = [] := by
        rw [← pids_reap j pid st, BgJob.pids, hnil]
        rfl
      rcases List.erase_eq_nil_iff.mp hleft with hempty | hone
      · rw [hempty] at hpid
        cases hpid
      · exact hone
    · obtain ⟨k, hk, hl⟩ := List.mem_flatMap.mp h
      rw [heq] at hk
      cases Option.mem_toList.mp hk
      exact hl
  · rw [lines_of_reapIn_none (by rw [heq])] at h
    cases h

/-- The jobs that have a number keep it and their processes. -/
theorem Acts.older {e : MainEvent} (hact : Acts w e w') (h : WorldOk w) :
    w.table.nextJobNumber ≤ w'.table.nextJobNumber ∧
      ∀ n, n ≤ w.table.nextJobNumber → w'.regs n = w.regs n := by
  rcases hact.jobs h with ⟨j, -, hlaunch⟩ | hleaves
  · have hnum := hlaunch.registers.number
    have hnext := hlaunch.registers.next_eq
    refine ⟨by omega, fun n hn => ?_⟩
    rw [hlaunch.regs, Function.update_of_ne (by omega)]
  · exact ⟨hleaves.within.next.ge, fun n _ => by rw [hleaves.regs]⟩

/-! ### A forked copy of the shell -/

/-- **Rule**: a copy of the shell prints what the drain would print, so what the steps of
    the drain keep can be used for its lines. -/
theorem copyLines_rule {I : World → Prop}
    (hI : ∀ {v v' : World}, I v → Acts v .drainApply v' → I v') {rest : List Record} {v : World}
    (hpc : v.pc = .draining rest) (h : I v) :
    ∃ v', I v' ∧ v'.out = v.out ++ copyLines v.table rest ∧ v'.regs = v.regs ∧
      v'.collector = v.collector ∧ v'.table.nextJobNumber = v.table.nextJobNumber := by
  induction rest generalizing v with
  | nil => exact ⟨v, h, (List.append_nil _).symm, rfl, rfl, rfl⟩
  | cons r rest ih =>
    obtain ⟨v', hv', hout, hregs, hcol, hnext⟩ := ih rfl (hI h (.drainApply hpc))
    refine ⟨v', hv', ?_, hregs, hcol, hnext.trans ?_⟩
    · rw [hout, copyLines, ← List.append_assoc]
      rfl
    · obtain ⟨jobs', heq, -⟩ := recordStatus_narrows v.table r.pid r.status
      show (recordStatus v.table r.pid r.status).table.nextJobNumber = _
      rw [heq]

/-- The copy starts with the queue and the table of the shell. -/
theorem Identified.copy {stopped kids : List Kid} (h : Identified w)
    (hpc : w.pc = .launching stopped kids) :
    Identified { w with pc := .draining w.queue, queue := [] } := by
  have hback : w.backlog = w.queue ++ [] := by
    rw [World.backlog, hpc]
    exact (List.append_nil _).symm
  refine ⟨⟨h.ok.kernel, h.ok.table, h.ok.nonzero, trivial⟩, ?_, ?_, ?_, trivial⟩
  · have hjobs := h.jobs
    rw [hback] at hjobs
    exact hjobs
  · have hkids := h.kids
    rw [hback] at hkids
    exact hkids.sublist (List.nil_sublist _)
  · have hrecords := h.records
    rw [hback] at hrecords
    exact hrecords

theorem drainApply_ne_copyDrain : MainEvent.drainApply ≠ .copyDrain := nofun

theorem WorldOk.drainApply {v v' : World} (h : WorldOk v) (hact : Acts v .drainApply v') :
    WorldOk v' := by
  have hk : KernelOk v'.ids v'.nextUid v'.collector := by
    cases hact
    exact h.kernel
  exact h.act hact hk

theorem Identified.print (h : Identified w) (lines : List Line) :
    Identified { w with out := w.out ++ lines } := by
  have hok : WorldOk { w with out := w.out ++ lines } :=
    ⟨h.ok.kernel, h.ok.table, h.ok.nonzero, h.ok.placed⟩
  exact ⟨hok, h.jobs, h.kids, h.records, h.waits⟩

/-! ### Reported jobs -/

/-- Every process of a job whose completion line has been printed has been collected. -/
structure Reported (w : World) : Prop where
  ident : Identified w
  lines : ∀ {l : Line} {n : ℕ}, l ∈ w.out → l.completes n = true →
    n ≤ w.table.nextJobNumber ∧ ∀ x ∈ w.regs n, w.collector x.2 ≠ none

theorem Reported.act {e : MainEvent} (h : Reported w) (hact : Acts w e w') (hne : e ≠ .copyDrain)
    (hfresh : FreshPid w (.main e)) (hok : WorldOk w') : Reported w' := by
  have hcarries := hact.carries h.ident hfresh
  obtain ⟨hnext, hregs⟩ := hact.older h.ident.ok
  refine ⟨h.ident.act hact hfresh hok, fun {l n} hl hn => ?_⟩
  rcases hact.lines hl hn with hold | ⟨pid, st, happ, hline⟩ | ⟨he, -⟩
  · obtain ⟨hle, hcol⟩ := h.lines hold hn
    refine ⟨hle.trans hnext, fun x hx => hcarries.collected (hcol x ?_)⟩
    exact hregs n hle ▸ hx
  · obtain ⟨j, hfin⟩ := finishes_of_mem_lines hline
    obtain rfl := hfin.number hn
    have hle := h.ident.ok.table.bounded j hfin.mem
    refine ⟨hle.trans hnext, fun x hx => ?_⟩
    rw [hregs _ hle] at hx
    -- the last process is the one whose end is applied; the others are gone
    by_cases hp : x.1 ∈ j.pids
    · refine happ.collected h.ident hact hfresh hfin.mem hx ?_ hp
      rw [hfin.pids] at hp
      exact List.mem_singleton.mp hp
    · exact hcarries.collected ((h.ident.jobs j hfin.mem).gone x hx hp)
  · exact absurd he hne

theorem Reported.copyDrain {stopped kids : List Kid} (h : Reported w)
    (hpc : w.pc = .launching stopped kids) :
    Reported { w with out := w.out ++ copyLines w.table w.queue } := by
  have hstart : Reported { w with pc := .draining w.queue, queue := [] } :=
    ⟨h.ident.copy hpc, h.lines⟩
  have hdrain : ∀ {v v' : World}, Reported v → Acts v .drainApply v' → Reported v' := by
    intro v v' hv hact
    exact hv.act hact drainApply_ne_copyDrain trivial (hv.ident.ok.drainApply hact)
  obtain ⟨v', hv', hout, hregs, hcol, hnext⟩ := copyLines_rule hdrain rfl hstart
  refine ⟨h.ident.print _, fun {l n} hl hn => ?_⟩
  have hlines := hv'.lines (hout ▸ hl) hn
  rw [hregs, hcol, hnext] at hlines
  exact hlines

/-- **Step lemma.** -/
theorem Reported.step {e : Event} (h : Reported w) (hfresh : FreshPid w e)
    (hstep : step w e = some w') : Reported w' := by
  have hident := h.ident.step hfresh hstep
  have hmove := step_moves hstep
  have hcarries := hmove.carries h.ident hfresh
  have hlines : ∀ {l : Line} {n : ℕ}, l ∈ w.out → l.completes n = true →
      n ≤ w.table.nextJobNumber ∧ ∀ x ∈ w.regs n, w'.collector x.2 ≠ none := by
    intro l n hl hn
    obtain ⟨hle, hcol⟩ := h.lines hl hn
    exact ⟨hle, fun x hx => hcarries.collected (hcol x hx)⟩
  cases hmove with
  | change hfind hlive => exact ⟨hident, hlines⟩
  | turn i => exact ⟨hident, hlines⟩
  | call hidle hcalls => exact ⟨hident, hlines⟩
  | reap hi hlt hroom hpid hzero hwait => exact ⟨hident, hlines⟩
  | @act e w' hidle hcalls hact =>
    by_cases hcopy : e = .copyDrain
    · subst hcopy
      cases hact with
      | copyDrain hpc => exact h.copyDrain hpc
    · exact h.act hact hcopy hfresh hident.ok

/-- **Run lemma.** -/
theorem exec_reported {es : List Event} (hfresh : Guarded step FreshPid boot es)
    (h : exec step boot es = some w) : Reported w := by
  have hboot : Reported boot := ⟨boot_identified, fun hl => nomatch hl⟩
  exact exec_invariant_of_guarded (I := Reported)
    (fun _ _ _ hinv hok hstep => hinv.step hok hstep) hboot hfresh h

/-! ### Whole pipelines -/

/-- The pipeline that is registered has at most `MAX_JOB_PROCS` stages. -/
def FitsJob (w : World) : Event → Prop
  | .main e => e.registers = true → w.pc.kids.length ≤ maxJobProcs
  | _ => True

instance (w : World) (e : Event) : Decidable (FitsJob w e) := by
  unfold FitsJob
  split <;> infer_instance

/-- An observer who writes down the processes of every pipeline that gets a job: those
    that were forked, or those that stopped. -/
def noteLaunch (w : World) (e : Event) (launched : ℕ → List (Pid × ℕ)) : ℕ → List (Pid × ℕ) :=
  match step w e with
  | some w' =>
    if w'.table.nextJobNumber = w.table.nextJobNumber then launched
    else Function.update launched w'.table.nextJobNumber (w.pc.kids.map Kid.proc)
  | none => launched

theorem observe_noteLaunch {es : List Event} (hfits : Guarded step FitsJob boot es)
    (h : exec step boot es = some w) :
    w.regs = observe step noteLaunch boot (fun _ => []) es := by
  have hboot : WorldOk boot ∧ boot.regs = fun _ => [] := ⟨boot_worldOk, rfl⟩
  refine (observe_invariant (I := fun w g => WorldOk w ∧ w.regs = g)
    (fun w g e w' hI hok hst => ⟨hI.1.step hst, ?_⟩) hboot hfits h).2
  obtain ⟨hworld, rfl⟩ := hI
  rw [noteLaunch, hst]
  dsimp only
  cases step_moves hst with
  | change hfind hlive => exact (if_pos rfl).symm
  | turn i => exact (if_pos rfl).symm
  | call hidle hcalls => exact (if_pos rfl).symm
  | reap hi hlt hroom hpid hzero hwait => exact (if_pos rfl).symm
  | act hidle hcalls hact =>
    rcases hact.jobs hworld with ⟨j, hreg, hlaunch⟩ | hleaves
    · have hnext := hlaunch.registers.next_eq
      rw [if_neg (by omega), hlaunch.regs, hlaunch.registers.number, ← hnext,
        List.take_of_length_le (hok hreg)]
    · rw [if_pos hleaves.within.next, hleaves.regs]

theorem append_singleton_inj {jobs jobs' : List BgJob} {k : BgJob} (h : jobs' = jobs ++ [j])
    (h' : jobs' = jobs ++ [k]) : j = k :=
  List.singleton_inj.mp (List.append_cancel_left (h.symm.trans h'))

/-- A background pipeline is registered as a whole exactly if it fits. -/
theorem registerBgGroup_whole_iff {o : PipelineOutcome} {start : List Token} {old : Disposition}
    {r : BgLaunch} (hr : executePipelineBg o start maxJobProcs old = r) {t : JobTable}
    {cmdline : List Byte}
    (hj : (registerBgGroup t r.pgid r.out cmdline).table.jobs = t.jobs ++ [j]) :
    j.pids = r.forked.map Prod.fst ↔ r.forked.length ≤ maxJobProcs := by
  rcases registerBgGroup_adds t r.pgid r.out cmdline with ⟨htable, -⟩ | ⟨k, hreg, -, -⟩
  · rw [htable] at hj
    have hlen := congrArg List.length hj
    rw [List.length_append, List.length_singleton] at hlen
    omega
  · cases append_singleton_inj hj hreg.jobs_eq
    have hout : r.out = r.forked.take maxJobProcs := by
      rw [← hr]
      exact executePipelineBg_out o start maxJobProcs old
    rw [hreg.pids, hout, List.map_take, List.take_take, Nat.min_self, List.take_eq_self_iff,
      List.length_map]

/-- A launch is registered as a whole exactly if it fits. -/
theorem launch_whole_iff {es : List Event} {e : Event} (h : exec step boot es = some w)
    (hstep : step w e = some w') (hj : w'.table.jobs = w.table.jobs ++ [j]) :
    j.pids = w.pc.kids.map Kid.pid ↔ w.pc.kids.length ≤ maxJobProcs := by
  have hsame : w'.table.jobs.length ≤ w.table.jobs.length →
      (j.pids = w.pc.kids.map Kid.pid ↔ w.pc.kids.length ≤ maxJobProcs) := by
    intro hle
    rw [hj, List.length_append, List.length_singleton] at hle
    omega
  cases step_moves hstep with
  | change hfind hlive => exact hsame le_rfl
  | turn i => exact hsame le_rfl
  | call hidle hcalls => exact hsame le_rfl
  | reap hi hlt hroom hpid hzero hwait => exact hsame le_rfl
  | act hidle hcalls hact =>
    rcases hact.jobs (exec_worldOk h) with ⟨k, -, hlaunch⟩ | hleaves
    · cases append_singleton_inj hj hlaunch.registers.jobs_eq
      rw [hlaunch.pids, List.map_take, List.take_eq_self_iff, List.length_map]
    · refine hsame ?_
      have hlen := hleaves.within.narrows.numbers.length_le
      rwa [List.length_map, List.length_map] at hlen

/-- **No stage escapes its job if the pipeline fits.** The job that a background pipeline
    gets lists every stage that was forked, and a launch in a run every stage that was
    forked or that stopped, exactly if there are at most `MAX_JOB_PROCS` of them. In a
    run whose launches all fit and in which no process gets a pid that is still on the
    books, every process of the pipeline has been collected when the completion line of
    its job is printed. -/
theorem stages_stay_with_job {es : List Event} {w : World} (h : exec step boot es = some w) :
    (∀ (o : PipelineOutcome) (start : List Token) (old : Disposition) (r : BgLaunch),
      executePipelineBg o start maxJobProcs old = r →
      ∀ (t : JobTable) (cmdline : List Byte) (j : BgJob),
        (registerBgGroup t r.pgid r.out cmdline).table.jobs = t.jobs ++ [j] →
        (j.pids = r.forked.map Prod.fst ↔ r.forked.length ≤ maxJobProcs)) ∧
    (∀ (e : Event) (w' : World) (j : BgJob), step w e = some w' →
      w'.table.jobs = w.table.jobs ++ [j] →
      (j.pids = w.pc.kids.map Kid.pid ↔ w.pc.kids.length ≤ maxJobProcs)) ∧
    (Guarded step (fun w e => FreshPid w e ∧ FitsJob w e) boot es →
      ∀ (n : ℕ) (l : Line), l ∈ w.out → l.completes n = true →
        ∀ x ∈ observe step noteLaunch boot (fun _ => []) es n, w.collector x.2 ≠ none) := by
  refine ⟨fun o start old r hr t cmdline j hj => registerBgGroup_whole_iff hr hj,
    fun e w' j hstep hj => launch_whole_iff h hstep hj, fun hok n l hl hn => ?_⟩
  have hreported := exec_reported (hok.imp (fun _ _ hboth => hboth.1)) h
  rw [← observe_noteLaunch (hok.imp (fun _ _ hboth => hboth.2)) h]
  exact (hreported.lines hl hn).2

/-- A pipeline of `n` stages is launched in the background and registered, the first 16
    stages exit one after the other, and the sweep collects them. -/
def firstStagesExit (n : ℕ) : List Event :=
  (List.range n).map (fun i => .main (.fork (i + 1) true [])) ++
  [.main (.registerBg 1 [])] ++ List.replicate (min n 16) (.main .call) ++
  (List.range (min n 16)).map (fun i => .kernel (.exit (i + 1) (Terminal.exited 0))) ++
  [.main .drainCopy, .main .drainEnd] ++
  (List.range (min n 16)).flatMap (fun i => [.main (.sweepCollect (i + 1)), .main .call])

/-- The job of a pipeline of 17 stages is reported complete while the last one runs. -/
theorem seventeenth_stage_escapes :
    ∃ w ∈ exec step boot (firstStagesExit 17), (∃ l ∈ w.out, l.completes 1 = true) ∧
      ∃ x ∈ observe step noteLaunch boot (fun _ => []) (firstStagesExit 17) 1,
        w.collector x.2 = none ∧ ∃ c ∈ w.children, c.uid = x.2 ∧ c.phase = .running := by
  decide +kernel

/-- Two stages, both collected when the line is printed. -/
theorem stages_stay_with_job_two :
    ∃ w ∈ exec step boot (firstStagesExit 2), (∃ l ∈ w.out, l.completes 1 = true) ∧
      ∀ x ∈ observe step noteLaunch boot (fun _ => []) (firstStagesExit 2) 1,
        w.collector x.2 ≠ none := by
  have hok : Guarded step (fun w e => FreshPid w e ∧ FitsJob w e) boot (firstStagesExit 2) := by
    decide +kernel
  have hrun : ∃ w ∈ exec step boot (firstStagesExit 2), ∃ l ∈ w.out, l.completes 1 = true := by
    decide +kernel
  obtain ⟨w, hw, l, hl, hn⟩ := hrun
  exact ⟨w, hw, ⟨l, hl, hn⟩,
    (stages_stay_with_job (Option.mem_def.mp hw)).2.2 hok 1 l hl hn⟩

end MiniOs.Shell

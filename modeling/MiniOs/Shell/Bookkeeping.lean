import MiniOs.Shell.Completion
import MiniOs.Shell.StopTracking

/-!
# What the shell's records agree on in every run

Whatever the commands, the pids and the order of events are, the job table is in order,
and the job that `resume_fg` is about is in it. The lemmas here say what an operation
leaves of the jobs one by one.
-/

namespace MiniOs.Shell

open Trace

variable {k : BgJob} {n : ℕ} {pid : Pid} {st : WaitStatus} {t : JobTable} {w w' : World}

/-! ### The jobs an operation leaves -/

theorem mem_bgChildExited (hk : k ∈ (bgChildExited t pid st).table.jobs) :
    k ∈ t.jobs ∨ ∃ j ∈ t.jobs, pid ∈ j.pids ∧ k = syncJobStopped (j.reap pid st) := by
  change k ∈ (reapIn pid st t.jobs).1 at hk
  rcases reapIn_spec pid st t.jobs with ⟨-, heq⟩ | ⟨l₁, j, l₂, hjobs, -, hpid, ⟨-, heq⟩ | heq⟩
  · rw [heq] at hk
    exact .inl hk
  · rw [heq] at hk
    rw [hjobs]
    exact .inl (((List.sublist_cons_self j l₂).append_left l₁).subset hk)
  · rw [heq] at hk
    rw [hjobs]
    rcases List.mem_append.mp hk with hk | hk
    · exact .inl (List.mem_append_left _ hk)
    · rcases List.mem_cons.mp hk with rfl | hk
      · exact .inr ⟨j, List.mem_append_right l₁ List.mem_cons_self, hpid, rfl⟩
      · exact .inl (List.mem_append_right l₁ (List.mem_cons_of_mem j hk))

/-- A status that does not end a process changes only flags. -/
theorem mem_recordStatus (hk : k ∈ (recordStatus t pid st).table.jobs) :
    (∃ j ∈ t.jobs, SameProcs k j) ∨ st.terminal = true ∧
      ∃ j ∈ t.jobs, pid ∈ j.pids ∧ k = syncJobStopped (j.reap pid st) := by
  cases hst : st.terminal with
  | false =>
    rw [recordStatus_change hst] at hk
    exact .inl (mem_markIn hk)
  | true =>
    rw [recordStatus_exit hst] at hk
    rcases mem_bgChildExited hk with hk | hreaped
    · exact .inl ⟨k, hk, .refl k⟩
    · exact .inr ⟨rfl, hreaped⟩

theorem mem_bgSetStopped (ht : TableOk t) {pids : List Pid}
    (hk : k ∈ (bgSetStopped t n pids).table.jobs) :
    k ∈ t.jobs ∧ k.jobNumber ≠ n ∨ ∃ j, findJob t n = some j ∧ k = j.keepStopped pids :=
  mem_updateJob ht.nodup hk

theorem mem_bgSetRunning (ht : TableOk t) (hk : k ∈ (bgSetRunning t n).table.jobs) :
    ∃ j ∈ t.jobs, SameProcs k j := by
  rcases mem_updateJob ht.nodup hk with ⟨hk, -⟩ | ⟨j, hj, rfl⟩
  · exact ⟨k, hk, .refl k⟩
  · exact ⟨j, mem_of_findJob hj, markAll_same j false⟩

theorem mem_pingStop (ht : TableOk t)
    (hk : k ∈ (bgSetStopped t n (stoppedPids t n (fun _ => true))).table.jobs) :
    ∃ j ∈ t.jobs, SameProcs k j := by
  rcases mem_bgSetStopped ht hk with ⟨hk, -⟩ | ⟨j, hj, rfl⟩
  · exact ⟨k, hk, .refl k⟩
  · have hok := ht.jobs j (mem_of_findJob hj)
    rw [stoppedPids_all hj]
    exact ⟨j, mem_of_findJob hj, rfl, rfl, rfl, rfl,
      pids_keepStopped hok.length_pids_le (fun _ hp => hp)⟩

theorem mem_bgRemoveJob (ht : TableOk t) (hk : k ∈ (bgRemoveJob t n).table.jobs) :
    k ∈ t.jobs ∧ k.jobNumber ≠ n := by
  have hmem : k ∈ t.jobs := List.mem_of_mem_eraseP hk
  refine ⟨hmem, ?_⟩
  cases hj : findJob t n with
  | none =>
    intro hn
    exact List.find?_eq_none.mp hj k hmem (decide_eq_true hn)
  | some j =>
    obtain ⟨-, l₁, l₂, -, hjobs, hother⟩ := findJob_split ht hj
    rw [hjobs] at hk
    exact hother k hk

/-! ### Registrations -/

/-- The process of a stage: its pid, and which process of that pid it is. -/
def Kid.proc (k : Kid) : Pid × ℕ := (k.pid, k.uid)

/-- The step from `w` to `w'` registers the stages `kids` as the job `j`. -/
structure Launches (w w' : World) (kids : List Kid) (j : BgJob) : Prop where
  registers : Registers w.table (Kid.stages kids) w'.table j
  pids : j.pids = (kids.take maxJobProcs).map Kid.pid
  lead : kids.head?.map Kid.pid = some j.leadPid
  calls : w'.calls = (kids.take maxJobProcs).map (fun k => WatchCall.watch k.pid)
  regs : w'.regs = Function.update w.regs j.jobNumber ((kids.take maxJobProcs).map Kid.proc)

theorem pids_stages (kids : List Kid) : (Kid.stages kids).map Prod.fst = kids.map Kid.pid := by
  rw [Kid.stages, List.map_map]
  rfl

/-- A registration does nothing to the table, or launches a job. -/
theorem register_cases (w : World) {kids : List Kid} {e : Effect}
    (h : Adds w.table (Kid.stages kids) e) :
    (e.table = w.table ∧ e.calls = [] ∧ (w.register e kids).regs = w.regs) ∨
      ∃ j, Launches w (w.register e kids) kids j := by
  rcases h with ⟨htable, hcalls⟩ | ⟨j, hreg, hlead, hcalls⟩
  · exact .inl ⟨htable, hcalls, if_pos (by rw [htable])⟩
  · refine .inr ⟨j, hreg, ?_, ?_, ?_, ?_⟩
    · rw [hreg.pids, pids_stages, List.map_take]
    · rw [← hlead, Kid.stages, List.head?_map, Option.map_map]
      rfl
    · show e.calls = _
      rw [hcalls, pids_stages, ← List.map_take, List.map_map]
      rfl
    · rw [hreg.number, ← hreg.next_eq]
      refine if_neg ?_
      rw [hreg.next_eq]
      exact Nat.succ_ne_self _

/-- The numbers of the jobs before a launch are not that of the new job. -/
theorem Launches.number_ne {kids : List Kid} {j : BgJob} (h : Launches w w' kids j)
    (ht : TableOk w.table) (hk : k ∈ w.table.jobs) :
    k.jobNumber ≠ j.jobNumber := by
  have hle := ht.bounded k hk
  have hnum := h.registers.number
  omega

theorem Launches.mem {kids : List Kid} {j : BgJob} (h : Launches w w' kids j)
    (hk : k ∈ w'.table.jobs) : k ∈ w.table.jobs ∨ k = j := h.registers.mem hk

/-! ### What a step leaves of the jobs -/

/-- The step passes the end `st` of the process `pid` to `bg_child_exited`. -/
inductive Applied (w : World) : MainEvent → Pid → WaitStatus → Prop where
  | drain {r : Record} {rest : List Record} (hpc : w.pc = .draining (r :: rest))
      (hst : r.status.terminal = true) : Applied w .drainApply r.pid r.status
  | sweep {pid : Pid} {c : Child} {st : WaitStatus}
      (hwait : waitpid w.children pid true = some (c, st)) (hst : st.terminal = true) :
      Applied w (.sweepCollect pid) pid st
  | snoop {pid : Pid} {wasWatched : Bool} {c : Child} {st : Terminal}
      (hpc : w.pc = .snooping pid wasWatched)
      (hwait : waitpid w.children pid false = some (c, st.val)) :
      Applied w (.snoopExited st) pid st
  | foreign {pid : Pid} {wasWatched : Bool} {st : Terminal} (hpc : w.pc = .snooping pid wasWatched)
      (hgone : pid ∉ w.children.map Child.pid) : Applied w (.snoopExited st) pid st
  | copy {pid : Pid} {st : Terminal} : Applied w (.copySnoop pid st) pid st

/-- The job `k` is what the step leaves of a job of `w`: one with the same processes, one
    that has lost a process, or one that `resume_fg` leaves stopped. -/
inductive Keeps (w : World) (e : MainEvent) (k : BgJob) : Prop where
  | same {j : BgJob} (hj : j ∈ w.table.jobs) (hsame : SameProcs k j)
  | reaped {j : BgJob} {pid : Pid} {st : WaitStatus} (hj : j ∈ w.table.jobs)
      (happ : Applied w e pid st) (hpid : pid ∈ j.pids)
      (hk : k = syncJobStopped (j.reap pid st))
  | stopped {n : ℕ} {timer : Bool} {done stopped : List Pid} {j : BgJob} (he : e = .waitEnd)
      (hpc : w.pc = .waiting n timer done [] stopped) (hne : stopped ≠ [])
      (hj : findJob w.table n = some j) (hk : k = j.keepStopped stopped)

section Keeps

variable {w : World} {e : MainEvent} {k : BgJob}

theorem keeps_bgChildExited (happ : Applied w e pid st)
    (hk : k ∈ (bgChildExited w.table pid st).table.jobs) : Keeps w e k := by
  rcases mem_bgChildExited hk with hk | ⟨j, hj, hpid, hk⟩
  · exact .same hk (.refl k)
  · exact .reaped hj happ hpid hk

theorem keeps_recordStatus (happ : st.terminal = true → Applied w e pid st)
    (hk : k ∈ (recordStatus w.table pid st).table.jobs) : Keeps w e k := by
  rcases mem_recordStatus hk with ⟨j, hj, hsame⟩ | ⟨hst, j, hj, hpid, hk⟩
  · exact .same hj hsame
  · exact .reaped hj (happ hst) hpid hk

theorem keeps_of_same (h : ∃ j ∈ w.table.jobs, SameProcs k j) : Keeps w e k := by
  obtain ⟨j, hj, hsame⟩ := h
  exact .same hj hsame

/-- **Inversion**, as far as the completion lines go. -/
theorem Acts.lines {l : Line} (hact : Acts w e w') (hl : l ∈ w'.out) (hn : l.completes n = true) :
    l ∈ w.out ∨ (∃ pid st, Applied w e pid st ∧ l ∈ (bgChildExited w.table pid st).lines) ∨
      e = .copyDrain ∧ l ∈ copyLines w.table w.queue := by
  -- lines that are not completion lines
  have hother : ∀ {lines : List Line}, l ∈ w.out ++ lines → completions n lines = 0 →
      l ∈ w.out := by
    intro lines hl hlines
    rcases List.mem_append.mp hl with hl | hl
    · exact hl
    · exact absurd hn (List.countP_eq_zero.mp hlines l hl)
  have happlied : ∀ {pid : Pid} {st : WaitStatus}, Applied w e pid st →
      l ∈ w.out ++ (bgChildExited w.table pid st).lines →
      l ∈ w.out ∨ ∃ pid st, Applied w e pid st ∧ l ∈ (bgChildExited w.table pid st).lines := by
    intro pid st happ hl
    exact (List.mem_append.mp hl).imp_right (fun hl => ⟨pid, st, happ, hl⟩)
  have hrecord : ∀ {pid : Pid} {st : WaitStatus}, (st.terminal = true → Applied w e pid st) →
      l ∈ w.out ++ (recordStatus w.table pid st).lines →
      l ∈ w.out ∨ ∃ pid st, Applied w e pid st ∧ l ∈ (bgChildExited w.table pid st).lines := by
    intro pid st happ hl
    cases hst : st.terminal with
    | false =>
      rw [recordStatus_change hst] at hl
      exact .inl (hother hl rfl)
    | true =>
      rw [recordStatus_exit hst] at hl
      exact happlied (happ hst) hl
  cases hact with
  | registerBg hpc => exact .inl (hother hl (completions_registerBgGroup n _ _ _ _))
  | registerStopped hpc => exact .inl (hother hl (completions_registerStoppedJob n _ _ _ _))
  | drainApply hpc => exact (hrecord (.drain hpc) hl).imp_right .inl
  | sweepCollect hpc hwait => exact (hrecord (.sweep hwait) hl).imp_right .inl
  | snoopForeign hpc hgone => exact (happlied (.foreign hpc hgone) hl).imp_right .inl
  | snoopChild hpc hwait => exact (happlied (.snoop hpc hwait) hl).imp_right .inl
  | copySnoop hpc => exact (happlied .copy hl).imp_right .inl
  | copyDrain hpc => exact (List.mem_append.mp hl).imp_right (fun hl => .inr ⟨rfl, hl⟩)
  | pingStop hpc => exact .inl (hother hl rfl)
  | pingCont hpc => exact .inl (hother hl rfl)
  | resumeBg hpc hj => exact .inl (hother hl rfl)
  | resumeFg hpc hj => exact .inl (hother hl rfl)
  | waitTimeout hpc => exact .inl (hother hl rfl)
  | resumeOver hpc => exact .inl (hother hl rfl)
  | @stopAgain m timer done stopped hpc hne =>
    refine .inl (hother hl ?_)
    cases findJob w.table m <;> rfl
  | _ => exact .inl hl

end Keeps

/-! ### The invariant -/

/-- The stages of a launch have pids, and the job that `resume_fg` is about is in the
    table, with what has stopped and what it still waits for among its processes. -/
def Placed (t : JobTable) : Pc → Prop
  | .launching stopped kids => ∀ k ∈ stopped ++ kids, k.pid ≠ 0
  | .resuming n _ pids => ∃ j, findJob t n = some j ∧ j.pids = pids
  | .waiting n _ done rest stopped =>
    ∃ j, findJob t n = some j ∧ (stopped ++ rest).Sublist j.pids ∧ ∀ p ∈ stopped, p ∈ done
  | _ => True

/-- **What holds in every state**, whatever the pids are. -/
structure WorldOk (w : World) : Prop where
  kernel : KernelOk w.ids w.nextUid w.collector
  table : TableOk w.table
  nonzero : ∀ j ∈ w.table.jobs, ∀ p ∈ j.pids, p ≠ 0
  placed : Placed w.table w.pc

theorem boot_worldOk : WorldOk boot :=
  ⟨boot_inv.kernel, boot_inv.table, (fun _ hj => nomatch hj), trivial⟩

theorem WorldOk.pids_nodup (h : WorldOk w) : (w.children.map Child.pid).Nodup :=
  h.kernel.pids_nodup

theorem WorldOk.kid_pid (h : WorldOk w) {k : Kid} (hk : k ∈ w.pc.kids) : k.pid ≠ 0 := by
  have hplaced := h.placed
  cases hpc : w.pc with
  | launching stopped kids =>
    rw [hpc] at hk hplaced
    exact hplaced k hk
  | _ =>
    rw [hpc] at hk
    cases hk

/-- The stages that are left when `fg_wait` is through with one. -/
theorem sublist_nextKid (stopped kids : List Kid) (k : Kid) (b : Bool) :
    ((if b then stopped ++ [k] else stopped) ++ kids).Sublist (stopped ++ k :: kids) := by
  cases b with
  | false => exact (List.sublist_cons_self k kids).append_left stopped
  | true =>
    show ((stopped ++ [k]) ++ kids).Sublist _
    rw [List.append_assoc]
    exact List.Sublist.refl _

structure Within (t' t : JobTable) : Prop where
  ok : TableOk t'
  narrows : Narrows t'.jobs t.jobs
  next : t'.nextJobNumber = t.nextJobNumber

theorem Within.jobs {t' : JobTable} (h : Within t' t) (hk : k ∈ t'.jobs) :
    ∃ j ∈ t.jobs, k.jobNumber = j.jobNumber ∧ k.pids ⊆ j.pids := by
  obtain ⟨j, hj, hsurv⟩ := h.narrows.exists_survives hk
  exact ⟨j, hj, hsurv.number, hsurv.pids.subset⟩

section Within

variable {t : JobTable} (ht : TableOk t)
include ht

theorem within_refl : Within t t := ⟨ht, Narrows.refl _, rfl⟩

theorem within_of_eq {t' : JobTable} (h : t' = t) : Within t' t := by
  rw [h]
  exact within_refl ht

theorem within_bgChildExited (pid : Pid) (hst : st.terminal = true) :
    Within (bgChildExited t pid st).table t :=
  ⟨ht.childExited pid hst, reapIn_narrows pid st t.jobs, rfl⟩

theorem within_recordStatus (pid : Pid) (st : WaitStatus) :
    Within (recordStatus t pid st).table t := by
  obtain ⟨jobs', heq, hnarrow⟩ := recordStatus_narrows t pid st
  refine ⟨ht.recordStatus pid st, ?_, ?_⟩
  · rw [heq]
    exact hnarrow
  · rw [heq]

theorem within_bgSetRunning (n : ℕ) : Within (bgSetRunning t n).table t :=
  ⟨ht.update (fun j _ => markAll_survives j false) (fun _ => ⟨rfl, rfl⟩),
    updateJob_narrows (fun j _ => markAll_survives j false), rfl⟩

theorem within_bgRemoveJob (n : ℕ) : Within (bgRemoveJob t n).table t :=
  ⟨ht.remove n, Narrows.of_sublist List.eraseP_sublist, rfl⟩

theorem within_bgSetStopped {pids : List Pid}
    (hpids : ∀ j, findJob t n = some j → pids ≠ [] ∧ pids.Sublist j.pids) :
    Within (bgSetStopped t n pids).table t := by
  have hsurv : ∀ j, findJob t n = some j → Survives (j.keepStopped pids) j := by
    intro j hj
    obtain ⟨hne, hsub⟩ := hpids j hj
    exact keepStopped_survives hne
      (Nat.le_trans hsub.length_le (ht.jobs j (mem_of_findJob hj)).length_pids_le) hsub
  exact ⟨ht.update hsurv (fun _ => ⟨rfl, rfl⟩), updateJob_narrows hsurv, rfl⟩

theorem within_pingStop (n : ℕ) :
    Within (bgSetStopped t n (stoppedPids t n (fun _ => true))).table t := by
  refine within_bgSetStopped ht (fun j hj => ?_)
  rw [stoppedPids_all hj]
  exact ⟨(ht.jobs j (mem_of_findJob hj)).pids_ne_nil, List.Sublist.refl _⟩

end Within

theorem WorldOk.pids_keepStopped (h : WorldOk w) {timer : Bool} {done stopped : List Pid}
    (hpc : w.pc = .waiting n timer done [] stopped) {j : BgJob} (hj : findJob w.table n = some j) :
    stopped.Sublist j.pids ∧ (j.keepStopped stopped).pids = stopped := by
  have hplaced := h.placed
  rw [hpc] at hplaced
  obtain ⟨k, hk, hsub, -⟩ := hplaced
  cases hk.symm.trans hj
  rw [List.append_nil] at hsub
  have hlen := hsub.length_le.trans (h.table.jobs j (mem_of_findJob hj)).length_pids_le
  exact ⟨hsub, Shell.pids_keepStopped hlen hsub.subset⟩

def MainEvent.registers : MainEvent → Bool
  | registerBg _ _ | registerStopped _ _ => true
  | _ => false

/-- A step of the program that launches no job, as far as the jobs go. -/
structure Leaves (w : World) (e : MainEvent) (w' : World) : Prop where
  within : Within w'.table w.table
  regs : w'.regs = w.regs
  keeps : ∀ k ∈ w'.table.jobs, Keeps w e k

theorem leaves_same (e : MainEvent) (ht : TableOk w.table) (htable : w'.table = w.table)
    (hregs : w'.regs = w.regs) : Leaves w e w' := by
  refine ⟨within_of_eq ht htable, hregs, ?_⟩
  rw [htable]
  exact fun k hk => .same hk (.refl k)

/-- **Inversion** of a step of the program, as far as the jobs go. -/
theorem Acts.jobs {e : MainEvent} (hact : Acts w e w') (h : WorldOk w) :
    (∃ j, e.registers = true ∧ Launches w w' w.pc.kids j) ∨ Leaves w e w' := by
  have ht := h.table
  cases hact with
  | registerBg hpc =>
    rcases register_cases w (registerBgGroup_adds w.table _ _ _) with ⟨htable, -, hregs⟩ | ⟨j, hj⟩
    · exact .inr (leaves_same _ ht htable hregs)
    · rw [hpc]
      exact .inl ⟨j, rfl, hj⟩
  | registerStopped hpc =>
    rcases register_cases w (registerStoppedJob_adds w.table _ _ _) with
      ⟨htable, -, hregs⟩ | ⟨j, hj⟩
    · exact .inr (leaves_same _ ht htable hregs)
    · rw [hpc, Pc.kids, List.append_nil]
      exact .inl ⟨j, rfl, hj⟩
  | drainApply hpc =>
    exact .inr ⟨within_recordStatus ht _ _, rfl, fun k hk => keeps_recordStatus (.drain hpc) hk⟩
  | sweepCollect hpc hwait =>
    exact .inr ⟨within_recordStatus ht _ _, rfl, fun k hk => keeps_recordStatus (.sweep hwait) hk⟩
  | @snoopForeign _ _ st hpc hgone =>
    exact .inr ⟨within_bgChildExited ht _ st.2, rfl,
      fun k hk => keeps_bgChildExited (.foreign hpc hgone) hk⟩
  | @snoopChild _ _ _ st hpc hwait =>
    exact .inr ⟨within_bgChildExited ht _ st.2, rfl,
      fun k hk => keeps_bgChildExited (.snoop hpc hwait) hk⟩
  | pingStop hpc =>
    exact .inr ⟨within_pingStop ht _, rfl, fun k hk => keeps_of_same (mem_pingStop ht hk)⟩
  | pingCont hpc =>
    exact .inr ⟨within_bgSetRunning ht _, rfl, fun k hk => keeps_of_same (mem_bgSetRunning ht hk)⟩
  | resumeBg hpc hj =>
    exact .inr ⟨within_bgSetRunning ht _, rfl, fun k hk => keeps_of_same (mem_bgSetRunning ht hk)⟩
  | resumeFg hpc hj =>
    exact .inr ⟨within_bgSetRunning ht _, rfl, fun k hk => keeps_of_same (mem_bgSetRunning ht hk)⟩
  | waitTimeout hpc =>
    exact .inr ⟨within_bgRemoveJob ht _, rfl,
      fun k hk => .same (mem_bgRemoveJob ht hk).1 (.refl k)⟩
  | resumeOver hpc =>
    exact .inr ⟨within_bgRemoveJob ht _, rfl,
      fun k hk => .same (mem_bgRemoveJob ht hk).1 (.refl k)⟩
  | stopAgain hpc hne =>
    refine .inr ⟨within_bgSetStopped ht (fun j hj => ⟨hne, ?_⟩), rfl, fun k hk => ?_⟩
    · exact (h.pids_keepStopped hpc hj).1
    · rcases mem_bgSetStopped ht hk with ⟨hk, -⟩ | ⟨j, hj, hk⟩
      · exact .same hk (.refl k)
      · exact .stopped rfl hpc hne hj hk
  | _ => exact .inr (leaves_same _ ht rfl rfl)

theorem placed_idle (hpc : w.pc = .idle) : Placed t w.pc := by
  rw [hpc]
  trivial

/-- The wait of `resume_fg` goes on behind a process that did not stop. -/
theorem Placed.skip {timer : Bool} {done rest stopped : List Pid} {p : Pid}
    (h : Placed t (.waiting n timer done (p :: rest) stopped)) (q : Pid) :
    Placed t (.waiting n timer (done ++ [q]) rest stopped) := by
  obtain ⟨j, hj, hsub, hdone⟩ := h
  refine ⟨j, hj, ((List.sublist_cons_self p rest).append_left stopped).trans hsub, ?_⟩
  exact fun q hq => List.mem_append_left _ (hdone q hq)

theorem Acts.placed {e : MainEvent} (hact : Acts w e w') (h : WorldOk w) :
    Placed w'.table w'.pc := by
  have hplaced := h.placed
  cases hact with
  | @forkStage pid name stopped kids hpid hnew hpc =>
    have hold : ∀ k ∈ stopped ++ kids, k.pid ≠ 0 := by
      rcases hpc with hpc | ⟨-, rfl, rfl⟩
      · rw [hpc] at hplaced
        exact hplaced
      · exact fun k hk => nomatch hk
    intro k hk
    rw [← List.append_assoc, List.mem_append, List.mem_singleton] at hk
    rcases hk with hk | rfl
    · exact hold k hk
    · exact hpid
  | @fgStatus garbage stopped kids k c st hpc hwait =>
    rw [hpc] at hplaced
    refine fun m hm => hplaced m ?_
    exact (sublist_nextKid stopped kids k _).subset hm
  | @fgGone garbage stopped kids k hpc hgone =>
    rw [hpc] at hplaced
    refine fun m hm => hplaced m ?_
    exact (sublist_nextKid stopped kids k _).subset hm
  | resumeFg hpc hj =>
    refine ⟨_, findJob_updateJob (f := fun j => j.markAll false) (fun _ => rfl) hj, ?_⟩
    exact pids_markAll _ false
  | resumeWait hpc =>
    rw [hpc] at hplaced
    obtain ⟨j, hj, hpids⟩ := hplaced
    exact ⟨j, hj, by rw [hpids]; exact List.Sublist.refl _, fun _ hp => nomatch hp⟩
  | @waitStop n timer done rest stopped p c st hpc hwait hst =>
    rw [hpc] at hplaced
    obtain ⟨j, hj, hsub, hdone⟩ := hplaced
    refine ⟨j, hj, ?_, fun q hq => ?_⟩
    · rw [List.append_assoc]
      exact hsub
    · rcases List.mem_append.mp hq with hq | hq
      · exact List.mem_append_left _ (hdone q hq)
      · exact List.mem_append_right _ hq
  | waitExit hpc hwait hst =>
    rw [hpc] at hplaced
    exact hplaced.skip 0
  | waitGone hpc hgone =>
    rw [hpc] at hplaced
    exact hplaced.skip 0
  | forkHelper hpid hnew => exact hplaced
  | helperWait hpc => exact hplaced
  | pingStop hpc => exact placed_idle hpc
  | pingCont hpc => exact placed_idle hpc
  | resumeBg hpc hj => exact placed_idle hpc
  | sweepCollect hpc hwait =>
    show Placed _ w.pc
    rw [hpc]
    trivial
  | copyDrain hpc => exact hplaced
  | copySnoop hpc => exact hplaced
  | _ => trivial

theorem WorldOk.act {e : MainEvent} (h : WorldOk w) (hact : Acts w e w')
    (hk : KernelOk w'.ids w'.nextUid w'.collector) : WorldOk w' := by
  rcases hact.jobs h with ⟨j, -, hlaunch⟩ | hleaves
  · refine ⟨hk, h.table.register hlaunch.registers, fun k hk p hp => ?_, hact.placed h⟩
    rcases hlaunch.mem hk with hk | rfl
    · exact h.nonzero k hk p hp
    · rw [hlaunch.pids] at hp
      obtain ⟨q, hq, rfl⟩ := List.mem_map.mp hp
      exact h.kid_pid (List.mem_of_mem_take hq)
  · refine ⟨hk, hleaves.within.ok, fun k hk p hp => ?_, hact.placed h⟩
    obtain ⟨j, hj, -, hsub⟩ := hleaves.within.jobs hk
    exact h.nonzero j hj p (hsub hp)

theorem WorldOk.step {e : Event} (h : WorldOk w) (hstep : step w e = some w') :
    WorldOk w' := by
  have hk := h.kernel.step hstep
  cases step_moves hstep with
  | change hfind hlive => exact ⟨hk, h.table, h.nonzero, h.placed⟩
  | turn i => exact ⟨hk, h.table, h.nonzero, h.placed⟩
  | reap hi hlt hroom hpid hzero hwait => exact ⟨hk, h.table, h.nonzero, h.placed⟩
  | call hidle hcalls => exact ⟨hk, h.table, h.nonzero, h.placed⟩
  | act hidle hcalls hact => exact h.act hact hk

/-- **Run lemma**: every state reached is as it should be. -/
theorem exec_worldOk {es : List Event} (h : exec step boot es = some w) : WorldOk w :=
  exec_invariant (I := WorldOk) (fun _ _ _ hinv hstep => hinv.step hstep) boot_worldOk h

end MiniOs.Shell

import Mathlib.Data.List.Forall2
import Mathlib.Data.List.Nodup
import MiniOs.Lib.Trace
import MiniOs.Shell.Token

/-!
# The background job table

The job table of `bg.c` and the functions that change it. `bg_jobs[0 .. n_jobs)` is
the list `jobs`, and a job's `procs[0 .. nprocs)` the list `procs`, so the loops that
shift an array down are removals from a list.

The functions also edit the SIGCHLD watch list and print. Neither is read back by
the table, so a function returns an `Effect`: the table it leaves, the calls of
`bg_watch_pid` and `bg_unwatch_pid` it makes, and the lines it prints, in order.
-/

namespace MiniOs.Shell

open Trace

variable {n : ℕ}

/-- A `pid_t`; 0 marks a free entry of the watch list. -/
abbrev Pid := ℕ

def maxBgJobs : ℕ := 256

def maxJobProcs : ℕ := 16

def bgNameMax : ℕ := 256

def bgCmdMax : ℕ := 512

/-- A wait status, by the four macros that take it apart. -/
inductive WaitStatus where
  | exited (code : ℕ)
  | signaled (sig : ℕ)
  | stopped (sig : ℕ)
  | continued
  deriving DecidableEq, Repr

namespace WaitStatus

def wifexited : WaitStatus → Bool
  | exited _ => true
  | _ => false

def wifsignaled : WaitStatus → Bool
  | signaled _ => true
  | _ => false

def wifstopped : WaitStatus → Bool
  | stopped _ => true
  | _ => false

def wifcontinued : WaitStatus → Bool
  | continued => true
  | _ => false

/-- Neither a stop nor a continue, the test `sigchld_handler` and `record_status` make
    for a process that is gone. -/
def terminal (st : WaitStatus) : Bool := !st.wifstopped && !st.wifcontinued

theorem terminal_iff {st : WaitStatus} :
    st.terminal = true ↔ st.wifexited = true ∨ st.wifsignaled = true := by
  cases st <;> simp [terminal, wifexited, wifsignaled, wifstopped, wifcontinued]

end WaitStatus

structure BgProc where
  pid : Pid
  commandName : List Byte
  stopped : Bool
  deriving DecidableEq, Repr

/-- `BgJob`; `nprocs` is the length of `procs`. -/
structure BgJob where
  jobNumber : ℕ
  pgid : Pid
  leadPid : Pid
  leadName : List Byte
  cmdline : List Byte
  leadStatus : WaitStatus
  leadReaped : Bool
  lastStatus : WaitStatus
  stopped : Bool
  procs : List BgProc
  deriving DecidableEq, Repr

/-- The pids of a job's processes, in pipeline order. -/
def BgJob.pids (j : BgJob) : List Pid := j.procs.map BgProc.pid

structure JobTable where
  jobs : List BgJob
  nextJobNumber : ℕ
  deriving DecidableEq, Repr

/-- A call of `bg_watch_pid` or `bg_unwatch_pid`. -/
inductive WatchCall where
  | watch (pid : Pid)
  | unwatch (pid : Pid)
  deriving DecidableEq, Repr

/-- A line printed for a job, here or by `resume`. -/
inductive Line where
  /-- `[%d] %d` -/
  | launched (jobNumber : ℕ) (leadPid : Pid)
  /-- `[%d] + Stopped %s` -/
  | stopped (jobNumber : ℕ) (cmdline : List Byte)
  /-- `%s with pid %d exited normally`, or `abnormally`. The line does not show the number of its
      job; the model keeps it to tell the jobs' lines apart. -/
  | completed (jobNumber : ℕ) (leadName : List Byte) (leadPid : Pid) (normally : Bool)
  /-- `cshell: too many background jobs` -/
  | tooManyJobs
  /-- the command line -/
  | foreground (cmdline : List Byte)
  /-- `[%d] + Running %s` -/
  | running (jobNumber : ℕ) (cmdline : List Byte)
  /-- `resume: job timed out` -/
  | timedOut
  deriving DecidableEq, Repr

def ascii (s : String) : List Byte := s.toList.map (fun c => c.toNat.toUInt8)

/-- What an operation does: the table it leaves, the watch list calls it makes, the
    lines it prints, and for `bg_child_exited` and `record_status` whether they return
    1. -/
structure Effect where
  table : JobTable
  calls : List WatchCall
  lines : List Line
  reported : Bool
  deriving DecidableEq, Repr

/-- An operation that finds nothing to do. -/
def Effect.skip (t : JobTable) : Effect := ⟨t, [], [], false⟩

def syncJobStopped (j : BgJob) : BgJob := { j with stopped := j.procs.any BgProc.stopped }

/-- The processes of a stage list, each with its pid and its name cut to the buffer. -/
def newProcs (stages : List (Pid × List Byte)) : List BgProc :=
  stages.map (fun s => ⟨s.1, s.2.take (bgNameMax - 1), false⟩)

/-- The fields `add_job` fills in, for a first stage `lead`. -/
def newJob (number : ℕ) (pgid : Pid) (lead : Pid × List Byte)
    (stages : List (Pid × List Byte)) (cmdline : List Byte) : BgJob :=
  let leadName := lead.2.take (bgNameMax - 1)
  { jobNumber := number
    pgid := pgid
    leadPid := lead.1
    leadName := leadName
    cmdline := (if cmdline ≠ [] then cmdline else leadName).take (bgCmdMax - 1)
    leadStatus := .exited 0
    leadReaped := false
    lastStatus := .exited 0
    stopped := false
    procs := newProcs stages }

/-- `add_job`, on the pids and names of the stages. The second component is the
    pointer it returns, as an index. -/
def addJob (t : JobTable) (pgid : Pid) (stages : List (Pid × List Byte))
    (cmdline : List Byte) : Effect × Option ℕ :=
  match stages with
  | [] => (Effect.skip t, none)
  | lead :: _ =>
    if maxBgJobs ≤ t.jobs.length then
      (⟨t, [], [.tooManyJobs], false⟩, none)
    else
      let kept := stages.take maxJobProcs
      let j := newJob (t.nextJobNumber + 1) pgid lead kept cmdline
      (⟨⟨t.jobs ++ [j], t.nextJobNumber + 1⟩, kept.map (fun s => .watch s.1), [], false⟩,
        some t.jobs.length)

def registerBgGroup (t : JobTable) (pgid : Pid) (stages : List (Pid × List Byte))
    (cmdline : List Byte) : Effect :=
  match addJob t pgid stages cmdline with
  | (e, none) => e
  | (e, some i) =>
    { e with lines := (e.table.jobs[i]?.toList).map (fun j => .launched j.jobNumber j.leadPid) }

/-- Every process marked stopped or running, and the job's flag with them. -/
def BgJob.markAll (j : BgJob) (stopped : Bool) : BgJob :=
  syncJobStopped { j with procs := j.procs.map (fun p => { p with stopped := stopped }) }

def registerStoppedJob (t : JobTable) (pgid : Pid) (stages : List (Pid × List Byte))
    (cmdline : List Byte) : Effect :=
  match addJob t pgid stages cmdline with
  | (e, none) => e
  | (e, some i) =>
    { e with
      table := { e.table with jobs := e.table.jobs.modify i (fun j => j.markAll true) }
      lines := (e.table.jobs[i]?.toList).map (fun j => .stopped j.jobNumber j.cmdline) }

/-- A job one of whose processes has just been reaped: `bg_child_exited` up to the
    shift of `procs`. -/
def BgJob.reap (j : BgJob) (pid : Pid) (status : WaitStatus) : BgJob :=
  { j with
    leadStatus := if pid = j.leadPid then status else j.leadStatus
    leadReaped := if pid = j.leadPid then true else j.leadReaped
    lastStatus := status
    procs := j.procs.eraseP (fun p => p.pid = pid) }

def BgJob.completion (j : BgJob) : List Line :=
  let st := if j.leadReaped then j.leadStatus else j.lastStatus
  if st.wifexited then [.completed j.jobNumber j.leadName j.leadPid true]
  else if st.wifsignaled then [.completed j.jobNumber j.leadName j.leadPid false]
  else []

/-- The loop of `bg_child_exited` over the jobs: the jobs it leaves, and the job it
    completed. -/
def reapIn (pid : Pid) (status : WaitStatus) : List BgJob → List BgJob × Option BgJob
  | [] => ([], none)
  | j :: rest =>
    if pid ∈ j.pids then
      let j' := j.reap pid status
      if j'.procs = [] then (rest, some j') else (syncJobStopped j' :: rest, none)
    else
      let r := reapIn pid status rest
      (j :: r.1, r.2)

def bgChildExited (t : JobTable) (pid : Pid) (status : WaitStatus) : Effect :=
  let r := reapIn pid status t.jobs
  { table := { t with jobs := r.1 }
    calls := [.unwatch pid]
    lines := r.2.toList.flatMap BgJob.completion
    reported := r.2.isSome }

/-- The first process with the given pid marked stopped or running. -/
def markFirst (pid : Pid) (stopped : Bool) : List BgProc → List BgProc
  | [] => []
  | p :: rest =>
    if p.pid = pid then { p with stopped := stopped } :: rest
    else p :: markFirst pid stopped rest

/-- The loop of `record_status` over the jobs for a stop or a continue. -/
def markIn (pid : Pid) (stopped : Bool) : List BgJob → List BgJob
  | [] => []
  | j :: rest =>
    if pid ∈ j.pids then
      syncJobStopped { j with procs := markFirst pid stopped j.procs } :: rest
    else
      j :: markIn pid stopped rest

def recordStatus (t : JobTable) (pid : Pid) (status : WaitStatus) : Effect :=
  if status.terminal then bgChildExited t pid status
  else Effect.skip { t with jobs := markIn pid status.wifstopped t.jobs }

def findJob (t : JobTable) (jobNumber : ℕ) : Option BgJob :=
  t.jobs.find? (fun j => j.jobNumber = jobNumber)

/-- A change to the job that `find_mutable` finds. -/
def updateJob (jobNumber : ℕ) (f : BgJob → BgJob) : List BgJob → List BgJob
  | [] => []
  | j :: rest =>
    if j.jobNumber = jobNumber then f j :: rest else j :: updateJob jobNumber f rest

def bgSetRunning (t : JobTable) (jobNumber : ℕ) : Effect :=
  Effect.skip { t with jobs := updateJob jobNumber (fun j => j.markAll false) t.jobs }

/-- `kept` in `bg_set_stopped`: for each of `pids`, the job's first process with that
    pid. -/
def BgJob.kept (j : BgJob) (pids : List Pid) : List BgProc :=
  (pids.take maxJobProcs).filterMap (fun pid => j.procs.find? (fun p => p.pid = pid))

def BgJob.keepStopped (j : BgJob) (pids : List Pid) : BgJob :=
  { j with procs := j.kept pids }.markAll true

def bgSetStopped (t : JobTable) (jobNumber : ℕ) (pids : List Pid) : Effect :=
  { table := { t with jobs := updateJob jobNumber (fun j => j.keepStopped pids) t.jobs }
    calls := (findJob t jobNumber).toList.flatMap
      (fun j => (j.keepStopped pids).pids.map WatchCall.watch)
    lines := []
    reported := false }

def bgRemoveJob (t : JobTable) (jobNumber : ℕ) : Effect :=
  { table := { t with jobs := t.jobs.eraseP (fun j => j.jobNumber = jobNumber) }
    calls := (findJob t jobNumber).toList.flatMap (fun j => j.pids.map WatchCall.unwatch)
    lines := []
    reported := false }

/-! ### What an operation does to a job -/

/-- A job with at least one and at most 16 processes whose flag is in step with
    theirs. -/
structure BgJob.Ok (j : BgJob) : Prop where
  nonempty : j.procs ≠ []
  le_max : j.procs.length ≤ maxJobProcs
  synced : j.stopped = j.procs.any BgProc.stopped

theorem BgJob.Ok.pids_ne_nil {j : BgJob} (h : j.Ok) : j.pids ≠ [] :=
  fun hnil => h.nonempty (List.map_eq_nil_iff.mp hnil)

theorem BgJob.Ok.length_pids_le {j : BgJob} (h : j.Ok) : j.pids.length ≤ maxJobProcs := by
  rw [BgJob.pids, List.length_map]
  exact h.le_max

structure Survives (j' j : BgJob) : Prop where
  number : j'.jobNumber = j.jobNumber
  pids : j'.pids.Sublist j.pids
  ok : j.Ok → j'.Ok

/-- `jobs'` is what an operation has left of `jobs`: some jobs are gone, and the others
    stand in the same order. -/
def Narrows (jobs' jobs : List BgJob) : Prop := List.SublistForall₂ Survives jobs' jobs

theorem Survives.refl (j : BgJob) : Survives j j := ⟨rfl, List.Sublist.refl _, id⟩

/-- A job whose processes are a nonempty part of what they were and whose flag has
    been recomputed. -/
theorem survives_sync {j : BgJob} {k : BgJob} (hnum : k.jobNumber = j.jobNumber)
    (hpids : k.pids.Sublist j.pids) (hne : j.procs ≠ [] → k.procs ≠ []) :
    Survives (syncJobStopped k) j := by
  refine ⟨hnum, hpids, fun hj => ⟨hne hj.nonempty, ?_, rfl⟩⟩
  have hlen : k.procs.length ≤ j.procs.length := by
    simpa only [BgJob.pids, List.length_map] using hpids.length_le
  exact Nat.le_trans hlen hj.le_max

@[simp]
theorem pids_syncJobStopped (j : BgJob) : (syncJobStopped j).pids = j.pids := rfl

@[simp]
theorem pids_markAll (j : BgJob) (b : Bool) : (j.markAll b).pids = j.pids := by
  show (j.procs.map _).map BgProc.pid = j.procs.map BgProc.pid
  rw [List.map_map]
  rfl

theorem markAll_survives (j : BgJob) (b : Bool) : Survives (j.markAll b) j := by
  refine survives_sync (j := j) rfl ?_ ?_
  · exact (pids_markAll j b).symm ▸ List.Sublist.refl _
  · intro hne hnil
    exact hne (List.map_eq_nil_iff.mp hnil)

theorem pids_markFirst (pid : Pid) (b : Bool) (l : List BgProc) :
    (markFirst pid b l).map BgProc.pid = l.map BgProc.pid := by
  induction l with
  | nil => rfl
  | cons p rest ih =>
    rw [markFirst]
    split
    · rfl
    · rw [List.map_cons, List.map_cons, ih]

/-- Each of the pids passed is found, so the processes kept are those of `pids`. -/
theorem pids_kept {j : BgJob} {pids : List Pid} (hlen : pids.length ≤ maxJobProcs)
    (hpids : ∀ p ∈ pids, p ∈ j.pids) : (j.kept pids).map BgProc.pid = pids := by
  rw [BgJob.kept, List.take_of_length_le hlen]
  clear hlen
  induction pids with
  | nil => rfl
  | cons p rest ih =>
    obtain ⟨q, hq, hqp⟩ := List.mem_map.mp (hpids p List.mem_cons_self)
    cases hfind : j.procs.find? (fun r => r.pid = p) with
    | none =>
      have hne : ¬ (decide (q.pid = p) = true) := List.find?_eq_none.mp hfind q hq
      exact absurd (decide_eq_true hqp) hne
    | some r =>
      have hr : r.pid = p := by
        simpa using List.find?_some hfind
      rw [List.filterMap_cons, hfind]
      show r.pid :: List.map BgProc.pid _ = p :: rest
      rw [hr, ih (fun x hx => hpids x (List.mem_cons_of_mem p hx))]

theorem pids_keepStopped {j : BgJob} {pids : List Pid} (hlen : pids.length ≤ maxJobProcs)
    (hpids : ∀ p ∈ pids, p ∈ j.pids) : (j.keepStopped pids).pids = pids :=
  (pids_markAll _ true).trans (pids_kept hlen hpids)

theorem keepStopped_survives {j : BgJob} {pids : List Pid} (hne : pids ≠ [])
    (hlen : pids.length ≤ maxJobProcs) (hpids : pids.Sublist j.pids) :
    Survives (j.keepStopped pids) j := by
  have hkept : (j.keepStopped pids).pids = pids := pids_keepStopped hlen hpids.subset
  refine survives_sync (j := j) rfl ?_ ?_
  · show (j.keepStopped pids).pids.Sublist j.pids
    rw [hkept]
    exact hpids
  · intro _ hnil
    have hnone : (j.keepStopped pids).pids = [] := List.map_eq_nil_iff.mpr hnil
    exact hne (hkept.symm.trans hnone)

theorem pids_reap (j : BgJob) (pid : Pid) (status : WaitStatus) :
    (j.reap pid status).pids = j.pids.erase pid := by
  show (j.procs.eraseP _).map BgProc.pid = (j.procs.map BgProc.pid).erase pid
  rw [List.erase_eq_eraseP, List.eraseP_map]
  congr 2
  funext p
  show decide (p.pid = pid) = (pid == p.pid)
  rw [beq_eq_decide]
  exact decide_eq_decide.mpr eq_comm

/-! ### What an operation does to the table -/

theorem Narrows.refl (jobs : List BgJob) : Narrows jobs jobs := by
  induction jobs with
  | nil => exact .nil
  | cons j rest ih => exact .cons (Survives.refl j) ih

section Reap

variable {pid : Pid} {status : WaitStatus} {j : BgJob} {rest : List BgJob}

theorem reapIn_cons_last (hmem : pid ∈ j.pids) (hnil : (j.reap pid status).procs = []) :
    reapIn pid status (j :: rest) = (rest, some (j.reap pid status)) := by
  rw [reapIn, if_pos hmem]
  exact if_pos hnil

theorem reapIn_cons_more (hmem : pid ∈ j.pids) (hnil : (j.reap pid status).procs ≠ []) :
    reapIn pid status (j :: rest) = (syncJobStopped (j.reap pid status) :: rest, none) := by
  rw [reapIn, if_pos hmem]
  exact if_neg hnil

theorem reapIn_cons_other (hmem : pid ∉ j.pids) :
    reapIn pid status (j :: rest) =
      (j :: (reapIn pid status rest).1, (reapIn pid status rest).2) := by
  rw [reapIn, if_neg hmem]

end Reap

theorem reapIn_narrows (pid : Pid) (status : WaitStatus) (jobs : List BgJob) :
    Narrows (reapIn pid status jobs).1 jobs := by
  induction jobs with
  | nil => exact .nil
  | cons j rest ih =>
    by_cases hmem : pid ∈ j.pids
    · by_cases hnil : (j.reap pid status).procs = []
      · rw [reapIn_cons_last hmem hnil]
        exact .cons_right (Narrows.refl rest)
      · rw [reapIn_cons_more hmem hnil]
        refine .cons (survives_sync (j := j) rfl ?_ (fun _ => hnil)) (Narrows.refl rest)
        rw [pids_reap]
        exact List.erase_sublist
    · rw [reapIn_cons_other hmem]
      exact .cons (Survives.refl j) ih

theorem markIn_narrows (pid : Pid) (b : Bool) (jobs : List BgJob) :
    Narrows (markIn pid b jobs) jobs := by
  induction jobs with
  | nil => exact .nil
  | cons j rest ih =>
    rw [markIn]
    split_ifs with hmem
    · refine .cons (survives_sync (j := j) rfl ?_ ?_) (Narrows.refl rest)
      · show ((markFirst pid b j.procs).map BgProc.pid).Sublist j.pids
        rw [pids_markFirst]
        exact List.Sublist.refl _
      · intro hne hnil
        have hmap : j.procs.map BgProc.pid = [] := by
          rw [← pids_markFirst pid b]
          exact congrArg (List.map BgProc.pid) hnil
        exact hne (List.map_eq_nil_iff.mp hmap)
    · exact .cons (Survives.refl j) ih

theorem updateJob_narrows {f : BgJob → BgJob} {jobs : List BgJob}
    (hf : ∀ j, jobs.find? (fun j => j.jobNumber = n) = some j → Survives (f j) j) :
    Narrows (updateJob n f jobs) jobs := by
  induction jobs with
  | nil => exact .nil
  | cons j rest ih =>
    rw [updateJob]
    split_ifs with hnum
    · refine .cons (hf j ?_) (Narrows.refl rest)
      exact List.find?_cons_of_pos (by simpa using hnum)
    · refine .cons (Survives.refl j) (ih (fun k hk => hf k ?_))
      exact (List.find?_cons_of_neg (by simpa using hnum)).trans hk

theorem Narrows.of_sublist {jobs' jobs : List BgJob} (h : jobs'.Sublist jobs) :
    Narrows jobs' jobs := by
  induction h with
  | slnil => exact .nil
  | cons j _ ih => exact .cons_right ih
  | cons_cons j _ ih => exact .cons (Survives.refl j) ih

/-! ### The representation invariant -/

def JobTable.pids (t : JobTable) : List Pid := t.jobs.flatMap BgJob.pids

theorem mem_pids {t : JobTable} {j : BgJob} {p : Pid} (hj : j ∈ t.jobs) (hp : p ∈ j.pids) :
    p ∈ t.pids := List.mem_flatMap.mpr ⟨j, hj, hp⟩

/-- The jobs are numbered in launch order, and each is as it should be. -/
structure Ordered (t : JobTable) : Prop where
  ascending : (t.jobs.map BgJob.jobNumber).Pairwise (· < ·)
  bounded : ∀ j ∈ t.jobs, j.jobNumber ≤ t.nextJobNumber
  jobs : ∀ j ∈ t.jobs, j.Ok

/-- **The representation invariant** of the job table. -/
structure RepInv (t : JobTable) : Prop extends Ordered t where
  count : t.jobs.length ≤ maxBgJobs
  distinct : t.pids.Nodup

theorem Narrows.exists_survives {jobs' jobs : List BgJob} (h : Narrows jobs' jobs) {j' : BgJob}
    (hj' : j' ∈ jobs') : ∃ j ∈ jobs, Survives j' j := by
  induction h with
  | nil => cases hj'
  | @cons a b _ _ hab _ ih =>
    rcases List.mem_cons.mp hj' with rfl | hrest
    · exact ⟨b, List.mem_cons_self, hab⟩
    · obtain ⟨j, hj, hsurv⟩ := ih hrest
      exact ⟨j, List.mem_cons_of_mem b hj, hsurv⟩
  | @cons_right b _ _ _ ih =>
    obtain ⟨j, hj, hsurv⟩ := ih hj'
    exact ⟨j, List.mem_cons_of_mem b hj, hsurv⟩

theorem Narrows.numbers {jobs' jobs : List BgJob} (h : Narrows jobs' jobs) :
    (jobs'.map BgJob.jobNumber).Sublist (jobs.map BgJob.jobNumber) := by
  induction h with
  | nil => exact List.nil_sublist _
  | cons hab _ ih =>
    rw [List.map_cons, List.map_cons, hab.number]
    exact ih.cons_cons _
  | cons_right _ ih =>
    rw [List.map_cons]
    exact ih.cons _

theorem Narrows.pids {jobs' jobs : List BgJob} (h : Narrows jobs' jobs) :
    (jobs'.flatMap BgJob.pids).Sublist (jobs.flatMap BgJob.pids) := by
  induction h with
  | nil => exact List.nil_sublist _
  | cons hab _ ih =>
    rw [List.flatMap_cons, List.flatMap_cons]
    exact hab.pids.append ih
  | cons_right _ ih =>
    rw [List.flatMap_cons]
    exact ih.trans (List.sublist_append_right _ _)

theorem Narrows.ordered {t : JobTable} {jobs' : List BgJob} (h : Narrows jobs' t.jobs)
    (ht : Ordered t) : Ordered { t with jobs := jobs' } := by
  refine ⟨ht.ascending.sublist h.numbers, ?_, ?_⟩
  · intro j' hj'
    obtain ⟨j, hj, hsurv⟩ := h.exists_survives hj'
    rw [hsurv.number]
    exact ht.bounded j hj
  · intro j' hj'
    obtain ⟨j, hj, hsurv⟩ := h.exists_survives hj'
    exact hsurv.ok (ht.jobs j hj)

/-- **Narrowing keeps the invariant.** -/
theorem Narrows.repInv {t : JobTable} {jobs' : List BgJob} (h : Narrows jobs' t.jobs)
    (ht : RepInv t) : RepInv { t with jobs := jobs' } := by
  have hlen : jobs'.length ≤ t.jobs.length := by
    simpa only [List.length_map] using h.numbers.length_le
  exact ⟨h.ordered ht.toOrdered, Nat.le_trans hlen ht.count, ht.distinct.sublist h.pids⟩

/-- The job a registration appends: the next number, and the first 16 stages. -/
structure Registers (t : JobTable) (stages : List (Pid × List Byte)) (t' : JobTable)
    (j : BgJob) : Prop where
  room : t.jobs.length < maxBgJobs
  jobs_eq : t'.jobs = t.jobs ++ [j]
  next_eq : t'.nextJobNumber = t.nextJobNumber + 1
  number : j.jobNumber = t.nextJobNumber + 1
  pids : j.pids = (stages.map Prod.fst).take maxJobProcs
  ok : j.Ok
  fresh : j.leadReaped = false

theorem pids_newProcs (stages : List (Pid × List Byte)) :
    (newProcs stages).map BgProc.pid = stages.map Prod.fst := by
  rw [newProcs, List.map_map]
  rfl

theorem newJob_ok {number : ℕ} {pgid : Pid} {lead : Pid × List Byte}
    {stages : List (Pid × List Byte)} {cmdline : List Byte} (hne : stages ≠ []) :
    (newJob number pgid lead (stages.take maxJobProcs) cmdline).Ok := by
  refine ⟨?_, ?_, ?_⟩
  · intro hnil
    rcases List.take_eq_nil_iff.mp (List.map_eq_nil_iff.mp hnil) with h | h
    · exact absurd h (by decide)
    · exact hne h
  · show (List.map _ (stages.take maxJobProcs)).length ≤ maxJobProcs
    rw [List.length_map, List.length_take]
    exact Nat.min_le_left _ _
  · show false = (newProcs (stages.take maxJobProcs)).any BgProc.stopped
    rw [newProcs, List.any_map]
    exact (List.any_eq_false.mpr (fun _ _ => Bool.false_ne_true)).symm

/-- What a registration leaves: the same table, or one job more, whose processes are
    then watched. -/
def Adds (t : JobTable) (stages : List (Pid × List Byte)) (e : Effect) : Prop :=
  e.table = t ∧ e.calls = [] ∨
  ∃ j, Registers t stages e.table j ∧ stages.head?.map Prod.fst = some j.leadPid ∧
    e.calls = ((stages.map Prod.fst).take maxJobProcs).map WatchCall.watch

/-- What `add_job` does: nothing to the table, or one job more, to which it returns a
    pointer. -/
theorem addJob_cases (t : JobTable) (pgid : Pid) (stages : List (Pid × List Byte))
    (cmdline : List Byte) :
    (∃ e, addJob t pgid stages cmdline = (e, none) ∧ e.table = t ∧ e.calls = []) ∨
    ∃ e j, addJob t pgid stages cmdline = (e, some t.jobs.length) ∧
      Registers t stages e.table j ∧ stages.head?.map Prod.fst = some j.leadPid ∧
      e.calls = ((stages.map Prod.fst).take maxJobProcs).map WatchCall.watch := by
  cases stages with
  | nil => exact .inl ⟨_, rfl, rfl, rfl⟩
  | cons lead more =>
    by_cases hfull : maxBgJobs ≤ t.jobs.length
    · exact .inl ⟨_, if_pos hfull, rfl, rfl⟩
    · refine .inr ⟨_, newJob (t.nextJobNumber + 1) pgid lead
        ((lead :: more).take maxJobProcs) cmdline, if_neg hfull, ?_, rfl, ?_⟩
      · refine ⟨Nat.lt_of_not_le hfull, rfl, rfl, rfl, ?_, newJob_ok (List.cons_ne_nil _ _), rfl⟩
        rw [BgJob.pids, newJob, pids_newProcs, List.map_take]
      · rw [List.map_take, List.map_take, List.map_map]
        rfl

theorem registerBgGroup_adds (t : JobTable) (pgid : Pid) (stages : List (Pid × List Byte))
    (cmdline : List Byte) : Adds t stages (registerBgGroup t pgid stages cmdline) := by
  rcases addJob_cases t pgid stages cmdline with
    ⟨e, hadd, htable, hcalls⟩ | ⟨e, j, hadd, hreg, hlead, hcalls⟩
  · rw [registerBgGroup, hadd]
    exact .inl ⟨htable, hcalls⟩
  · rw [registerBgGroup, hadd]
    exact .inr ⟨j, hreg, hlead, hcalls⟩

theorem registerStoppedJob_adds (t : JobTable) (pgid : Pid) (stages : List (Pid × List Byte))
    (cmdline : List Byte) : Adds t stages (registerStoppedJob t pgid stages cmdline) := by
  rcases addJob_cases t pgid stages cmdline with
    ⟨e, hadd, htable, hcalls⟩ | ⟨e, j, hadd, hreg, hlead, hcalls⟩
  · rw [registerStoppedJob, hadd]
    exact .inl ⟨htable, hcalls⟩
  · rw [registerStoppedJob, hadd]
    refine .inr ⟨j.markAll true, ⟨hreg.room, ?_, hreg.next_eq, hreg.number, ?_, ?_, hreg.fresh⟩,
      hlead, hcalls⟩
    · show e.table.jobs.modify t.jobs.length _ = _
      rw [hreg.jobs_eq, List.modify_eq_take_drop]
      simp
    · rw [pids_markAll]
      exact hreg.pids
    · exact (markAll_survives j true).ok hreg.ok

/-- The table a registration leaves: the same, or one job more. -/
theorem Adds.table {t : JobTable} {stages : List (Pid × List Byte)} {e : Effect}
    (h : Adds t stages e) : e.table = t ∨ ∃ j, Registers t stages e.table j := by
  rcases h with ⟨htable, -⟩ | ⟨j, hreg, -⟩
  · exact .inl htable
  · exact .inr ⟨j, hreg⟩

theorem Registers.mem {t t' : JobTable} {stages : List (Pid × List Byte)} {j : BgJob}
    (h : Registers t stages t' j) {k : BgJob} (hk : k ∈ t'.jobs) : k ∈ t.jobs ∨ k = j := by
  rw [h.jobs_eq, List.mem_append, List.mem_singleton] at hk
  exact hk

theorem Registers.ordered {t t' : JobTable} {stages : List (Pid × List Byte)} {j : BgJob}
    (h : Registers t stages t' j) (ht : Ordered t) : Ordered t' := by
  refine ⟨?_, ?_, ?_⟩
  · rw [h.jobs_eq, List.map_append, List.pairwise_append]
    refine ⟨ht.ascending, List.pairwise_singleton _ _, ?_⟩
    intro a ha b hb
    obtain ⟨k, hk, rfl⟩ := List.mem_map.mp ha
    rw [List.map_singleton, List.mem_singleton] at hb
    rw [hb, h.number]
    exact Nat.lt_succ_of_le (ht.bounded k hk)
  · intro k hk
    rw [h.next_eq]
    rcases h.mem hk with hk | rfl
    · exact Nat.le_succ_of_le (ht.bounded k hk)
    · exact Nat.le_of_eq h.number
  · intro k hk
    rcases h.mem hk with hk | rfl
    · exact ht.jobs k hk
    · exact h.ok

/-- **A registration keeps the invariant** when its pids are new to the table. -/
theorem Registers.repInv {t t' : JobTable} {stages : List (Pid × List Byte)} {j : BgJob}
    (h : Registers t stages t' j) (ht : RepInv t) (hnodup : (stages.map Prod.fst).Nodup)
    (hfresh : ∀ s ∈ stages, s.1 ∉ t.pids) : RepInv t' := by
  refine ⟨h.ordered ht.toOrdered, ?_, ?_⟩
  · rw [h.jobs_eq, List.length_append]
    exact h.room
  · rw [JobTable.pids, h.jobs_eq, List.flatMap_append, List.flatMap_singleton, h.pids]
    refine List.nodup_append.mpr ⟨ht.distinct, hnodup.sublist (List.take_sublist _ _), ?_⟩
    intro a ha b hb hab
    obtain ⟨s, hs, rfl⟩ := List.mem_map.mp (List.mem_of_mem_take hb)
    exact hfresh s hs (hab ▸ ha)

/-! ### Sequences of operations -/

/-- An operation on the table, with what its caller passes. `pingStop` is the call of
    `bg_set_stopped` in `ping`, with all pids of the job, and `resumeFgStop` the one in
    `resume_fg`, with the pids whose wait ended in a stop. -/
inductive TableOp where
  | registerBgGroup (pgid : Pid) (stages : List (Pid × List Byte)) (cmdline : List Byte)
  | registerStoppedJob (pgid : Pid) (stages : List (Pid × List Byte)) (cmdline : List Byte)
  | bgChildExited (pid : Pid) (status : WaitStatus)
  | recordStatus (pid : Pid) (status : WaitStatus)
  | bgSetRunning (jobNumber : ℕ)
  | pingStop (jobNumber : ℕ)
  | resumeFgStop (jobNumber : ℕ) (stopped : Pid → Bool)
  | bgRemoveJob (jobNumber : ℕ)

/-- The pids of a launch as the kernel gives them out: the processes of a pipeline are
    children at the same time, and none of them has the pid of a process still in the
    table. -/
def FreshPids (t : JobTable) (stages : List (Pid × List Byte)) : Prop :=
  (stages.map Prod.fst).Nodup ∧ ∀ s ∈ stages, s.1 ∉ t.pids

instance (t : JobTable) (stages : List (Pid × List Byte)) : Decidable (FreshPids t stages) :=
  inferInstanceAs (Decidable (_ ∧ _))

/-- The pids of the job that a caller of `bg_set_stopped` has read from the table and
    kept. -/
def stoppedPids (t : JobTable) (n : ℕ) (stopped : Pid → Bool) : List Pid :=
  ((findJob t n).map BgJob.pids).getD [] |>.filter stopped

def tableStep (t : JobTable) : TableOp → Option JobTable
  | .registerBgGroup pgid stages cmdline =>
    if FreshPids t stages then some (registerBgGroup t pgid stages cmdline).table else none
  | .registerStoppedJob pgid stages cmdline =>
    if FreshPids t stages then some (registerStoppedJob t pgid stages cmdline).table else none
  | .bgChildExited pid status => some (bgChildExited t pid status).table
  | .recordStatus pid status => some (recordStatus t pid status).table
  | .bgSetRunning n => some (bgSetRunning t n).table
  | .pingStop n => some (bgSetStopped t n (stoppedPids t n (fun _ => true))).table
  | .resumeFgStop n stopped =>
    -- resume_fg calls bg_set_stopped only when sn > 0
    if stoppedPids t n stopped ≠ [] then some (bgSetStopped t n (stoppedPids t n stopped)).table
    else none
  | .bgRemoveJob n => some (bgRemoveJob t n).table

/-- The empty table of `init_bg`. -/
def initTable : JobTable := ⟨[], 0⟩

/-- An observer's log of the launches: the number of each job that a registration
    appends, with the pids it was given, in pipeline order. -/
def logLaunch (t : JobTable) (op : TableOp) (log : List (ℕ × List Pid)) : List (ℕ × List Pid) :=
  match op with
  | .registerBgGroup pgid stages cmdline =>
    log ++ ((registerBgGroup t pgid stages cmdline).table.jobs.drop t.jobs.length).map
      (fun j => (j.jobNumber, stages.map Prod.fst))
  | .registerStoppedJob pgid stages cmdline =>
    log ++ ((registerStoppedJob t pgid stages cmdline).table.jobs.drop t.jobs.length).map
      (fun j => (j.jobNumber, stages.map Prod.fst))
  | _ => log

/-- The invariant together with the log of the launches. -/
structure Tracks (t : JobTable) (log : List (ℕ × List Pid)) : Prop where
  rep : RepInv t
  ascending : (log.map Prod.fst).Pairwise (· < ·)
  bounded : ∀ e ∈ log, e.1 ≤ t.nextJobNumber
  order : ∀ j ∈ t.jobs, ∃ pids, (j.jobNumber, pids) ∈ log ∧ j.pids.Sublist pids

theorem Tracks.narrow {t : JobTable} {log : List (ℕ × List Pid)} {jobs' : List BgJob}
    (h : Tracks t log) (hn : Narrows jobs' t.jobs) : Tracks { t with jobs := jobs' } log := by
  refine ⟨hn.repInv h.rep, h.ascending, h.bounded, ?_⟩
  intro j' hj'
  obtain ⟨j, hj, hsurv⟩ := hn.exists_survives hj'
  obtain ⟨pids, hlog, hpids⟩ := h.order j hj
  rw [hsurv.number]
  exact ⟨pids, hlog, hsurv.pids.trans hpids⟩

theorem Tracks.register {t t' : JobTable} {log : List (ℕ × List Pid)}
    {stages : List (Pid × List Byte)} (h : Tracks t log) (hfresh : FreshPids t stages)
    (hreg : t' = t ∨ ∃ j, Registers t stages t' j) :
    Tracks t' (log ++ (t'.jobs.drop t.jobs.length).map
      (fun j => (j.jobNumber, stages.map Prod.fst))) := by
  rcases hreg with rfl | ⟨j, hreg⟩
  · rw [List.drop_length, List.map_nil, List.append_nil]
    exact h
  · have hnew : t'.jobs.drop t.jobs.length = [j] := by
      rw [hreg.jobs_eq, List.drop_left]
    rw [hnew, List.map_singleton, hreg.number]
    refine ⟨hreg.repInv h.rep hfresh.1 hfresh.2, ?_, ?_, ?_⟩
    · rw [List.map_append, List.pairwise_append]
      refine ⟨h.ascending, List.pairwise_singleton _ _, ?_⟩
      intro a ha b hb
      obtain ⟨e, he, rfl⟩ := List.mem_map.mp ha
      rw [List.map_singleton, List.mem_singleton] at hb
      rw [hb]
      exact Nat.lt_succ_of_le (h.bounded e he)
    · intro e he
      rw [hreg.next_eq]
      rcases List.mem_append.mp he with he | he
      · exact Nat.le_succ_of_le (h.bounded e he)
      · cases List.mem_singleton.mp he
        exact Nat.le_refl _
    · intro k hk
      rw [hreg.jobs_eq, List.mem_append, List.mem_singleton] at hk
      rcases hk with hk | rfl
      · obtain ⟨pids, hlog, hpids⟩ := h.order k hk
        exact ⟨pids, List.mem_append_left _ hlog, hpids⟩
      · refine ⟨stages.map Prod.fst, ?_, ?_⟩
        · rw [hreg.number]
          exact List.mem_append_right _ (List.mem_singleton.mpr rfl)
        · rw [hreg.pids]
          exact List.take_sublist _ _

theorem recordStatus_narrows (t : JobTable) (pid : Pid) (status : WaitStatus) :
    ∃ jobs', (recordStatus t pid status).table = { t with jobs := jobs' } ∧
      Narrows jobs' t.jobs := by
  rw [recordStatus]
  split_ifs
  · exact ⟨_, rfl, reapIn_narrows pid status t.jobs⟩
  · exact ⟨_, rfl, markIn_narrows pid status.wifstopped t.jobs⟩

theorem bgSetStopped_narrows {t : JobTable} {pids : List Pid} (hpids : ∀ j, findJob t n = some j →
      pids ≠ [] ∧ pids.length ≤ maxJobProcs ∧ pids.Sublist j.pids) :
    ∃ jobs', (bgSetStopped t n pids).table = { t with jobs := jobs' } ∧ Narrows jobs' t.jobs := by
  refine ⟨_, rfl, updateJob_narrows ?_⟩
  intro j hj
  obtain ⟨hne, hlen, hsub⟩ := hpids j hj
  exact keepStopped_survives hne hlen hsub

theorem mem_of_findJob {t : JobTable} {j : BgJob} (h : findJob t n = some j) :
    j ∈ t.jobs := List.mem_of_find?_eq_some h

theorem number_of_findJob {t : JobTable} {j : BgJob} (h : findJob t n = some j) :
    j.jobNumber = n := by
  simpa using List.find?_some h

theorem stoppedPids_all {t : JobTable} {j : BgJob} (hj : findJob t n = some j) :
    stoppedPids t n (fun _ => true) = j.pids := by
  rw [stoppedPids, hj]
  exact List.filter_true _

/-- What a caller of `bg_set_stopped` passes is a part of its job, in order. -/
theorem stoppedPids_spec {t : JobTable} (ht : RepInv t) {j : BgJob} (hj : findJob t n = some j)
    (stopped : Pid → Bool) :
    stoppedPids t n stopped = j.pids.filter stopped ∧
      (j.pids.filter stopped).length ≤ maxJobProcs := by
  refine ⟨by rw [stoppedPids, hj]; rfl, ?_⟩
  exact Nat.le_trans (List.length_filter_le _ _) (ht.jobs j (mem_of_findJob hj)).length_pids_le

/-- **What an operation can do**: it registers a job that the log then has, or it narrows
    the table and the log stays. -/
theorem tableStep_cases {t t' : JobTable} {op : TableOp} (ht : RepInv t)
    (hstep : tableStep t op = some t') :
    (∃ stages, FreshPids t stages ∧ (t' = t ∨ ∃ j, Registers t stages t' j) ∧
      ∀ log, logLaunch t op log = log ++ (t'.jobs.drop t.jobs.length).map
        (fun j => (j.jobNumber, stages.map Prod.fst))) ∨
    ∃ jobs', t' = { t with jobs := jobs' } ∧ Narrows jobs' t.jobs ∧
      ∀ log, logLaunch t op log = log := by
  cases op with
  | registerBgGroup pgid stages cmdline =>
    rw [tableStep] at hstep
    split_ifs at hstep with hfresh
    cases hstep
    exact .inl ⟨stages, hfresh, (registerBgGroup_adds t pgid stages cmdline).table,
      fun _ => rfl⟩
  | registerStoppedJob pgid stages cmdline =>
    rw [tableStep] at hstep
    split_ifs at hstep with hfresh
    cases hstep
    exact .inl ⟨stages, hfresh, (registerStoppedJob_adds t pgid stages cmdline).table,
      fun _ => rfl⟩
  | bgChildExited pid status =>
    cases hstep
    exact .inr ⟨_, rfl, reapIn_narrows pid status t.jobs, fun _ => rfl⟩
  | recordStatus pid status =>
    cases hstep
    obtain ⟨jobs', heq, hn⟩ := recordStatus_narrows t pid status
    exact .inr ⟨jobs', heq, hn, fun _ => rfl⟩
  | bgSetRunning n =>
    cases hstep
    exact .inr ⟨_, rfl, updateJob_narrows (fun j _ => markAll_survives j false), fun _ => rfl⟩
  | pingStop n =>
    cases hstep
    have hall : ∀ j, findJob t n = some j →
        stoppedPids t n (fun _ => true) ≠ [] ∧
          (stoppedPids t n (fun _ => true)).length ≤ maxJobProcs ∧
          (stoppedPids t n (fun _ => true)).Sublist j.pids := by
      intro j hj
      obtain ⟨heq, hlen⟩ := stoppedPids_spec ht hj (fun _ => true)
      rw [heq]
      refine ⟨?_, hlen, List.filter_sublist⟩
      rw [List.filter_true]
      exact (ht.jobs j (mem_of_findJob hj)).pids_ne_nil
    obtain ⟨jobs', heq, hn⟩ := bgSetStopped_narrows hall
    exact .inr ⟨jobs', heq, hn, fun _ => rfl⟩
  | resumeFgStop n stopped =>
    rw [tableStep] at hstep
    split_ifs at hstep with hne
    cases hstep
    have hpart : ∀ j, findJob t n = some j → stoppedPids t n stopped ≠ [] ∧
        (stoppedPids t n stopped).length ≤ maxJobProcs ∧
          (stoppedPids t n stopped).Sublist j.pids := by
      intro j hj
      obtain ⟨heq, hlen⟩ := stoppedPids_spec ht hj stopped
      exact ⟨hne, heq ▸ hlen, heq ▸ List.filter_sublist⟩
    obtain ⟨jobs', heq, hn⟩ := bgSetStopped_narrows hpart
    exact .inr ⟨jobs', heq, hn, fun _ => rfl⟩
  | bgRemoveJob n =>
    cases hstep
    exact .inr ⟨_, rfl, Narrows.of_sublist List.eraseP_sublist, fun _ => rfl⟩

/-- **Step lemma**: an operation keeps the invariant and the log. -/
theorem Tracks.step {t t' : JobTable} {log : List (ℕ × List Pid)} {op : TableOp}
    (h : Tracks t log) (hstep : tableStep t op = some t') : Tracks t' (logLaunch t op log) := by
  rcases tableStep_cases h.rep hstep with ⟨stages, hfresh, hreg, hlog⟩ | ⟨jobs', rfl, hn, hlog⟩
  · rw [hlog]
    exact h.register hfresh hreg
  · rw [hlog]
    exact h.narrow hn

theorem ordered_init : Ordered initTable := by
  refine ⟨?_, ?_, ?_⟩ <;> simp [initTable]

theorem tracks_init : Tracks initTable [] := by
  refine ⟨⟨ordered_init, ?_, ?_⟩, ?_, ?_, ?_⟩ <;> simp [initTable, JobTable.pids]

/-- **Run lemma**: the invariant and the log hold after every sequence of operations. -/
theorem tracks_exec {ops : List TableOp} {t : JobTable}
    (h : exec tableStep initTable ops = some t) :
    Tracks t (observe tableStep logLaunch initTable [] ops) := by
  have hok : Guarded tableStep (fun _ _ => True) initTable ops :=
    guarded_of_forall (fun _ _ => trivial) initTable ops
  have hstep : ∀ t log op t', Tracks t log → True → tableStep t op = some t' →
      Tracks t' (logLaunch t op log) := fun _ _ _ _ hI _ hs => hI.step hs
  exact observe_invariant hstep tracks_init hok h

/-- **The job table keeps its representation invariant.** After every sequence of
    operations the table holds at most 256 jobs; their numbers increase with the index
    and are at most `next_job_number`; no two launches of the whole sequence got the
    same number; every job has between 1 and 16 processes; no pid occurs twice; the
    processes of a job are in the order of the pipeline it was launched with; and its
    flag says whether one of them is stopped. -/
theorem job_table_invariant {ops : List TableOp} {t : JobTable}
    (h : exec tableStep initTable ops = some t) :
    t.jobs.length ≤ 256 ∧
    (t.jobs.map BgJob.jobNumber).Pairwise (· < ·) ∧
    (∀ j ∈ t.jobs, j.jobNumber ≤ t.nextJobNumber) ∧
    ((observe tableStep logLaunch initTable [] ops).map Prod.fst).Pairwise (· < ·) ∧
    (∀ j ∈ t.jobs, 1 ≤ j.procs.length ∧ j.procs.length ≤ 16) ∧
    (t.jobs.flatMap (fun j => j.procs.map BgProc.pid)).Nodup ∧
    (∀ j ∈ t.jobs, ∃ pids, (j.jobNumber, pids) ∈ observe tableStep logLaunch initTable [] ops ∧
      (j.procs.map BgProc.pid).Sublist pids) ∧
    ∀ j ∈ t.jobs, j.stopped = true ↔ ∃ p ∈ j.procs, p.stopped = true := by
  obtain ⟨hrep, hascending, -, horder⟩ := tracks_exec h
  refine ⟨hrep.count, hrep.ascending, hrep.bounded, hascending, ?_, hrep.distinct, horder, ?_⟩
  · intro j hj
    exact ⟨List.length_pos_iff.mpr (hrep.jobs j hj).nonempty, (hrep.jobs j hj).le_max⟩
  · intro j hj
    rw [(hrep.jobs j hj).synced, List.any_eq_true]

/-- Two launches, a process that exits, a stop and its continuation in the foreground. -/
theorem job_table_invariant_two_jobs :
    ∃ ops, ∃ t ∈ exec tableStep initTable ops, t.jobs.length = 2 ∧ RepInv t ∧
      (t.jobs.map BgJob.jobNumber).Pairwise (· < ·) := by
  have hrun : ∃ t ∈ exec tableStep initTable
      [.registerBgGroup 7 [(7, []), (8, []), (9, [])] [], .registerStoppedJob 10 [(10, [])] [],
        .recordStatus 8 (.exited 0), .pingStop 1, .bgSetRunning 1,
        .resumeFgStop 1 (fun p => p = 9), .bgChildExited 10 (.signaled 2),
        .registerBgGroup 8 [(8, [])] []], t.jobs.length = 2 := by
    decide +kernel
  obtain ⟨t, ht, hlen⟩ := hrun
  have hexec := Option.mem_def.mp ht
  obtain ⟨-, hascending, -⟩ := job_table_invariant hexec
  exact ⟨_, t, ht, hlen, (tracks_exec hexec).rep, hascending⟩

end MiniOs.Shell

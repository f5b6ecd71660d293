import MiniOs.Lib.Backlog
import MiniOs.Shell.Actions

/-!
# What the job table is still owed

The bookkeeping behind the completion lines. A job in the table has a claim on the end
of each of its processes: by pid, since that is all `bg_child_exited` compares. The
statuses that have been collected and not applied are the queue that serves these
claims. Pids come back, so the process a status belongs to need not be the one that was
meant; `Covered` says that no claim is passed over all the same.

`Inv` collects what holds in every reachable state: about the kernel's children, the
table, the lines printed so far, the claims, and the point the program is at.
-/

namespace MiniOs.Shell

open Backlog Trace

variable {f : BgJob → BgJob} {j : BgJob} {jobs : List BgJob} {n : ℕ} {p : Pid}
  {status : WaitStatus} {t : JobTable} {w : World}

/-! ### Completion lines -/

def Line.completes (n : ℕ) : Line → Bool
  | completed m _ _ _ => m = n
  | _ => false

/-- The number of completion lines of the job `n`. -/
def completions (n : ℕ) (out : List Line) : ℕ := out.countP (Line.completes n)

theorem completions_append (n : ℕ) (out lines : List Line) :
    completions n (out ++ lines) = completions n out + completions n lines := List.countP_append

/-- Reaping with terminating statuses gives a job exactly one line. -/
theorem completions_completion (hlast : j.lastStatus.terminal = true)
    (hlead : j.leadReaped = true → j.leadStatus.terminal = true) (n : ℕ) :
    completions n j.completion = if j.jobNumber = n then 1 else 0 := by
  have hst : (if j.leadReaped then j.leadStatus else j.lastStatus).terminal = true := by
    split_ifs with h
    · exact hlead h
    · exact hlast
  have hline : ∃ b, j.completion = [.completed j.jobNumber j.leadName j.leadPid b] := by
    by_cases hexit : (if j.leadReaped then j.leadStatus else j.lastStatus).wifexited = true
    · exact ⟨true, if_pos hexit⟩
    · have hsig := (WaitStatus.terminal_iff.mp hst).resolve_left hexit
      exact ⟨false, (if_neg hexit).trans (if_pos hsig)⟩
  obtain ⟨b, hb⟩ := hline
  rw [hb, completions, List.countP_singleton]
  show (if decide (j.jobNumber = n) = true then 1 else 0) = _
  simp only [decide_eq_true_eq]

/-! ### The claims of the jobs -/

/-- The claims of jobs that hold the processes `held`. -/
def jobClaims (regs : ℕ → List (Pid × ℕ)) (held : BgJob → List Pid) (jobs : List BgJob) :
    List (Pid × (ℕ → Prop)) :=
  jobs.flatMap (fun j => (held j).map (fun p => (p, fun u => (p, u) ∈ regs j.jobNumber)))

theorem jobClaims_append (regs : ℕ → List (Pid × ℕ)) (held : BgJob → List Pid)
    (l₁ l₂ : List BgJob) :
    jobClaims regs held (l₁ ++ l₂) = jobClaims regs held l₁ ++ jobClaims regs held l₂ :=
  List.flatMap_append

theorem jobClaims_cons (regs : ℕ → List (Pid × ℕ)) (held : BgJob → List Pid) (j : BgJob)
    (l : List BgJob) :
    jobClaims regs held (j :: l) =
      (held j).map (fun p => (p, fun u => (p, u) ∈ regs j.jobNumber)) ++ jobClaims regs held l :=
  rfl

theorem jobClaims_congr {regs regs' : ℕ → List (Pid × ℕ)} {held held' : BgJob → List Pid}
    (hregs : ∀ j ∈ jobs, regs j.jobNumber = regs' j.jobNumber)
    (hheld : ∀ j ∈ jobs, held j = held' j) :
    jobClaims regs held jobs = jobClaims regs' held' jobs := by
  induction jobs with
  | nil => rfl
  | cons j rest ih =>
    rw [jobClaims_cons, jobClaims_cons, hregs j List.mem_cons_self, hheld j List.mem_cons_self,
      ih (fun k hk => hregs k (List.mem_cons_of_mem j hk))
        (fun k hk => hheld k (List.mem_cons_of_mem j hk))]

theorem mem_jobClaims {regs : ℕ → List (Pid × ℕ)} {held : BgJob → List Pid} (hj : j ∈ jobs)
    (hp : p ∈ held j) :
    (p, fun u => (p, u) ∈ regs j.jobNumber) ∈ jobClaims regs held jobs :=
  List.mem_flatMap.mpr ⟨j, hj, List.mem_map.mpr ⟨p, hp, rfl⟩⟩

/-- Where `bg_child_exited` finds the process, and what it leaves. -/
theorem reapIn_spec (pid : Pid) (status : WaitStatus) (jobs : List BgJob) :
    (∀ j ∈ jobs, pid ∉ j.pids) ∧ reapIn pid status jobs = (jobs, none) ∨
    ∃ l₁ j l₂, jobs = l₁ ++ j :: l₂ ∧ (∀ k ∈ l₁, pid ∉ k.pids) ∧ pid ∈ j.pids ∧
      ((j.reap pid status).procs = [] ∧
          reapIn pid status jobs = (l₁ ++ l₂, some (j.reap pid status)) ∨
        reapIn pid status jobs = (l₁ ++ syncJobStopped (j.reap pid status) :: l₂, none)) := by
  induction jobs with
  | nil => exact .inl ⟨(fun _ hj => nomatch hj), rfl⟩
  | cons j rest ih =>
    by_cases hmem : pid ∈ j.pids
    · refine .inr ⟨[], j, rest, rfl, (fun _ hk => nomatch hk), hmem, ?_⟩
      by_cases hnil : (j.reap pid status).procs = []
      · exact .inl ⟨hnil, reapIn_cons_last hmem hnil⟩
      · exact .inr (reapIn_cons_more hmem hnil)
    · rw [reapIn_cons_other hmem]
      rcases ih with ⟨hnone, heq⟩ | ⟨l₁, k, l₂, rfl, hl₁, hk, hcase⟩
      · refine .inl ⟨?_, by rw [heq]⟩
        intro k hk
        rcases List.mem_cons.mp hk with rfl | hk
        · exact hmem
        · exact hnone k hk
      · refine .inr ⟨j :: l₁, k, l₂, rfl, ?_, hk, ?_⟩
        · intro i hi
          rcases List.mem_cons.mp hi with rfl | hi
          · exact hmem
          · exact hl₁ i hi
        · rcases hcase with ⟨hnil, heq⟩ | heq
          · exact .inl ⟨hnil, by rw [heq]; rfl⟩
          · exact .inr (by rw [heq]; rfl)

/-- The claims of a job after one of its processes has been taken off. -/
private theorem eraseP_map_claims (regs : List (Pid × ℕ)) (pid : Pid) (l : List Pid) :
    (l.map (fun p => (p, fun u => (p, u) ∈ regs))).eraseP (·.1 = pid) =
      (l.erase pid).map (fun p => (p, fun u => (p, u) ∈ regs)) := by
  rw [List.eraseP_map, List.erase_eq_eraseP]
  congr 2
  funext p
  show decide (p = pid) = (pid == p)
  rw [beq_eq_decide]
  exact decide_eq_decide.mpr eq_comm

/-- `bg_child_exited` takes away the first claim with its pid. -/
theorem jobClaims_reapIn (regs : ℕ → List (Pid × ℕ)) (pid : Pid) (status : WaitStatus)
    (jobs : List BgJob) :
    jobClaims regs BgJob.pids (reapIn pid status jobs).1 =
      (jobClaims regs BgJob.pids jobs).eraseP (·.1 = pid) := by
  induction jobs with
  | nil => rfl
  | cons j rest ih =>
    rw [jobClaims_cons]
    by_cases hmem : pid ∈ j.pids
    · -- the claim taken away is one of this job's
      rw [List.eraseP_append_left (a := (pid, fun u => (pid, u) ∈ regs j.jobNumber)) (by simp) _
        (List.mem_map.mpr ⟨pid, hmem, rfl⟩), eraseP_map_claims, ← pids_reap j pid status]
      by_cases hnil : (j.reap pid status).procs = []
      · rw [reapIn_cons_last hmem hnil, BgJob.pids, hnil]
        rfl
      · rw [reapIn_cons_more hmem hnil]
        rfl
    · rw [reapIn_cons_other hmem, jobClaims_cons, ih, List.eraseP_append_right]
      intro c hc
      obtain ⟨p, hp, rfl⟩ := List.mem_map.mp hc
      exact fun heq => hmem (of_decide_eq_true heq ▸ hp)

theorem numbers_updateJob (hf : ∀ j, (f j).jobNumber = j.jobNumber) (jobs : List BgJob) :
    (updateJob n f jobs).map BgJob.jobNumber = jobs.map BgJob.jobNumber := by
  induction jobs with
  | nil => rfl
  | cons j rest ih =>
    rw [updateJob]
    split_ifs
    · rw [List.map_cons, List.map_cons, hf]
    · rw [List.map_cons, List.map_cons, ih]

/-- A change that leaves a job the processes it held keeps the claims. -/
theorem jobClaims_updateJob {regs : ℕ → List (Pid × ℕ)} {held : BgJob → List Pid}
    (hnd : (jobs.map BgJob.jobNumber).Nodup) (hnum : ∀ j, (f j).jobNumber = j.jobNumber)
    (hf : ∀ j, jobs.find? (fun j => j.jobNumber = n) = some j → (f j).pids = held j)
    (hother : ∀ j, j.jobNumber ≠ n → held j = j.pids) :
    jobClaims regs BgJob.pids (updateJob n f jobs) = jobClaims regs held jobs := by
  induction jobs with
  | nil => rfl
  | cons j rest ih =>
    obtain ⟨hj, hnd⟩ := List.nodup_cons.mp hnd
    rw [updateJob]
    split_ifs with hn
    · have hfind : (j :: rest).find? (fun j => j.jobNumber = n) = some j :=
        List.find?_cons_of_pos (by simpa using hn)
      have hrest : jobClaims regs BgJob.pids rest = jobClaims regs held rest := by
        refine jobClaims_congr (fun _ _ => rfl) (fun k hk => (hother k ?_).symm)
        intro hk'
        exact hj (hn ▸ hk' ▸ List.mem_map_of_mem hk)
      rw [jobClaims_cons, jobClaims_cons, hf j hfind, hnum, hrest]
    · rw [jobClaims_cons, jobClaims_cons, hother j hn, ih hnd (fun k hk => hf k ?_)]
      exact (List.find?_cons_of_neg (by simpa using hn)).trans hk

theorem numbers_markIn (pid : Pid) (b : Bool) (jobs : List BgJob) :
    (markIn pid b jobs).map BgJob.jobNumber = jobs.map BgJob.jobNumber := by
  induction jobs with
  | nil => rfl
  | cons j rest ih =>
    rw [markIn]
    split_ifs
    · rfl
    · rw [List.map_cons, List.map_cons, ih]

theorem jobClaims_markIn (regs : ℕ → List (Pid × ℕ)) (pid : Pid) (b : Bool) (jobs : List BgJob) :
    jobClaims regs BgJob.pids (markIn pid b jobs) = jobClaims regs BgJob.pids jobs := by
  induction jobs with
  | nil => rfl
  | cons j rest ih =>
    rw [markIn]
    split_ifs
    · rw [jobClaims_cons, jobClaims_cons]
      show ((markFirst pid b j.procs).map BgProc.pid).map _ ++ _ = _
      rw [pids_markFirst]
      rfl
    · rw [jobClaims_cons, jobClaims_cons, ih]

/-! ### The table -/

/-- What holds of the table whatever the pids are. -/
structure TableOk (t : JobTable) : Prop extends Ordered t where
  lead : ∀ j ∈ t.jobs, j.leadReaped = true → j.leadStatus.terminal = true

theorem TableOk.nodup (h : TableOk t) : (t.jobs.map BgJob.jobNumber).Nodup :=
  h.ascending.imp (fun hlt => Nat.ne_of_lt hlt)

theorem TableOk.narrow {jobs' : List BgJob} (h : TableOk t) (hn : Narrows jobs' t.jobs)
    (hlead : ∀ j ∈ jobs', j.leadReaped = true → j.leadStatus.terminal = true) :
    TableOk { t with jobs := jobs' } := ⟨hn.ordered h.toOrdered, hlead⟩

/-- An operation on one job leaves the others as they are. -/
theorem mem_updateJob (hnd : (jobs.map BgJob.jobNumber).Nodup) {k : BgJob}
    (h : k ∈ updateJob n f jobs) :
    k ∈ jobs ∧ k.jobNumber ≠ n ∨
      ∃ j, jobs.find? (fun j => j.jobNumber = n) = some j ∧ k = f j := by
  induction jobs with
  | nil => cases h
  | cons j rest ih =>
    rw [List.map_cons, List.nodup_cons] at hnd
    rw [updateJob] at h
    split_ifs at h with hn
    · rcases List.mem_cons.mp h with rfl | h
      · exact .inr ⟨j, List.find?_cons_of_pos (decide_eq_true hn), rfl⟩
      · refine .inl ⟨List.mem_cons_of_mem j h, fun hk => hnd.1 ?_⟩
        rw [hn, ← hk]
        exact List.mem_map_of_mem h
    · rcases List.mem_cons.mp h with rfl | h
      · exact .inl ⟨List.mem_cons_self, hn⟩
      · rcases ih hnd.2 h with ⟨hmem, hne⟩ | ⟨i, hi, rfl⟩
        · exact .inl ⟨List.mem_cons_of_mem j hmem, hne⟩
        · exact .inr ⟨i, (List.find?_cons_of_neg (by simpa using hn)).trans hi, rfl⟩

/-- `j'` differs from `j` in nothing but the flags of its processes. -/
structure SameProcs (j' j : BgJob) : Prop where
  number : j'.jobNumber = j.jobNumber
  leadPid : j'.leadPid = j.leadPid
  leadStatus : j'.leadStatus = j.leadStatus
  leadReaped : j'.leadReaped = j.leadReaped
  pids : j'.pids = j.pids

theorem SameProcs.refl (j : BgJob) : SameProcs j j := ⟨rfl, rfl, rfl, rfl, rfl⟩

theorem markAll_same (j : BgJob) (b : Bool) : SameProcs (j.markAll b) j :=
  ⟨rfl, rfl, rfl, rfl, pids_markAll j b⟩

theorem mem_markIn {pid : Pid} {b : Bool} {j' : BgJob} (h : j' ∈ markIn pid b jobs) :
    ∃ j ∈ jobs, SameProcs j' j := by
  induction jobs with
  | nil => cases h
  | cons j rest ih =>
    rw [markIn] at h
    split_ifs at h
    · rcases List.mem_cons.mp h with rfl | h
      · exact ⟨j, List.mem_cons_self, rfl, rfl, rfl, rfl, pids_markFirst pid b j.procs⟩
      · exact ⟨j', List.mem_cons_of_mem j h, .refl j'⟩
    · rcases List.mem_cons.mp h with rfl | h
      · exact ⟨j', List.mem_cons_self, .refl j'⟩
      · obtain ⟨k, hk, hsame⟩ := ih h
        exact ⟨k, List.mem_cons_of_mem j hk, hsame⟩

theorem lead_reap (hj : j.leadReaped = true → j.leadStatus.terminal = true) {pid : Pid}
    (hst : status.terminal = true) :
    (j.reap pid status).leadReaped = true → (j.reap pid status).leadStatus.terminal = true := by
  intro h
  show (if pid = j.leadPid then status else j.leadStatus).terminal = true
  change (if pid = j.leadPid then true else j.leadReaped) = true at h
  split_ifs at h ⊢
  · exact hst
  · exact hj h

theorem TableOk.childExited (h : TableOk t) (pid : Pid) (hst : status.terminal = true) :
    TableOk (bgChildExited t pid status).table := by
  refine h.narrow (reapIn_narrows pid status t.jobs) ?_
  intro j' hj'
  rcases reapIn_spec pid status t.jobs with ⟨-, heq⟩ | ⟨l₁, j, l₂, hjobs, -, -, ⟨-, heq⟩ | heq⟩
  · rw [heq] at hj'
    exact h.lead j' hj'
  · have hsub : (l₁ ++ l₂).Sublist t.jobs := by
      rw [hjobs]
      exact (List.sublist_cons_self j l₂).append_left l₁
    rw [heq] at hj'
    exact h.lead j' (hsub.subset hj')
  · rw [heq] at hj'
    have hmem : ∀ k, k ∈ l₁ ∨ k = j ∨ k ∈ l₂ → k ∈ t.jobs := by
      intro k hk
      rw [hjobs, List.mem_append, List.mem_cons]
      exact hk
    rcases List.mem_append.mp hj' with hj' | hj'
    · exact h.lead j' (hmem j' (.inl hj'))
    · rcases List.mem_cons.mp hj' with rfl | hj'
      · exact lead_reap (h.lead j (hmem j (.inr (.inl rfl)))) hst
      · exact h.lead j' (hmem j' (.inr (.inr hj')))

theorem TableOk.recordStatus (h : TableOk t) (pid : Pid) (status : WaitStatus) :
    TableOk (recordStatus t pid status).table := by
  rw [Shell.recordStatus]
  split_ifs with hst
  · exact h.childExited pid hst
  · refine h.narrow (markIn_narrows pid _ t.jobs) ?_
    intro j' hj'
    obtain ⟨j, hj, hsame⟩ := mem_markIn hj'
    rw [hsame.leadReaped, hsame.leadStatus]
    exact h.lead j hj

theorem TableOk.update (h : TableOk t) (hf : ∀ j, findJob t n = some j → Survives (f j) j)
    (hlead : ∀ j, (f j).leadReaped = j.leadReaped ∧ (f j).leadStatus = j.leadStatus) :
    TableOk { t with jobs := updateJob n f t.jobs } := by
  refine h.narrow (updateJob_narrows hf) ?_
  intro j' hj'
  rcases mem_updateJob h.nodup hj' with ⟨hj, -⟩ | ⟨j, hj, rfl⟩
  · exact h.lead j' hj
  · rw [(hlead j).1, (hlead j).2]
    exact h.lead j (mem_of_findJob hj)

theorem TableOk.remove (h : TableOk t) (n : ℕ) :
    TableOk (bgRemoveJob t n).table :=
  h.narrow (Narrows.of_sublist List.eraseP_sublist)
    (fun j hj => h.lead j (List.mem_of_mem_eraseP hj))

/-- The job that `find_mutable` finds is the only one with its number. -/
theorem findJob_split (ht : TableOk t) (hj : findJob t n = some j) :
    j.jobNumber = n ∧ ∃ l₁ l₂, t.jobs = l₁ ++ j :: l₂ ∧ (bgRemoveJob t n).table.jobs = l₁ ++ l₂ ∧
      ∀ k ∈ l₁ ++ l₂, k.jobNumber ≠ n := by
  obtain ⟨hn, l₁, l₂, hjobs, hl₁⟩ := List.find?_eq_some_iff_append.mp hj
  have hn : j.jobNumber = n := of_decide_eq_true hn
  have hl₁ : ∀ k ∈ l₁, k.jobNumber ≠ n := by simpa using hl₁
  refine ⟨hn, l₁, l₂, hjobs, ?_, ?_⟩
  · show t.jobs.eraseP _ = _
    rw [hjobs, List.eraseP_append_right _ (by simpa using hl₁),
      List.eraseP_cons_of_pos (by simpa using hn)]
  · have hnd := ht.nodup
    rw [hjobs, List.map_append, List.map_cons] at hnd
    have hnotmem := (List.nodup_middle.mp hnd).notMem
    rw [← List.map_append] at hnotmem
    rintro k hk rfl
    exact hnotmem (hn ▸ List.mem_map_of_mem hk)

theorem findJob_updateJob (hnum : ∀ j, (f j).jobNumber = j.jobNumber) (hj : findJob t n = some j) :
    findJob { t with jobs := updateJob n f t.jobs } n = some (f j) := by
  rw [findJob] at hj ⊢
  show (updateJob n f t.jobs).find? _ = _
  generalize t.jobs = jobs at hj ⊢
  induction jobs with
  | nil => cases hj
  | cons k rest ih =>
    rw [updateJob]
    split_ifs with hk
    · rw [List.find?_cons_of_pos (by simpa using hk)] at hj
      cases hj
      exact List.find?_cons_of_pos (by simpa [hnum] using hk)
    · rw [List.find?_cons_of_neg (by simpa using hk)] at hj
      rw [List.find?_cons_of_neg (by simpa using hk)]
      exact ih hj

theorem TableOk.register {t' : JobTable} {stages : List (Pid × List Byte)} (h : TableOk t)
    (hreg : Registers t stages t' j) : TableOk t' := by
  refine ⟨hreg.ordered h.toOrdered, ?_⟩
  intro k hk hreaped
  rcases hreg.mem hk with hk | rfl
  · exact h.lead k hk hreaped
  · rw [hreg.fresh] at hreaped
    cases hreaped

/-! ### The children -/

def World.ids (w : World) : List (Pid × ℕ × Bool) := w.children.map Child.id

/-- Uncollected children have different pids and different identities, which no one has
    collected. -/
structure KernelOk (ids : List (Pid × ℕ × Bool)) (nextUid : ℕ)
    (collector : ℕ → Option Collector) : Prop where
  pids : (ids.map Prod.fst).Nodup
  uids : (ids.map (fun i => i.2.1)).Nodup
  born : ∀ i ∈ ids, i.2.1 < nextUid
  uncollected : ∀ i ∈ ids, collector i.2.1 = none
  unborn : ∀ u, nextUid ≤ u → collector u = none

/-- The process `u` with pid `p` can still end, or did and a command collected its
    status itself: in both cases no one is owed its line yet. -/
def Open (ids : List (Pid × ℕ × Bool)) (collector : ℕ → Option Collector) (p : Pid) (u : ℕ) :
    Prop := (∃ stage, (p, u, stage) ∈ ids) ∨ collector u = some .own

/-- The number of stages with pid `p` that can still end. -/
def slack (ids : List (Pid × ℕ × Bool)) (p : Pid) : ℕ :=
  (ids.any (fun i => i.1 = p && i.2.2)).toNat

theorem slack_le_one (ids : List (Pid × ℕ × Bool)) (p : Pid) : slack ids p ≤ 1 :=
  Bool.toNat_le _

theorem slack_filter {ids : List (Pid × ℕ × Bool)} {q : Pid} (h : p ≠ q) :
    slack (ids.filter (·.1 ≠ q)) p = slack ids p := by
  rw [slack, slack, List.any_filter]
  congr 2
  funext i
  by_cases hi : i.1 = p
  · simp [hi, h]
  · simp [hi]

theorem slack_append (ids : List (Pid × ℕ × Bool)) (q : Pid) (u : ℕ) (stage : Bool) (p : Pid) :
    slack (ids ++ [(q, u, stage)]) p =
      (ids.any (fun i => i.1 = p && i.2.2) || (decide (q = p) && stage)).toNat := by
  rw [slack, List.any_append, List.any_cons, List.any_nil, Bool.or_false]

theorem slack_eq_zero {ids : List (Pid × ℕ × Bool)} (h : ∀ i ∈ ids, i.1 = p → i.2.2 = false) :
    slack ids p = 0 := by
  have hany : ids.any (fun i => i.1 = p && i.2.2) = false := by
    rw [List.any_eq_false]
    intro i hi hboth
    rw [Bool.and_eq_true, decide_eq_true_eq] at hboth
    exact Bool.false_ne_true ((h i hi hboth.1).symm.trans hboth.2)
  rw [slack, hany]
  rfl

theorem slack_of_notMem {ids : List (Pid × ℕ × Bool)} (h : p ∉ ids.map Prod.fst) :
    slack ids p = 0 :=
  slack_eq_zero (fun _ hi hp => absurd (hp ▸ List.mem_map_of_mem hi) h)

section Collect

variable {ids : List (Pid × ℕ × Bool)} {nextUid : ℕ} {collector : ℕ → Option Collector}
  {q : Pid} {u : ℕ} {stage : Bool}

theorem KernelOk.eq_of_pid (h : KernelOk ids nextUid collector) {i i' : Pid × ℕ × Bool}
    (hi : i ∈ ids) (hi' : i' ∈ ids) (hpid : i.1 = i'.1) : i = i' :=
  List.inj_on_of_nodup_map h.pids hi hi' hpid

theorem KernelOk.collect (h : KernelOk ids nextUid collector) (hi : (q, u, stage) ∈ ids)
    (who : Collector) :
    KernelOk (ids.filter (·.1 ≠ q)) nextUid (Function.update collector u (some who)) := by
  have hsub : (ids.filter (·.1 ≠ q)).Sublist ids := List.filter_sublist
  refine ⟨h.pids.sublist (hsub.map _), h.uids.sublist (hsub.map _),
    fun i hi' => h.born i (hsub.subset hi'), ?_, ?_⟩
  · intro i hi'
    obtain ⟨hmem, hne⟩ := List.mem_filter.mp hi'
    have hneu : i.2.1 ≠ u := by
      intro heq
      have hsame : i = (q, u, stage) := List.inj_on_of_nodup_map h.uids hmem hi heq
      exact of_decide_eq_true hne (congrArg Prod.fst hsame)
    rw [Function.update_of_ne hneu]
    exact h.uncollected i hmem
  · intro v hv
    have hlt : u < nextUid := h.born _ hi
    rw [Function.update_of_ne (by omega)]
    exact h.unborn v hv

/-- Own collections stay when another child is collected. -/
theorem KernelOk.own_update (h : KernelOk ids nextUid collector) (hi : (q, u, stage) ∈ ids)
    (who : Collector) {v : ℕ} (hv : collector v = some .own) :
    Function.update collector u (some who) v = some .own := by
  have hne : v ≠ u := by
    rintro rfl
    rw [h.uncollected _ hi] at hv
    cases hv
  rw [Function.update_of_ne hne]
  exact hv

theorem KernelOk.open_collect (h : KernelOk ids nextUid collector) (hi : (q, u, stage) ∈ ids)
    (who : Collector) {v : ℕ} (hopen : Open ids collector p v) :
    Open (ids.filter (·.1 ≠ q)) (Function.update collector u (some who)) p v ∨
      p = q ∧ v = u := by
  rcases hopen with ⟨s, hs⟩ | hown
  · by_cases hp : p = q
    · have hsame : (p, v, s) = (q, u, stage) := h.eq_of_pid hs hi hp
      exact .inr ⟨hp, congrArg (fun i => i.2.1) hsame⟩
    · exact .inl (.inl ⟨s, List.mem_filter.mpr ⟨hs, decide_eq_true hp⟩⟩)
  · exact .inl (.inr (h.own_update hi who hown))

theorem KernelOk.open_collect_own (h : KernelOk ids nextUid collector) (hi : (q, u, stage) ∈ ids)
    {v : ℕ} (hopen : Open ids collector p v) :
    Open (ids.filter (·.1 ≠ q)) (Function.update collector u (some .own)) p v := by
  rcases h.open_collect hi .own hopen with hopen | ⟨-, rfl⟩
  · exact hopen
  · exact .inr (Function.update_self ..)

theorem KernelOk.fork (h : KernelOk ids nextUid collector) (hq : q ∉ ids.map Prod.fst) :
    KernelOk (ids ++ [(q, nextUid, stage)]) (nextUid + 1) collector := by
  have hmem : ∀ i ∈ ids ++ [(q, nextUid, stage)], i ∈ ids ∨ i = (q, nextUid, stage) := by
    intro i hi
    rw [List.mem_append, List.mem_singleton] at hi
    exact hi
  refine ⟨?_, ?_, ?_, ?_, fun v hv => h.unborn v (by omega)⟩
  · rw [List.map_append]
    refine List.nodup_append.mpr ⟨h.pids, List.nodup_singleton _, ?_⟩
    intro a ha b hb hab
    rw [List.map_singleton, List.mem_singleton] at hb
    change b = q at hb
    exact hq (hb ▸ hab ▸ ha)
  · rw [List.map_append]
    refine List.nodup_append.mpr ⟨h.uids, List.nodup_singleton _, ?_⟩
    intro a ha b hb hab
    obtain ⟨i, hi, rfl⟩ := List.mem_map.mp ha
    rw [List.map_singleton, List.mem_singleton] at hb
    change b = nextUid at hb
    have hlt := h.born i hi
    omega
  · intro i hi
    rcases hmem i hi with hi | rfl
    · exact Nat.lt_succ_of_lt (h.born i hi)
    · exact Nat.lt_succ_self _
  · intro i hi
    rcases hmem i hi with hi | rfl
    · exact h.uncollected i hi
    · exact h.unborn _ (Nat.le_refl _)

end Collect

/-! ### The lines printed so far -/

/-- A job in the table has no completion line yet. One that has left the table has its
    line, was dropped by a timeout, or had a process whose end a command collected
    itself. -/
structure LinesOk (t : JobTable) (out : List Line) (regs : ℕ → List (Pid × ℕ))
    (collector : ℕ → Option Collector) (timedOut : List ℕ) : Prop where
  le_one : ∀ n, completions n out ≤ 1
  live : ∀ n ∈ t.jobs.map BgJob.jobNumber, completions n out = 0
  future : ∀ n, t.nextJobNumber < n → completions n out = 0
  past : ∀ n, 0 < n → n ≤ t.nextJobNumber → n ∉ t.jobs.map BgJob.jobNumber →
    completions n out = 1 ∨ n ∈ timedOut ∨ ∃ pu ∈ regs n, collector pu.2 = some .own

section Lines

variable {t t' : JobTable} {out out' : List Line} {regs : ℕ → List (Pid × ℕ)}
  {collector collector' : ℕ → Option Collector} {timedOut timedOut' : List ℕ} {n : ℕ}

theorem LinesOk.keep (h : LinesOk t out regs collector timedOut)
    (hnum : t'.jobs.map BgJob.jobNumber = t.jobs.map BgJob.jobNumber)
    (hnext : t'.nextJobNumber = t.nextJobNumber)
    (hout : ∀ m, completions m out' = completions m out)
    (hown : ∀ u, collector u = some .own → collector' u = some .own) :
    LinesOk t' out' regs collector' timedOut := by
  refine ⟨?_, ?_, ?_, ?_⟩
  · intro m
    rw [hout]
    exact h.le_one m
  · intro m hm
    rw [hout]
    exact h.live m (hnum ▸ hm)
  · intro m hm
    rw [hout]
    exact h.future m (hnext ▸ hm)
  · intro m hpos hle hm
    rw [hout]
    rcases h.past m hpos (hnext ▸ hle) (hnum ▸ hm) with hone | htime | ⟨pu, hpu, hcol⟩
    · exact .inl hone
    · exact .inr (.inl htime)
    · exact .inr (.inr ⟨pu, hpu, hown pu.2 hcol⟩)

/-- The job `n` leaves the table with its line, or with a reason for not getting one. -/
theorem LinesOk.leave (h : LinesOk t out regs collector timedOut) {l₁ l₂ : List ℕ}
    (hnum : t.jobs.map BgJob.jobNumber = l₁ ++ n :: l₂)
    (hnum' : t'.jobs.map BgJob.jobNumber = l₁ ++ l₂) (ht : TableOk t)
    (hnext : t'.nextJobNumber = t.nextJobNumber)
    (hout : ∀ m, m ≠ n → completions m out' = completions m out)
    (hn : completions n out' = 1 ∨ completions n out' = 0 ∧
      (n ∈ timedOut' ∨ ∃ pu ∈ regs n, collector' pu.2 = some .own))
    (hown : ∀ u, collector u = some .own → collector' u = some .own)
    (htimed : ∀ m ∈ timedOut, m ∈ timedOut') :
    LinesOk t' out' regs collector' timedOut' := by
  have hnotmem : n ∉ l₁ ++ l₂ := (List.nodup_middle.mp (hnum ▸ ht.nodup)).notMem
  have hmem : ∀ m, m ∈ l₁ ++ l₂ → m ∈ t.jobs.map BgJob.jobNumber := by
    intro m hm
    rw [hnum]
    exact ((List.sublist_cons_self n l₂).append_left l₁).subset hm
  have hle : n ≤ t.nextJobNumber := by
    have hin : n ∈ t.jobs.map BgJob.jobNumber := by
      rw [hnum]
      exact List.mem_append_right _ List.mem_cons_self
    obtain ⟨j, hj, rfl⟩ := List.mem_map.mp hin
    exact ht.bounded j hj
  refine ⟨?_, ?_, ?_, ?_⟩
  · intro m
    by_cases hm : m = n
    · subst hm
      omega
    · rw [hout m hm]
      exact h.le_one m
  · intro m hm
    rw [hnum'] at hm
    rw [hout m (fun heq => hnotmem (heq ▸ hm))]
    exact h.live m (hmem m hm)
  · intro m hm
    rw [hout m (by omega)]
    exact h.future m (hnext ▸ hm)
  · -- the job that leaves is a past one from now on, which is what hn is for
    intro m hpos hle hm
    by_cases hmn : m = n
    · subst hmn
      exact hn.imp_right And.right
    · have hm' : m ∉ t.jobs.map BgJob.jobNumber := by
        rw [hnum', List.mem_append] at hm
        rw [hnum, List.mem_append, List.mem_cons]
        rintro (h₁ | heq | h₂)
        · exact hm (.inl h₁)
        · exact hmn heq
        · exact hm (.inr h₂)
      rw [hout m hmn]
      rcases h.past m hpos (hnext ▸ hle) hm' with hone | htime | ⟨pu, hpu, hcol⟩
      · exact .inl hone
      · exact .inr (.inl (htimed m htime))
      · exact .inr (.inr ⟨pu, hpu, hown pu.2 hcol⟩)

theorem lines_of_reapIn_none {pid : Pid} (h : (reapIn pid status t.jobs).2 = none) :
    (bgChildExited t pid status).lines = [] := by
  show (reapIn pid status t.jobs).2.toList.flatMap _ = []
  rw [h]
  rfl

/-- A process ends: if it was the last of its job, the job leaves with its line. -/
theorem LinesOk.childExited (h : LinesOk t out regs collector timedOut) (ht : TableOk t)
    (pid : Pid) (hst : status.terminal = true)
    (hown : ∀ u, collector u = some .own → collector' u = some .own) :
    LinesOk (bgChildExited t pid status).table (out ++ (bgChildExited t pid status).lines) regs
      collector' timedOut := by
  rcases reapIn_spec pid status t.jobs with ⟨-, heq⟩ | ⟨l₁, j, l₂, hjobs, -, -, ⟨-, heq⟩ | heq⟩
  · refine h.keep ?_ rfl ?_ hown
    · show (reapIn pid status t.jobs).1.map _ = _
      rw [heq]
    · intro m
      rw [lines_of_reapIn_none (by rw [heq]), List.append_nil]
  · have hlines : (bgChildExited t pid status).lines = (j.reap pid status).completion := by
      show (reapIn pid status t.jobs).2.toList.flatMap _ = _
      rw [heq]
      exact List.append_nil _
    have hj : j ∈ t.jobs := by
      rw [hjobs]
      exact List.mem_append_right _ List.mem_cons_self
    have hcount := completions_completion (j := j.reap pid status) hst
      (lead_reap (ht.lead j hj) hst)
    have hnum : t.jobs.map BgJob.jobNumber =
        l₁.map BgJob.jobNumber ++ j.jobNumber :: l₂.map BgJob.jobNumber := by
      rw [hjobs, List.map_append, List.map_cons]
    rw [hlines]
    refine h.leave hnum ?_ ht rfl ?_ ?_ hown (fun _ hm => hm)
    · show (reapIn pid status t.jobs).1.map _ = _
      rw [heq, List.map_append]
    · intro m hm
      rw [completions_append, hcount, if_neg (fun heq' => hm heq'.symm), Nat.add_zero]
    · left
      have hzero := h.live j.jobNumber (List.mem_map_of_mem hj)
      rw [completions_append, hcount, hzero, Nat.zero_add]
      exact if_pos rfl
  · refine h.keep ?_ rfl ?_ hown
    · show (reapIn pid status t.jobs).1.map _ = _
      rw [heq, hjobs, List.map_append, List.map_append]
      rfl
    · intro m
      rw [lines_of_reapIn_none (by rw [heq]), List.append_nil]

theorem LinesOk.register (h : LinesOk t out regs collector timedOut)
    {regs' : ℕ → List (Pid × ℕ)}
    (hnum : t'.jobs.map BgJob.jobNumber = t.jobs.map BgJob.jobNumber ++ [t.nextJobNumber + 1])
    (hnext : t'.nextJobNumber = t.nextJobNumber + 1)
    (hout : ∀ m, completions m out' = completions m out)
    (hregs : ∀ m, m ≤ t.nextJobNumber → regs' m = regs m) :
    LinesOk t' out' regs' collector timedOut := by
  refine ⟨?_, ?_, ?_, ?_⟩
  · intro m
    rw [hout]
    exact h.le_one m
  · intro m hm
    rw [hnum, List.mem_append, List.mem_singleton] at hm
    rw [hout]
    rcases hm with hm | rfl
    · exact h.live m hm
    · exact h.future _ (Nat.lt_succ_self _)
  · intro m hm
    rw [hout]
    exact h.future m (by omega)
  · intro m hpos hle hm
    rw [hnum, List.mem_append, List.mem_singleton, not_or] at hm
    have hold : m ≤ t.nextJobNumber := by
      have hne := hm.2
      omega
    rw [hout, hregs m hold]
    exact h.past m hpos hold hm.1

end Lines

/-! ### The invariant -/

/-- The stages of the command that is being launched. -/
def Pc.kids : Pc → List Kid
  | launching stopped kids => stopped ++ kids
  | _ => []

/-- The processes of a job that are still in it when the program has gone on: while
    `resume_fg` waits for a job, those that stopped or have not been waited for. -/
def Pc.held (pc : Pc) (j : BgJob) : List Pid :=
  match pc with
  | waiting n _ _ rest stopped => if j.jobNumber = n then stopped ++ rest else j.pids
  | _ => j.pids

/-- The claims of stages that may yet become a job. -/
def kidClaims (kids : List Kid) : List (Pid × (ℕ → Prop)) :=
  kids.map (fun k => (k.pid, fun u => u = k.uid))

/-- All claims: those of the jobs, and of the stages being launched. -/
def World.claims (w : World) : List (Pid × (ℕ → Prop)) :=
  jobClaims w.regs w.pc.held w.table.jobs ++ kidClaims w.pc.kids

/-- The ends of processes among the records. -/
def ends (l : List Record) : List (Pid × ℕ) :=
  (l.filter (·.status.terminal)).map (fun r => (r.pid, r.uid))

/-- The queue that serves the claims. -/
def World.entries (w : World) : List (Pid × ℕ) := ends w.backlog

/-- One of the processes of the job `resume_fg` waits for was collected by a command,
    has stopped, or is still to be waited for. -/
def Accounted (ids : List (Pid × ℕ × Bool)) (collector : ℕ → Option Collector)
    (reg : List (Pid × ℕ)) (rest stopped : List Pid) : Prop :=
  ∃ p u, (p, u) ∈ reg ∧
    (collector u = some .own ∨ p ∈ stopped ∨ p ∈ rest ∧ ∃ s, (p, u, s) ∈ ids)

/-- What holds at the point the program is at. After the copy-out no process is both
    queued as ended and alive; while `resume_fg` waits, the handler does not watch the
    processes it waits for, and one of them is accounted for. -/
def PcOk (ids : List (Pid × ℕ × Bool)) (collector : ℕ → Option Collector)
    (regs : ℕ → List (Pid × ℕ)) (t : JobTable) (queue : List Record) (watched : List Pid)
    (calls : List WatchCall) : Pc → Prop
  | .draining _ => ∀ r ∈ queue, r.status.terminal = true → r.pid ∉ ids.map Prod.fst
  | .sweeping => ∀ r ∈ queue, r.status.terminal = true → r.pid ∉ ids.map Prod.fst
  | .resuming n _ pids =>
    (∃ j, findJob t n = some j ∧ j.pids = pids) ∧ (∀ c ∈ calls, ∃ p, c = .unwatch p) ∧
      ∀ p ∈ pids, p ∈ watched → p = 0 ∨ .unwatch p ∈ calls
  | .waiting n _ _ rest stopped =>
    (∃ j, findJob t n = some j ∧ (stopped ++ rest).Sublist j.pids) ∧ calls = [] ∧
      (∀ p ∈ rest, p ∈ watched → p = 0) ∧ Accounted ids collector (regs n) rest stopped
  | _ => True

/-- **The invariant** of the shell. -/
structure Inv (w : World) : Prop where
  kernel : KernelOk w.ids w.nextUid w.collector
  table : TableOk w.table
  lines : LinesOk w.table w.out w.regs w.collector w.timedOut
  covered : Covered (Open w.ids w.collector) w.claims w.entries (slack w.ids)
  pc : PcOk w.ids w.collector w.regs w.table w.queue w.watched w.calls w.pc

theorem boot_inv : Inv boot := by
  refine ⟨?_, ⟨ordered_init, ?_⟩, ?_, ?_, trivial⟩
  · refine ⟨List.nodup_nil, List.nodup_nil, ?_, ?_, fun _ _ => rfl⟩ <;> intro i hi <;> cases hi
  · intro j hj
    cases hj
  · refine ⟨fun _ => Nat.zero_le 1, (fun _ hn => nomatch hn), fun _ _ => rfl, ?_⟩
    intro n hpos hle
    exact absurd hle (Nat.not_le_of_lt hpos)
  · exact ⟨fun _ => trivial, fun _ => Nat.zero_le _⟩

/-! ### What a wait collects -/

theorem World.pids_ids (w : World) : w.ids.map Prod.fst = w.children.map Child.pid := by
  rw [World.ids, List.map_map]
  rfl

theorem Inv.pids (h : Inv w) : (w.children.map Child.pid).Nodup :=
  w.pids_ids ▸ h.kernel.pids

section Wait

variable {w : World} {pid : Pid} {b : Bool} {c : Child} {st : WaitStatus}

theorem id_mem_of_waitpid (hwait : waitpid w.children pid b = some (c, st)) :
    (pid, c.uid, c.stage) ∈ w.ids := by
  obtain ⟨hc, rfl, -⟩ := waitpid_eq_some hwait
  exact List.mem_map.mpr ⟨c, hc, rfl⟩

/-- A stop or a continue is collected: the children stay who they are. -/
theorem ids_collect_change (hnd : (w.children.map Child.pid).Nodup)
    (hwait : waitpid w.children pid b = some (c, st)) (hst : st.terminal = false)
    (who : Collector) :
    (w.collect c st who).ids = w.ids ∧ (w.collect c st who).collector = w.collector := by
  obtain ⟨hc, -, hstatus⟩ := waitpid_eq_some hwait
  have hafter := ((Child.status_terminal hstatus).2 hst).2
  constructor
  · refine ids_takeStatus_change (fun d hd hpid => ?_)
    rw [eq_of_pid hnd hd hc hpid, hafter]
    exact Option.some_ne_none _
  · exact if_neg (by rw [hst]; exact Bool.false_ne_true)

theorem ids_collect_exit (hnd : (w.children.map Child.pid).Nodup)
    (hwait : waitpid w.children pid b = some (c, st)) (hst : st.terminal = true)
    (who : Collector) :
    (w.collect c st who).ids = w.ids.filter (·.1 ≠ pid) ∧
      (w.collect c st who).collector = Function.update w.collector c.uid (some who) := by
  obtain ⟨hc, rfl, hstatus⟩ := waitpid_eq_some hwait
  have hafter := (Child.status_terminal hstatus).1.mp hst
  constructor
  · refine ids_takeStatus_exit (fun d hd hpid => ?_)
    rw [eq_of_pid hnd hd hc hpid, hafter]
  · exact if_pos hst

/-- Whatever status is collected, the children stay who they are or one of them goes. -/
theorem ids_collect (hnd : (w.children.map Child.pid).Nodup)
    (hwait : waitpid w.children pid b = some (c, st)) (who : Collector) :
    (w.collect c st who).ids = w.ids ∧ (w.collect c st who).collector = w.collector ∨
      (pid, c.uid, c.stage) ∈ w.ids ∧ (w.collect c st who).ids = w.ids.filter (·.1 ≠ pid) ∧
        (w.collect c st who).collector = Function.update w.collector c.uid (some who) := by
  cases hst : st.terminal with
  | false => exact .inl (ids_collect_change hnd hwait hst who)
  | true => exact .inr ⟨id_mem_of_waitpid hwait, ids_collect_exit hnd hwait hst who⟩

end Wait

/-! ### The children in every state reached -/

theorem World.ids_forked (w : World) (pid : Pid) (stage : Bool) :
    (w.forked pid stage).ids = w.ids ++ [(pid, w.nextUid, stage)] := by
  rw [World.ids, World.forked, List.map_append]
  rfl

/-- What a step does to the children: nothing to who they are, or one of them is
    collected, or there is a new one. -/
theorem Moves.identities {w' : World} {e : Event} (h : Moves w e w')
    (hnd : (w.children.map Child.pid).Nodup) :
    (w'.ids = w.ids ∧ w'.nextUid = w.nextUid ∧ w'.collector = w.collector) ∨
    (∃ q u stage who, (q, u, stage) ∈ w.ids ∧ w'.ids = w.ids.filter (·.1 ≠ q) ∧
      w'.nextUid = w.nextUid ∧ w'.collector = Function.update w.collector u (some who)) ∨
    ∃ q stage, q ∉ w.ids.map Prod.fst ∧ w'.ids = w.ids ++ [(q, w.nextUid, stage)] ∧
      w'.nextUid = w.nextUid + 1 ∧ w'.collector = w.collector := by
  -- a step that collects a status, whatever else it does
  have hcollect : ∀ {pid : Pid} {b : Bool} {c : Child} {st : WaitStatus} (who : Collector)
      (_ : waitpid w.children pid b = some (c, st)),
      ((w.collect c st who).ids = w.ids ∧ w.nextUid = w.nextUid ∧
        (w.collect c st who).collector = w.collector) ∨
      ∃ q u stage who', (q, u, stage) ∈ w.ids ∧
        (w.collect c st who).ids = w.ids.filter (·.1 ≠ q) ∧ w.nextUid = w.nextUid ∧
        (w.collect c st who).collector = Function.update w.collector u (some who') := by
    intro pid b c st who hwait
    rcases ids_collect hnd hwait who with ⟨hids, hcol⟩ | ⟨hmem, hids, hcol⟩
    · exact .inl ⟨hids, rfl, hcol⟩
    · exact .inr ⟨pid, c.uid, c.stage, who, hmem, hids, rfl, hcol⟩
  cases h with
  | change hfind hlive => exact .inl ⟨ids_changeChild (KernelEvent.apply_id _), rfl, rfl⟩
  | turn i => exact .inl ⟨rfl, rfl, rfl⟩
  | reap hi hlt hroom hpid hzero hwait => exact (hcollect .handler hwait).imp_right .inl
  | call hidle hcalls => exact .inl ⟨rfl, rfl, rfl⟩
  | act hidle hcalls h =>
    cases h.onChildren with
    | same hchildren hnext hcol => exact .inl ⟨congrArg (List.map Child.id) hchildren, hnext, hcol⟩
    | @collect _ _ c st who hwait hchildren hnext hcol =>
      have hids : w'.ids = (w.collect c st who).ids := congrArg (List.map Child.id) hchildren
      rw [hids, hnext, hcol]
      exact (hcollect who hwait).imp_right .inl
    | @fork pid stage _ _ hnew hchildren hnext hcol =>
      have hids : w'.ids = (w.forked pid stage).ids := congrArg (List.map Child.id) hchildren
      exact .inr (.inr ⟨pid, stage, fun hmem => hnew (w.pids_ids ▸ hmem),
        hids.trans (w.ids_forked pid stage), hnext, hcol⟩)

theorem KernelOk.step {w' : World} {e : Event} (h : KernelOk w.ids w.nextUid w.collector)
    (hstep : step w e = some w') : KernelOk w'.ids w'.nextUid w'.collector := by
  have hnd : (w.children.map Child.pid).Nodup := w.pids_ids ▸ h.pids
  rcases (step_moves hstep).identities hnd with
    ⟨hids, hnext, hcol⟩ | ⟨q, u, stage, who, hmem, hids, hnext, hcol⟩ |
      ⟨q, stage, hq, hids, hnext, hcol⟩
  · rw [hids, hnext, hcol]
    exact h
  · rw [hids, hnext, hcol]
    exact h.collect hmem who
  · rw [hids, hnext, hcol]
    exact h.fork hq

/-- **Run lemma**: in every state reached the children are who they should be. -/
theorem exec_kernelOk {es : List Event} (h : exec step boot es = some w) :
    KernelOk w.ids w.nextUid w.collector :=
  exec_invariant (I := fun w => KernelOk w.ids w.nextUid w.collector)
    (fun _ _ _ hinv hstep => hinv.step hstep) boot_inv.kernel h

theorem KernelOk.pids_nodup (h : KernelOk w.ids w.nextUid w.collector) :
    (w.children.map Child.pid).Nodup := w.pids_ids ▸ h.pids

end MiniOs.Shell

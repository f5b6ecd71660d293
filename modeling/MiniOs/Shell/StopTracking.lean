import MiniOs.Shell.Actions

/-!
# The recorded state of a process follows the kernel

A stop or a continue reaches the job table on one of two ways: the SIGCHLD handler
collects it into the queue, from where `check_bg_jobs` applies it later, or the sweep of
`check_bg_jobs` collects it and applies it at once. While the sweep runs the handler can
have queued an older status of the same process, which the newer one then overtakes.

`View` is what matters of the shell for this: the kernel's children, the processes in
the table and the statuses that are on their way. Its steps are simpler than the
shell's, and each step of the shell that is not a command is one of them.
-/

namespace MiniOs.Shell

open Trace

variable {b : Bool} {c : Child} {pid : Pid} {st : WaitStatus} {w : World}

/-! ### The processes in the table as one list -/

def JobTable.procs (t : JobTable) : List BgProc := t.jobs.flatMap BgJob.procs

theorem markFirst_append_of_mem {l m : List BgProc} (h : pid ∈ l.map BgProc.pid) :
    markFirst pid b (l ++ m) = markFirst pid b l ++ m := by
  induction l with
  | nil => cases h
  | cons p rest ih =>
    rw [List.cons_append, markFirst, markFirst]
    split_ifs with hp
    · rfl
    · rw [List.map_cons, List.mem_cons, or_iff_right (Ne.symm hp)] at h
      rw [ih h, List.cons_append]

theorem markFirst_append_of_notMem {l m : List BgProc} (h : pid ∉ l.map BgProc.pid) :
    markFirst pid b (l ++ m) = l ++ markFirst pid b m := by
  induction l with
  | nil => rfl
  | cons p rest ih =>
    rw [List.map_cons, List.mem_cons, not_or] at h
    rw [List.cons_append, markFirst, if_neg (Ne.symm h.1), ih h.2, List.cons_append]

theorem procs_markIn (pid : Pid) (b : Bool) (jobs : List BgJob) :
    (markIn pid b jobs).flatMap BgJob.procs = markFirst pid b (jobs.flatMap BgJob.procs) := by
  induction jobs with
  | nil => rfl
  | cons j rest ih =>
    rw [markIn, List.flatMap_cons]
    split_ifs with hmem
    · rw [markFirst_append_of_mem hmem]
      rfl
    · rw [markFirst_append_of_notMem hmem, ← ih]
      rfl

theorem procs_reapIn (pid : Pid) (status : WaitStatus) (jobs : List BgJob) :
    (reapIn pid status jobs).1.flatMap BgJob.procs =
      (jobs.flatMap BgJob.procs).eraseP (fun p => p.pid = pid) := by
  induction jobs with
  | nil => rfl
  | cons j rest ih =>
    rw [List.flatMap_cons]
    by_cases hmem : pid ∈ j.pids
    · obtain ⟨p, hp, hpid⟩ := List.mem_map.mp hmem
      have herase : (j.procs ++ rest.flatMap BgJob.procs).eraseP (fun p => p.pid = pid) =
          (j.reap pid status).procs ++ rest.flatMap BgJob.procs :=
        List.eraseP_append_left (p := fun q : BgProc => decide (q.pid = pid))
          (decide_eq_true hpid) _ hp
      rw [herase]
      by_cases hnil : (j.reap pid status).procs = []
      · rw [reapIn_cons_last hmem hnil, hnil]
        rfl
      · rw [reapIn_cons_more hmem hnil]
        rfl
    · rw [reapIn_cons_other hmem, List.eraseP_append_right, ← ih]
      · rfl
      · intro p hp hpid
        exact hmem (List.mem_map.mpr ⟨p, hp, by simpa using hpid⟩)

def applyTo (procs : List BgProc) (pid : Pid) (st : WaitStatus) : List BgProc :=
  if st.terminal then procs.eraseP (fun p => p.pid = pid) else markFirst pid st.wifstopped procs

theorem procs_recordStatus (t : JobTable) (pid : Pid) (st : WaitStatus) :
    (recordStatus t pid st).table.procs = applyTo t.procs pid st := by
  rw [recordStatus, applyTo]
  split_ifs
  · exact procs_reapIn pid st t.jobs
  · exact procs_markIn pid st.wifstopped t.jobs

theorem mem_markFirst {l : List BgProc} (hnd : (l.map BgProc.pid).Nodup) {q : BgProc}
    (hq : q ∈ markFirst pid b l) :
    q ∈ l ∧ q.pid ≠ pid ∨ q.stopped = b ∧ q.pid = pid ∧ ∃ p ∈ l, p.pid = pid := by
  induction l with
  | nil => cases hq
  | cons p rest ih =>
    rw [List.map_cons, List.nodup_cons] at hnd
    rw [markFirst] at hq
    split_ifs at hq with hp
    · rcases List.mem_cons.mp hq with rfl | hq
      · exact .inr ⟨rfl, hp, p, List.mem_cons_self, hp⟩
      · refine .inl ⟨List.mem_cons_of_mem p hq, fun hpid => hnd.1 ?_⟩
        rw [hp, ← hpid]
        exact List.mem_map_of_mem hq
    · rcases List.mem_cons.mp hq with rfl | hq
      · exact .inl ⟨List.mem_cons_self, hp⟩
      · rcases ih hnd.2 hq with ⟨hmem, hne⟩ | ⟨hb, hpid, r, hr, hrp⟩
        · exact .inl ⟨List.mem_cons_of_mem p hmem, hne⟩
        · exact .inr ⟨hb, hpid, r, List.mem_cons_of_mem p hr, hrp⟩

/-- After a status is applied, a process is what it was or carries that status. -/
theorem mem_applyTo {procs : List BgProc} (hnd : (procs.map BgProc.pid).Nodup) {q : BgProc}
    (hq : q ∈ applyTo procs pid st) :
    q ∈ procs ∧ (st.terminal = true ∨ q.pid ≠ pid) ∨
      st.terminal = false ∧ q.stopped = st.wifstopped ∧ q.pid = pid ∧
        ∃ p ∈ procs, p.pid = pid := by
  rw [applyTo] at hq
  split_ifs at hq with hterm
  · exact .inl ⟨List.mem_of_mem_eraseP hq, .inl hterm⟩
  · rcases mem_markFirst hnd hq with ⟨hmem, hne⟩ | hnew
    · exact .inl ⟨hmem, .inr hne⟩
    · exact .inr ⟨Bool.not_eq_true _ ▸ hterm, hnew⟩

theorem pids_applyTo_nodup {procs : List BgProc} (hnd : (procs.map BgProc.pid).Nodup) (pid : Pid)
    (st : WaitStatus) : ((applyTo procs pid st).map BgProc.pid).Nodup := by
  rw [applyTo]
  split_ifs
  · exact hnd.sublist (List.eraseP_sublist.map _)
  · rw [pids_markFirst]
    exact hnd

/-! ### The abstract system -/

/-- What matters of the shell: the kernel's children, the processes in the table, and
    the collected statuses that have not been applied. -/
structure View where
  children : List Child
  procs : List BgProc
  backlog : List Record

/-- The view of a state of the shell. -/
def World.view (w : World) : View := ⟨w.children, w.table.procs, w.backlog⟩

/-- A stop (`true`) or a continue of a process. -/
abbrev Signal := Option (Pid × Bool)

/-- The steps of the abstract system, labelled with the stop or continue they are. -/
inductive ViewStep : Signal → View → View → Prop where
  | skip (v : View) : ViewStep none v v
  | exit {v : View} {pid : Pid} (st : Terminal) : ViewStep none v
      { v with children := changeChild v.children pid
                 (fun c => { c with phase := .zombie st, pending := none }) }
  | signal {v : View} {pid : Pid} (phase : Phase) (st : Change)
      (hlive : ∀ c ∈ v.children, c.pid = pid → ∀ t, c.phase ≠ .zombie t)
      (hphase : ∀ t, phase ≠ .zombie t) (hst : st.1.wifstopped = decide (phase = .stopped)) :
      ViewStep (some (pid, st.1.wifstopped)) v
        { v with children := changeChild v.children pid
                   (fun c => { c with phase := phase, pending := some st }) }
  /-- The handler queues a status. -/
  | enqueue {v : View} {c : Child} {st : WaitStatus}
      (hwait : waitpid v.children c.pid true = some (c, st)) : ViewStep none v
      { v with
        children := takeStatus v.children c.pid
        backlog := v.backlog ++ [⟨c.pid, c.uid, st⟩] }
  /-- The oldest status is applied. -/
  | apply {v : View} {r : Record} {rest : List Record} (hr : v.backlog = r :: rest) :
      ViewStep none v { v with procs := applyTo v.procs r.pid r.status, backlog := rest }
  /-- The sweep collects a status and applies it before those on their way. -/
  | overtake {v : View} {c : Child} {st : WaitStatus}
      (hwait : waitpid v.children c.pid true = some (c, st))
      (horder : st.terminal = false → ∀ r, (v.backlog.filter (·.pid = c.pid)).getLast? = some r →
        r.status.wifstopped = st.wifstopped) : ViewStep none v
      { v with
        children := takeStatus v.children c.pid
        procs := applyTo v.procs c.pid st }

/-- The flag a process ends up with when the statuses `l` are applied to it. -/
def settle (b : Bool) (l : List WaitStatus) : Bool := l.foldl (fun _ st => st.wifstopped) b

def statusesOf (pid : Pid) (l : List Record) : List WaitStatus :=
  (l.filter (·.pid = pid)).map Record.status

/-- Everything about `c` that has not been applied yet. -/
def View.onTheWay (v : View) (c : Child) : List WaitStatus :=
  statusesOf c.pid v.backlog ++ (c.pending.map Subtype.val).toList

/-- **The invariant.** No status on its way ends a process the kernel still has, an
    uncollected stop or continue agrees with the state of its process, and if the
    statuses on their way were applied, the flag of every live process would say
    whether it is stopped. -/
structure Faithful (v : View) : Prop where
  children : (v.children.map Child.pid).Nodup
  procs : (v.procs.map BgProc.pid).Nodup
  clean : ∀ r ∈ v.backlog, r.status.terminal = true → r.pid ∉ v.children.map Child.pid
  honest : ∀ c ∈ v.children, ∀ st ∈ c.pending, st.1.wifstopped = decide (c.phase = .stopped)
  follows : ∀ q ∈ v.procs, ∀ c ∈ v.children, c.pid = q.pid → (∀ t, c.phase ≠ .zombie t) →
    settle q.stopped (v.onTheWay c) = decide (c.phase = .stopped)

theorem settle_append (b : Bool) (l m : List WaitStatus) :
    settle b (l ++ m) = settle (settle b l) m := List.foldl_append

theorem settle_concat (b : Bool) (l : List WaitStatus) (st : WaitStatus) :
    settle b (l ++ [st]) = st.wifstopped := by
  rw [settle_append]
  rfl

theorem settle_of_last {l : List Record}
    (h : ∀ r, (l.filter (·.pid = pid)).getLast? = some r → r.status.wifstopped = b) :
    settle b (statusesOf pid l) = b := by
  rw [statusesOf]
  rcases List.eq_nil_or_concat' (l.filter (·.pid = pid)) with hnil | ⟨m, r, hm⟩
  · rw [hnil]
    rfl
  · rw [hm, List.map_append, List.map_singleton, settle_concat]
    exact h r (by rw [hm, List.getLast?_concat])

theorem statusesOf_append (pid : Pid) (l m : List Record) :
    statusesOf pid (l ++ m) = statusesOf pid l ++ statusesOf pid m := by
  rw [statusesOf, List.filter_append, List.map_append]
  rfl

theorem statusesOf_cons_of_ne {r : Record} (l : List Record) (h : r.pid ≠ pid) :
    statusesOf pid (r :: l) = statusesOf pid l := by
  rw [statusesOf, List.filter_cons_of_neg (by simpa using h)]
  rfl

theorem statusesOf_cons_self (r : Record) (l : List Record) :
    statusesOf r.pid (r :: l) = r.status :: statusesOf r.pid l := by
  rw [statusesOf, List.filter_cons_of_pos (by simp)]
  rfl

/-! ### The steps keep the invariant -/

theorem Faithful.exit {v : View} (h : Faithful v) (pid : Pid) (st : Terminal) :
    Faithful { v with children := changeChild v.children pid
                        (fun c => { c with phase := .zombie st, pending := none }) } := by
  have hpids : (changeChild v.children pid
      (fun c => { c with phase := .zombie st, pending := none })).map Child.pid =
      v.children.map Child.pid := pids_of_ids (ids_changeChild (fun _ => rfl))
  refine ⟨hpids ▸ h.children, h.procs, fun r hr ht => hpids ▸ h.clean r hr ht, ?_, ?_⟩
  · intro c' hc' ch hch
    rcases mem_changeChild hc' with ⟨hc, -⟩ | ⟨c, -, -, rfl⟩
    · exact h.honest c' hc ch hch
    · cases hch
  · intro q hq c' hc' hpid hlive
    rcases mem_changeChild hc' with ⟨hc, -⟩ | ⟨c, -, -, rfl⟩
    · exact h.follows q hq c' hc hpid hlive
    · exact absurd rfl (hlive st)

theorem Faithful.signal {v : View} (h : Faithful v) (pid : Pid) {phase : Phase} {st : Change}
    (hst : st.1.wifstopped = decide (phase = .stopped)) :
    Faithful { v with children := changeChild v.children pid
                        (fun c => { c with phase := phase, pending := some st }) } := by
  have hpids : (changeChild v.children pid
      (fun c => { c with phase := phase, pending := some st })).map Child.pid =
      v.children.map Child.pid := pids_of_ids (ids_changeChild (fun _ => rfl))
  refine ⟨hpids ▸ h.children, h.procs, fun r hr ht => hpids ▸ h.clean r hr ht, ?_, ?_⟩
  · intro c' hc' ch hch
    rcases mem_changeChild hc' with ⟨hc, -⟩ | ⟨c, -, -, rfl⟩
    · exact h.honest c' hc ch hch
    · cases hch
      exact hst
  · intro q hq c' hc' hpid hlive
    rcases mem_changeChild hc' with ⟨hc, -⟩ | ⟨c, -, -, rfl⟩
    · exact h.follows q hq c' hc hpid hlive
    · show settle q.stopped (_ ++ [st.1]) = _
      rw [settle_concat]
      exact hst

theorem onTheWay_enqueue {v : View} (hnd : (v.children.map Child.pid).Nodup)
    (hwait : waitpid v.children c.pid true = some (c, st)) {c' : Child}
    (hc' : c' ∈ takeStatus v.children c.pid) :
    ∃ d ∈ v.children, d.pid = c'.pid ∧ d.phase = c'.phase ∧
      View.onTheWay ⟨takeStatus v.children c.pid, v.procs, v.backlog ++ [⟨c.pid, c.uid, st⟩]⟩ c' =
        v.onTheWay d := by
  rcases takeStatus_cases hnd hwait hc' with ⟨hmem, hne⟩ | ⟨-, rfl, ch, hch, hval⟩
  · refine ⟨c', hmem, rfl, rfl, ?_⟩
    rw [View.onTheWay, statusesOf_append, statusesOf_cons_of_ne _ (Ne.symm hne)]
    show _ ++ [] ++ _ = _
    rw [List.append_nil]
    rfl
  · refine ⟨c, (waitpid_eq_some hwait).1, rfl, rfl, ?_⟩
    have hself : statusesOf c.pid [⟨c.pid, c.uid, st⟩] = [st] := statusesOf_cons_self _ []
    rw [View.onTheWay, View.onTheWay, statusesOf_append, hch]
    show _ ++ statusesOf c.pid [_] ++ [] = _ ++ [ch.1]
    rw [List.append_nil, hself, hval]

theorem Faithful.enqueue {v : View} (h : Faithful v)
    (hwait : waitpid v.children c.pid true = some (c, st)) :
    Faithful { v with
      children := takeStatus v.children c.pid
      backlog := v.backlog ++ [⟨c.pid, c.uid, st⟩] } := by
  have hsub := pids_takeStatus_sublist v.children c.pid
  obtain ⟨hc, -, -⟩ := waitpid_eq_some hwait
  refine ⟨h.children.sublist hsub, h.procs, ?_, ?_, ?_⟩
  · intro r hr hterm hmem
    rcases List.mem_append.mp hr with hr | hr
    · exact h.clean r hr hterm (hsub.subset hmem)
    · cases List.mem_singleton.mp hr
      obtain ⟨c', hc', hpid⟩ := List.mem_map.mp hmem
      rcases takeStatus_cases h.children hwait hc' with ⟨-, hne⟩ | ⟨hlive, -⟩
      · exact hne hpid
      · exact absurd (hlive.symm.trans hterm) Bool.false_ne_true
  · intro c' hc' ch hch
    rcases takeStatus_cases h.children hwait hc' with ⟨hmem, -⟩ | ⟨-, rfl, -⟩
    · exact h.honest c' hmem ch hch
    · cases hch
  · intro q hq c' hc' hpid hlive
    obtain ⟨d, hd, hdpid, hphase, hway⟩ := onTheWay_enqueue h.children hwait hc'
    rw [hway, ← hphase]
    exact h.follows q hq d hd (hdpid.trans hpid) (hphase ▸ hlive)

theorem Faithful.apply {v : View} (h : Faithful v) {r : Record} {rest : List Record}
    (hr : v.backlog = r :: rest) :
    Faithful { v with procs := applyTo v.procs r.pid r.status, backlog := rest } := by
  refine ⟨h.children, pids_applyTo_nodup h.procs _ _, ?_, h.honest, ?_⟩
  · intro s hs
    exact h.clean s (hr ▸ List.mem_cons_of_mem r hs)
  · intro q' hq' c hc hpid hlive
    rcases mem_applyTo h.procs hq' with ⟨hq, hkeep⟩ | ⟨hterm, hflag, hqr, p, hp, hpr⟩
    · have hne : r.pid ≠ c.pid := by
        intro heq
        rcases hkeep with hterm | hne
        · exact h.clean r (hr ▸ List.mem_cons_self) hterm (heq ▸ List.mem_map_of_mem hc)
        · exact hne (hpid.symm.trans heq.symm)
      rw [← h.follows q' hq c hc hpid hlive, View.onTheWay, View.onTheWay, hr,
        statusesOf_cons_of_ne rest hne]
    · have hcr : c.pid = r.pid := hpid.trans hqr
      have hold := h.follows p hp c hc (hcr.trans hpr.symm) hlive
      rw [View.onTheWay, hr, hcr, statusesOf_cons_self] at hold
      rw [View.onTheWay, hcr, hflag]
      exact hold

theorem Faithful.overtake {v : View} (h : Faithful v)
    (hwait : waitpid v.children c.pid true = some (c, st))
    (horder : st.terminal = false → ∀ r, (v.backlog.filter (·.pid = c.pid)).getLast? = some r →
      r.status.wifstopped = st.wifstopped) :
    Faithful { v with
      children := takeStatus v.children c.pid
      procs := applyTo v.procs c.pid st } := by
  have hsub := pids_takeStatus_sublist v.children c.pid
  obtain ⟨hc, -, -⟩ := waitpid_eq_some hwait
  refine ⟨h.children.sublist hsub, pids_applyTo_nodup h.procs _ _,
    fun r hr ht hmem => h.clean r hr ht (hsub.subset hmem), ?_, ?_⟩
  · intro c' hc' ch hch
    rcases takeStatus_cases h.children hwait hc' with ⟨hmem, -⟩ | ⟨-, rfl, -⟩
    · exact h.honest c' hmem ch hch
    · cases hch
  · intro q' hq' c' hc' hpid hlive
    rcases takeStatus_cases h.children hwait hc' with ⟨hmem, hne⟩ | ⟨hterm, rfl, ch, hch, hval⟩
    · rcases mem_applyTo h.procs hq' with ⟨hq, -⟩ | ⟨-, -, hqc, -⟩
      · exact h.follows q' hq c' hmem hpid hlive
      · exact absurd (hpid.trans hqc) hne
    · rcases mem_applyTo h.procs hq' with ⟨-, hkeep⟩ | ⟨-, hflag, -⟩
      · rcases hkeep with hend | hne
        · exact absurd (hterm.symm.trans hend) Bool.false_ne_true
        · exact absurd hpid.symm hne
      · show settle q'.stopped (statusesOf c.pid v.backlog ++ []) = _
        rw [List.append_nil, hflag, settle_of_last (horder hterm), ← hval]
        exact h.honest c hc ch hch

/-- **Step lemma** of the abstract system. -/
theorem ViewStep.faithful {sig : Signal} {v v' : View} (hstep : ViewStep sig v v')
    (h : Faithful v) : Faithful v' := by
  cases hstep with
  | skip => exact h
  | exit st => exact h.exit _ st
  | signal phase st hlive hphase hst => exact h.signal _ hst
  | enqueue hwait => exact h.enqueue hwait
  | apply hr => exact h.apply hr
  | overtake hwait horder => exact h.overtake hwait horder

/-! ### The shell refines the abstract system -/

/-- The steps that are not part of a command: those of the kernel and of the handler,
    and of the program those of `check_bg_jobs`. -/
def Event.reaping : Event → Bool
  | .kernel _ | .handler _ => true
  | .main .call | .main .drainCopy | .main .drainApply | .main .drainEnd => true
  | .main (.sweepCollect _) | .main .sweepEnd => true
  | .main _ => false

def Event.signal : Event → Signal
  | .kernel (.stop pid _) => some (pid, true)
  | .kernel (.cont pid) => some (pid, false)
  | _ => none

/-- When the sweep collects a stop or a continue of a process, the last status of that
    process in the handler's queue, if there is one, is of the same kind. -/
def SweepInOrder (w : World) : Event → Prop
  | .main (.sweepCollect pid) =>
    ∀ c st, waitpid w.children pid true = some (c, st) → st.terminal = false →
      ∀ r, (w.queue.filter (·.pid = pid)).getLast? = some r →
        r.status.wifstopped = st.wifstopped
  | _ => True

theorem change_view {e : KernelEvent} (hnd : (w.children.map Child.pid).Nodup)
    (hfind : w.children.find? (fun c => c.pid = e.pid) = some c)
    (hlive : ∀ st, c.phase ≠ .zombie st) :
    ViewStep (Event.kernel e).signal w.view (w.change e.pid e.apply).view := by
  have hpid : c.pid = e.pid := by simpa using List.find?_some hfind
  have hwas : ∀ d ∈ w.children, d.pid = e.pid → ∀ st, d.phase ≠ .zombie st := by
    intro d hd hdpid
    rw [eq_of_pid hnd hd (List.mem_of_find?_eq_some hfind) (hdpid.trans hpid.symm)]
    exact hlive
  cases e with
  | exit pid st => exact ViewStep.exit st
  | stop pid sig =>
    exact ViewStep.signal (v := w.view) .stopped ⟨.stopped sig, rfl⟩ hwas
      (fun t ht => nomatch ht) rfl
  | cont pid =>
    exact ViewStep.signal (v := w.view) .running ⟨.continued, rfl⟩ hwas
      (fun t ht => nomatch ht) rfl

theorem reap_view {watched : List Pid} {i : Option ℕ}
    (hwait : waitpid w.children c.pid true = some (c, st)) :
    ViewStep none w.view (World.view { w.collect c st .handler with
      watched := watched
      queue := w.queue ++ [⟨c.pid, c.uid, st⟩]
      handler := i }) := by
  have hback : (w.pc.copied ++ (w.queue ++ [⟨c.pid, c.uid, st⟩])) =
      w.backlog ++ [⟨c.pid, c.uid, st⟩] := (List.append_assoc _ _ _).symm
  show ViewStep none w.view ⟨takeStatus w.children c.pid, w.table.procs,
    w.pc.copied ++ (w.queue ++ [⟨c.pid, c.uid, st⟩])⟩
  rw [hback]
  exact ViewStep.enqueue (v := w.view) hwait

theorem Acts.view {w' : World} {e : MainEvent} (hact : Acts w e w')
    (hr : (Event.main e).reaping = true) (hok : SweepInOrder w (.main e)) :
    ViewStep none w.view w'.view := by
  cases hact with
  | drainCopy hpc =>
    have hview : World.view { w with pc := .draining w.queue, queue := [] } = w.view := by
      show View.mk _ _ (w.queue ++ []) = View.mk _ _ (w.pc.copied ++ w.queue)
      rw [hpc, List.append_nil]
      rfl
    rw [hview]
    exact ViewStep.skip w.view
  | @drainApply r rest hpc =>
    have hback : w.backlog = r :: (rest ++ w.queue) := by
      rw [World.backlog, hpc]
      rfl
    show ViewStep none w.view ⟨w.children, (recordStatus w.table r.pid r.status).table.procs,
      rest ++ w.queue⟩
    rw [procs_recordStatus]
    exact ViewStep.apply (v := w.view) hback
  | drainEnd hpc =>
    have hview : World.view { w with pc := .sweeping } = w.view := by
      rw [World.view, World.view, World.backlog, World.backlog, hpc]
      rfl
    rw [hview]
    exact ViewStep.skip w.view
  | @sweepCollect pid c st hpc hwait =>
    obtain ⟨-, hpid, -⟩ := waitpid_eq_some hwait
    subst hpid
    have hback : w.backlog = w.queue := by
      rw [World.backlog, hpc]
      rfl
    show ViewStep none w.view ⟨takeStatus w.children c.pid,
      (recordStatus w.table c.pid st).table.procs, w.backlog⟩
    rw [procs_recordStatus]
    refine ViewStep.overtake (v := w.view) hwait (fun hterm r hlast => ?_)
    refine hok c st hwait hterm r ?_
    rw [← hback]
    exact hlast
  | sweepEnd hpc hnone =>
    have hview : World.view { w with pc := .idle } = w.view := by
      rw [World.view, World.view, World.backlog, World.backlog, hpc]
      rfl
    rw [hview]
    exact ViewStep.skip w.view
  | _ => cases hr

/-- **Refinement**: a step of the shell that is not part of a command is a step of the
    abstract system. -/
theorem step_view {w' : World} {e : Event} (hnd : (w.children.map Child.pid).Nodup)
    (hr : e.reaping = true) (hok : SweepInOrder w e) (h : step w e = some w') :
    ViewStep e.signal w.view w'.view := by
  cases step_moves h with
  | change hfind hlive => exact change_view hnd hfind hlive
  | turn i => exact ViewStep.skip w.view
  | reap hi hlt hroom hpid hzero hwait => exact reap_view hwait
  | call hidle hcalls => exact ViewStep.skip w.view
  | act hidle hcalls hact => exact hact.view hr hok

/-! ### Runs -/

/-- Whether `pid` is stopped after a signal, if it was before it or not. -/
def afterSignal (pid : Pid) (b : Bool) : Signal → Bool
  | some (p, s) => if p = pid then s else b
  | none => b

/-- Whether the last stop or continue of `pid` among the events was a stop; `b` says
    so for the time before them. -/
def stoppedAfter (pid : Pid) (b : Bool) (es : List Event) : Bool :=
  es.foldl (fun b e => afterSignal pid b e.signal) b

/-- The kernel stops and continues a live child only by the signals of the labels. -/
theorem ViewStep.phase {sig : Signal} {v v' : View} (hstep : ViewStep sig v v') (h : Faithful v)
    {c' : Child} (hc' : c' ∈ v'.children) (hlive : ∀ t, c'.phase ≠ .zombie t) :
    ∃ c ∈ v.children, c.pid = c'.pid ∧ (∀ t, c.phase ≠ .zombie t) ∧
      decide (c'.phase = .stopped) = afterSignal c'.pid (decide (c.phase = .stopped)) sig := by
  have hcollected : ∀ {c st}, waitpid v.children c.pid true = some (c, st) →
      c' ∈ takeStatus v.children c.pid → ∃ d ∈ v.children, d.pid = c'.pid ∧
        (∀ t, d.phase ≠ .zombie t) ∧
          decide (c'.phase = .stopped) = decide (d.phase = .stopped) := by
    intro c st hwait hmem
    rcases takeStatus_cases h.children hwait hmem with ⟨hc, -⟩ | ⟨-, rfl, -⟩
    · exact ⟨c', hc, rfl, hlive, rfl⟩
    · exact ⟨c, (waitpid_eq_some hwait).1, rfl, hlive, rfl⟩
  cases hstep with
  | skip => exact ⟨c', hc', rfl, hlive, rfl⟩
  | exit st =>
    rcases mem_changeChild hc' with ⟨hc, -⟩ | ⟨c, -, -, rfl⟩
    · exact ⟨c', hc, rfl, hlive, rfl⟩
    · exact absurd rfl (hlive st)
  | signal phase st hwas hphase hst =>
    rcases mem_changeChild hc' with ⟨hc, hne⟩ | ⟨c, hc, hpid, rfl⟩
    · refine ⟨c', hc, rfl, hlive, ?_⟩
      rw [afterSignal, if_neg (Ne.symm hne)]
    · refine ⟨c, hc, rfl, hwas c hc hpid, ?_⟩
      rw [afterSignal, if_pos hpid.symm]
      exact hst.symm
  | enqueue hwait => exact hcollected hwait hc'
  | apply hr => exact ⟨c', hc', rfl, hlive, rfl⟩
  | overtake hwait horder => exact hcollected hwait hc'

/-- **Run lemma**: the invariant holds along a run without commands whose sweeps are in
    order, and the kernel's state of a live child is that of its last signal. -/
theorem exec_faithful {w₀ : World} {es : List Event} (h₀ : Faithful w₀.view)
    (hes : ∀ e ∈ es, e.reaping = true) (hok : Guarded step SweepInOrder w₀ es)
    (h : exec step w₀ es = some w) :
    Faithful w.view ∧ ∀ c' ∈ w.children, (∀ t, c'.phase ≠ .zombie t) →
      ∃ c ∈ w₀.children, c.pid = c'.pid ∧ (∀ t, c.phase ≠ .zombie t) ∧
        decide (c'.phase = .stopped) = stoppedAfter c'.pid (decide (c.phase = .stopped)) es := by
  induction es generalizing w₀ with
  | nil =>
    cases h
    exact ⟨h₀, fun c' hc' hlive => ⟨c', hc', rfl, hlive, rfl⟩⟩
  | cons e es ih =>
    obtain ⟨m, hstep, hrun⟩ := exec_cons_eq_some.mp h
    obtain ⟨he, hrest⟩ := guarded_cons.mp hok
    have hview := step_view h₀.children (hes e List.mem_cons_self) he hstep
    obtain ⟨hw, hphase⟩ := ih (hview.faithful h₀)
      (fun e' he' => hes e' (List.mem_cons_of_mem e he')) (hrest m hstep) hrun
    refine ⟨hw, fun c' hc' hlive => ?_⟩
    obtain ⟨d, hd, hdc, hdlive, heq⟩ := hphase c' hc' hlive
    obtain ⟨c, hc, hcd, hclive, heq'⟩ := hview.phase h₀ hd hdlive
    refine ⟨c, hc, hcd.trans hdc, hclive, ?_⟩
    rw [heq, heq', hdc]
    rfl

/-- Nothing is on its way, and every flag is right. -/
structure Settled (w : World) : Prop where
  children : (w.children.map Child.pid).Nodup
  procs : (w.table.procs.map BgProc.pid).Nodup
  backlog : w.backlog = []
  kernel : ∀ c ∈ w.children, c.status true = none
  flags : ∀ q ∈ w.table.procs, ∀ c ∈ w.children, c.pid = q.pid →
    (q.stopped = true ↔ c.phase = .stopped)

instance (w : World) : Decidable (Settled w) :=
  decidable_of_iff ((w.children.map Child.pid).Nodup ∧ (w.table.procs.map BgProc.pid).Nodup ∧
      w.backlog = [] ∧ (∀ c ∈ w.children, c.status true = none) ∧
      ∀ q ∈ w.table.procs, ∀ c ∈ w.children, c.pid = q.pid →
        (q.stopped = true ↔ c.phase = .stopped))
    ⟨fun ⟨h₁, h₂, h₃, h₄, h₅⟩ => ⟨h₁, h₂, h₃, h₄, h₅⟩,
      fun ⟨h₁, h₂, h₃, h₄, h₅⟩ => ⟨h₁, h₂, h₃, h₄, h₅⟩⟩

/-- A child with nothing to report is alive and has no uncollected stop or continue. -/
theorem Child.of_status_none (h : c.status true = none) :
    c.pending = none ∧ ∀ t, c.phase ≠ .zombie t := by
  have hlive : ∀ t, c.phase ≠ .zombie t := by
    intro t ht
    rw [Child.status_zombie ht] at h
    cases h
  refine ⟨?_, hlive⟩
  obtain ⟨pid, uid, stage, phase, pending⟩ := c
  cases pending with
  | none => rfl
  | some ch =>
    cases phase with
    | zombie t => exact absurd rfl (hlive t)
    | running => cases h
    | stopped => cases h

theorem onTheWay_nil (hbacklog : w.backlog = []) (hpending : c.pending = none) :
    w.view.onTheWay c = [] := by
  change statusesOf c.pid w.backlog ++ (c.pending.map Subtype.val).toList = []
  rw [hbacklog, hpending]
  rfl

theorem Settled.faithful (h : Settled w) : Faithful w.view := by
  have hnone : ∀ c ∈ w.children, c.pending = none :=
    fun c hc => (Child.of_status_none (h.kernel c hc)).1
  refine ⟨h.children, h.procs, ?_, ?_, ?_⟩
  · intro r hr
    change r ∈ w.backlog at hr
    rw [h.backlog] at hr
    cases hr
  · intro c hc st hst
    rw [hnone c hc] at hst
    cases hst
  · intro q hq c hc hpid _
    rw [onTheWay_nil h.backlog (hnone c hc)]
    change q.stopped = decide (c.phase = .stopped)
    rw [Bool.eq_iff_iff, decide_eq_true_iff]
    exact h.flags q hq c hc hpid

theorem phaseOf_of_mem {children : List Child} (hnd : (children.map Child.pid).Nodup)
    (hc : c ∈ children) : phaseOf children c.pid = some c.phase := by
  unfold phaseOf
  cases hfind : children.find? (fun d => d.pid = c.pid) with
  | none => exact absurd (decide_eq_true rfl) (List.find?_eq_none.mp hfind c hc)
  | some d =>
    have hd : d.pid = c.pid := by simpa using List.find?_some hfind
    rw [eq_of_pid hnd (List.mem_of_find?_eq_some hfind) hc hd]
    rfl

/-- When nothing is on its way, the flags say what the kernel says. -/
theorem Faithful.flag (hw : Faithful w.view) (hqueue : w.queue = []) (hcopied : w.pc.copied = [])
    (hkernel : ∀ c ∈ w.children, c.status true = none) {j : BgJob} (hj : j ∈ w.table.jobs)
    {q : BgProc} (hq : q ∈ j.procs) (hc : c ∈ w.children) (hpid : c.pid = q.pid) :
    q.stopped = decide (c.phase = .stopped) := by
  obtain ⟨hpending, hlive⟩ := Child.of_status_none (hkernel c hc)
  have hbacklog : w.backlog = [] := by rw [World.backlog, hcopied, hqueue, List.nil_append]
  have hflag := hw.follows q (List.mem_flatMap.mpr ⟨j, hj, hq⟩) c hc hpid hlive
  rw [onTheWay_nil hbacklog hpending] at hflag
  exact hflag

/-- **The recorded state follows the kernel, if the sweep overtakes nothing.** Start
    with every flag right and nothing on its way, and take any steps of the kernel, the
    handler and `check_bg_jobs`, such that whenever the sweep collects a stop or a
    continue, the last status queued for that process, if any, is of the same kind.
    Whenever the queue is empty, no copied status is left and the kernel holds no
    uncollected change, the flag of each live process says whether its last stop or
    continue was a stop. -/
theorem stopped_flag_follows_kernel {w₀ w : World} {es : List Event} (h₀ : Settled w₀)
    (hes : ∀ e ∈ es, e.reaping = true) (hok : Guarded step SweepInOrder w₀ es)
    (h : exec step w₀ es = some w) (hqueue : w.queue = []) (hcopied : w.pc.copied = [])
    (hkernel : ∀ c ∈ w.children, c.status true = none) :
    ∀ j ∈ w.table.jobs, ∀ q ∈ j.procs, ∀ c ∈ w.children, c.pid = q.pid →
      (q.stopped = true ↔
        stoppedAfter q.pid (phaseOf w₀.children q.pid = some .stopped) es = true) := by
  intro j hj q hq c hc hpid
  obtain ⟨-, hlive⟩ := Child.of_status_none (hkernel c hc)
  obtain ⟨hw, hphase⟩ := exec_faithful h₀.faithful hes hok h
  have hflag := hw.flag hqueue hcopied hkernel hj hq hc hpid
  -- and the kernel's state is that of the last signal
  obtain ⟨c₀, hc₀, hpid₀, -, heq⟩ := hphase c hc hlive
  have hstart : phaseOf w₀.children q.pid = some c₀.phase := by
    rw [← hpid, ← hpid₀]
    exact phaseOf_of_mem h₀.children hc₀
  rw [hflag, heq, hpid, hstart]
  simp only [Option.some.injEq]

/-- A background command is launched, and its pid watched. -/
def launchOne : List Event :=
  [.main (.fork 7 true []), .main (.registerBg 7 []), .main .call]

/-- The process stops, the handler queues the stop, and `check_bg_jobs` applies it. -/
def stopAndDrain : List Event :=
  [.kernel (.stop 7 20), .handler .enter, .handler .iter, .handler .iter,
    .main .drainCopy, .main .drainApply, .main .drainEnd, .main .sweepEnd]

theorem stopped_flag_follows_kernel_stop :
    ∃ w₀ ∈ exec step boot launchOne, ∃ w ∈ exec step w₀ stopAndDrain,
      ∃ j ∈ w.table.jobs, ∃ q ∈ j.procs, q.stopped = true := by
  have hrun : ∃ w₀ ∈ exec step boot launchOne, Settled w₀ ∧
      ∃ w ∈ exec step w₀ stopAndDrain, w.queue = [] ∧ w.pc.copied = [] ∧
        (∀ c ∈ w.children, c.status true = none) ∧
        ∃ j ∈ w.table.jobs, ∃ q ∈ j.procs, (∃ c ∈ w.children, c.pid = q.pid) ∧
          stoppedAfter q.pid (phaseOf w₀.children q.pid = some .stopped) stopAndDrain = true := by
    decide +kernel
  have hreap : ∀ e ∈ stopAndDrain, e.reaping = true := by
    simp [stopAndDrain, Event.reaping]
  have hok : ∀ w₀, Guarded step SweepInOrder w₀ stopAndDrain := by
    refine guarded_of_forall_mem ?_
    simp [stopAndDrain, SweepInOrder]
  obtain ⟨w₀, hw₀, hset, w, hw, hqueue, hcopied, hkernel, j, hj, q, hq, ⟨c, hc, hpid⟩, hlast⟩ :=
    hrun
  have hiff := stopped_flag_follows_kernel hset hreap (hok w₀) (Option.mem_def.mp hw) hqueue hcopied
    hkernel j hj q hq c hc hpid
  exact ⟨w₀, hw₀, w, hw, j, hj, q, hq, hiff.mpr hlast⟩

/-- The process stops while `check_bg_jobs` is between its two loops, so the handler
    queues the stop; the process continues before the sweep gets to it, and the sweep
    collects the continue. The stop is applied by the next `check_bg_jobs`. -/
def overtaken : List Event :=
  [.main .drainCopy, .main .drainEnd, .kernel (.stop 7 20), .handler .enter, .handler .iter,
    .handler .iter, .kernel (.cont 7), .main (.sweepCollect 7), .main .sweepEnd,
    .main .drainCopy, .main .drainApply, .main .drainEnd, .main .sweepEnd]

/-- **A stale stop is applied last**: the process is watched and running, its last
    signal was a continue, nothing is on its way, and its flag says stopped. -/
theorem stale_stop_is_applied_last :
    ∃ w₀ ∈ exec step boot launchOne, Settled w₀ ∧ (∀ e ∈ overtaken, e.reaping = true) ∧
      ∃ w ∈ exec step w₀ overtaken, w.queue = [] ∧ w.pc.copied = [] ∧
        (∀ c ∈ w.children, c.status true = none) ∧
        ∃ j ∈ w.table.jobs, ∃ q ∈ j.procs, ∃ c ∈ w.children, c.pid = q.pid ∧ q.pid ∈ w.watched ∧
          stoppedAfter q.pid (phaseOf w₀.children q.pid = some .stopped) overtaken = false ∧
          q.stopped = true := by
  have hreap : ∀ e ∈ overtaken, e.reaping = true := by
    simp [overtaken, Event.reaping]
  have hrun : ∃ w₀ ∈ exec step boot launchOne, Settled w₀ ∧
      ∃ w ∈ exec step w₀ overtaken, w.queue = [] ∧ w.pc.copied = [] ∧
        (∀ c ∈ w.children, c.status true = none) ∧
        ∃ j ∈ w.table.jobs, ∃ q ∈ j.procs, ∃ c ∈ w.children, c.pid = q.pid ∧ q.pid ∈ w.watched ∧
          stoppedAfter q.pid (phaseOf w₀.children q.pid = some .stopped) overtaken = false ∧
          q.stopped = true := by
    decide +kernel
  obtain ⟨w₀, hw₀, hset, hrest⟩ := hrun
  exact ⟨w₀, hw₀, hset, hreap, hrest⟩

end MiniOs.Shell

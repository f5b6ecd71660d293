import Mathlib.Data.Bool.Basic
import MiniOs.Shell.Ledger

/-!
# Every job gets its completion line

Whoever collects the end of a process, the handler or the sweep of `check_bg_jobs`, the
job the process belongs to gets exactly one completion line once the statuses have been
applied, and no job gets two. This needs two things the shell does not ensure. When
`resume_fg` starts to wait for a job, one of the job's processes must not have been
collected yet: if all of them have, the waits fail, and the job is removed without a
line while its statuses are in the queue. And a builtin that is a stage of a pipeline or
a command in the background (`activities &`), which runs in a forked copy of the shell,
must not have anything to report there: the shell reports it again.
-/

namespace MiniOs.Shell

open Backlog Trace

variable {c : Child} {collector : ℕ → Option Collector} {e : Effect} {ids : List (Pid × ℕ × Bool)}
  {j : BgJob} {kids stopped : List Kid} {n : ℕ} {p pid : Pid} {pc : Pc} {st : WaitStatus}
  {t : JobTable} {timer : Bool} {w : World}

/-! ### The kernel and the handler -/

/-- The invariant, with the children and the collectors as they are known to be. -/
theorem Inv.of_eq (hids : w.ids = ids) (hcol : w.collector = collector)
    (hk : KernelOk ids w.nextUid collector) (ht : TableOk w.table)
    (hl : LinesOk w.table w.out w.regs collector w.timedOut)
    (hcov : Covered (Open ids collector) w.claims w.entries (slack ids))
    (hpc : PcOk ids collector w.regs w.table w.queue w.watched w.calls w.pc) : Inv w := by
  subst hids hcol
  exact ⟨hk, ht, hl, hcov, hpc⟩

theorem Inv.change (h : Inv w) (pid : Pid) {f : Child → Child} (hf : ∀ c, (f c).id = c.id) :
    Inv (w.change pid f) := by
  have hids : (w.change pid f).ids = w.ids := ids_changeChild hf
  exact .of_eq hids rfl h.kernel h.table h.lines h.covered h.pc

theorem ends_append (l m : List Record) : ends (l ++ m) = ends l ++ ends m := by
  rw [ends, List.filter_append, List.map_append]
  rfl

theorem ends_cons_change {r : Record} (hr : r.status.terminal = false) (l : List Record) :
    ends (r :: l) = ends l := by
  rw [ends, List.filter_cons_of_neg (by rw [hr]; exact Bool.false_ne_true)]
  rfl

theorem ends_cons_exit {r : Record} (hr : r.status.terminal = true) (l : List Record) :
    ends (r :: l) = (r.pid, r.uid) :: ends l := by
  rw [ends, List.filter_cons_of_pos (p := fun r : Record => r.status.terminal) hr]
  rfl

theorem Inv.handlerChange (h : Inv w) {i : Option ℕ}
    (hwait : waitpid w.children c.pid true = some (c, st)) (hst : st.terminal = false) :
    Inv { w.collect c st .handler with
      queue := w.queue ++ [⟨c.pid, c.uid, st⟩]
      handler := i } := by
  obtain ⟨hids, hcol⟩ := ids_collect_change h.pids hwait hst .handler
  have hends : ends (w.pc.copied ++ (w.queue ++ [⟨c.pid, c.uid, st⟩])) = w.entries := by
    rw [← List.append_assoc, ends_append, ends_cons_change hst]
    exact List.append_nil _
  have hqueue : (∀ r ∈ w.queue, r.status.terminal = true → r.pid ∉ w.ids.map Prod.fst) →
      ∀ r ∈ w.queue ++ [⟨c.pid, c.uid, st⟩], r.status.terminal = true →
        r.pid ∉ w.ids.map Prod.fst := by
    intro hold r hr hterm
    rcases List.mem_append.mp hr with hr | hr
    · exact hold r hr hterm
    · cases List.mem_singleton.mp hr
      exact absurd (hst.symm.trans hterm) Bool.false_ne_true
  refine .of_eq hids hcol h.kernel h.table h.lines ?_ ?_
  · show Covered _ w.claims (ends (w.pc.copied ++ (w.queue ++ [⟨c.pid, c.uid, st⟩]))) _
    rw [hends]
    exact h.covered
  · show PcOk w.ids w.collector w.regs w.table (w.queue ++ [⟨c.pid, c.uid, st⟩]) w.watched w.calls
      w.pc
    have hpc := h.pc
    cases hw : w.pc <;> rw [hw] at hpc
    case draining copied => exact hqueue hpc
    case sweeping => exact hqueue hpc
    all_goals exact hpc

/-- What is in the queue belongs to no child, after one more is collected into it. -/
theorem queue_collected {queue : List Record} {u : ℕ}
    (h : ∀ r ∈ queue, r.status.terminal = true → r.pid ∉ ids.map Prod.fst) :
    ∀ r ∈ queue ++ [⟨pid, u, st⟩], r.status.terminal = true →
      r.pid ∉ (ids.filter (·.1 ≠ pid)).map Prod.fst := by
  intro r hr hterm hmem
  rcases List.mem_append.mp hr with hr | hr
  · exact h r hr hterm ((List.filter_sublist.map _).subset hmem)
  · cases List.mem_singleton.mp hr
    obtain ⟨id, hid, heq⟩ := List.mem_map.mp hmem
    exact of_decide_eq_true (List.mem_filter.mp hid).2 heq

/-- The handler does not watch the processes `resume_fg` waits for, so the wait goes on. -/
theorem Inv.pc_handlerExit (h : Inv w) {i : ℕ} (st : WaitStatus) (hi : w.watched.getD i 0 = c.pid)
    (hlt : i < w.watched.length) (hzero : c.pid ≠ 0) (hmem : c.id ∈ w.ids) :
    PcOk (w.ids.filter (·.1 ≠ c.pid)) (Function.update w.collector c.uid (some .handler)) w.regs
      w.table (w.queue ++ [⟨c.pid, c.uid, st⟩]) (w.watched.set i 0) w.calls w.pc := by
  have hwatched : c.pid ∈ w.watched := by
    rw [← hi, List.getD_eq_getElem?_getD, List.getElem?_eq_getElem hlt]
    exact List.getElem_mem hlt
  have hset : ∀ p ∈ w.watched.set i 0, p ∈ w.watched ∨ p = 0 := fun p hp =>
    List.mem_or_eq_of_mem_set hp
  have hpc := h.pc
  cases hw : w.pc <;> rw [hw] at hpc
  case draining copied => exact queue_collected hpc
  case sweeping => exact queue_collected hpc
  case resuming n timer pids =>
    obtain ⟨hjob, hcalls, hpids⟩ := hpc
    refine ⟨hjob, hcalls, fun p hp hpw => ?_⟩
    rcases hset p hpw with hpw | hp0
    · exact hpids p hp hpw
    · exact .inl hp0
  case waiting n timer done rest stopped =>
    obtain ⟨hjob, hcalls, hrest, p, u, hreg, hwhy⟩ := hpc
    refine ⟨hjob, hcalls, fun p hp hpw => ?_, p, u, hreg, ?_⟩
    · rcases hset p hpw with hpw | hp0
      · exact hrest p hp hpw
      · exact hp0
    · rcases hwhy with hown | hstop | ⟨hp, s, hs⟩
      · exact .inl (h.kernel.own_update hmem .handler hown)
      · exact .inr (.inl hstop)
      · have hne : p ≠ c.pid := fun heq => hzero (heq ▸ hrest p hp (heq ▸ hwatched))
        exact .inr (.inr ⟨hp, s, List.mem_filter.mpr ⟨hs, decide_eq_true hne⟩⟩)
  all_goals trivial

theorem Inv.handlerExit (h : Inv w) {i : ℕ} {k : Option ℕ} (hi : w.watched.getD i 0 = c.pid)
    (hlt : i < w.watched.length) (hzero : c.pid ≠ 0)
    (hwait : waitpid w.children c.pid true = some (c, st)) (hst : st.terminal = true) :
    Inv { w.collect c st .handler with
      watched := w.watched.set i 0
      queue := w.queue ++ [⟨c.pid, c.uid, st⟩]
      handler := k } := by
  have hmem := id_mem_of_waitpid hwait
  obtain ⟨hids, hcol⟩ := ids_collect_exit h.pids hwait hst .handler
  have hends : ends (w.pc.copied ++ (w.queue ++ [⟨c.pid, c.uid, st⟩])) =
      w.entries ++ [(c.pid, c.uid)] := by
    rw [← List.append_assoc, ends_append, ends_cons_exit hst]
    rfl
  have hown := fun v => h.kernel.own_update hmem .handler (v := v)
  refine .of_eq hids hcol (h.kernel.collect hmem .handler) h.table
    (h.lines.keep rfl rfl (fun _ => rfl) hown) ?_ (h.pc_handlerExit st hi hlt hzero hmem)
  show Covered _ w.claims (ends (w.pc.copied ++ (w.queue ++ [⟨c.pid, c.uid, st⟩]))) _
  rw [hends]
  exact h.covered.arrive (fun p v hopen => h.kernel.open_collect hmem .handler hopen)
    (slack_le_one _ _) (fun p hp => Nat.le_of_eq (slack_filter hp).symm)

theorem Inv.reap (h : Inv w) {i : ℕ} (hlt : i < w.watched.length)
    (hpid : w.watched.getD i 0 = c.pid) (hzero : c.pid ≠ 0)
    (hwait : waitpid w.children c.pid true = some (c, st)) :
    Inv { w.collect c st .handler with
      watched := if st.terminal then w.watched.set i 0 else w.watched
      queue := w.queue ++ [⟨c.pid, c.uid, st⟩]
      handler := some (i + 1) } := by
  cases hst : st.terminal with
  | false => exact h.handlerChange hwait hst
  | true => exact h.handlerExit hpid hlt hzero hwait hst

/-! ### The watch list -/

theorem mem_bgUnwatchPid {watched : List Pid} {q : Pid} (h : p ∈ bgUnwatchPid watched q) :
    p = 0 ∨ p ∈ watched ∧ p ≠ q := by
  obtain ⟨x, hx, hp⟩ := List.mem_map.mp ((List.rdropWhile_prefix _ _).subset h)
  by_cases hxq : x = q
  · rw [if_pos hxq] at hp
    exact .inl hp.symm
  · rw [if_neg hxq] at hp
    exact .inr (hp ▸ ⟨hx, hxq⟩)

theorem Inv.call (h : Inv w) {c : WatchCall} {rest : List WatchCall}
    (hcalls : w.calls = c :: rest) : Inv { w with watched := c.run w.watched, calls := rest } := by
  refine ⟨h.kernel, h.table, h.lines, h.covered, ?_⟩
  show PcOk w.ids w.collector w.regs w.table w.queue (c.run w.watched) rest w.pc
  have hpc := h.pc
  rw [hcalls] at hpc
  cases hw : w.pc <;> rw [hw] at hpc
  case resuming n timer pids =>
    obtain ⟨hjob, hun, hpids⟩ := hpc
    obtain ⟨q, rfl⟩ := hun c List.mem_cons_self
    refine ⟨hjob, fun c' hc' => hun c' (List.mem_cons_of_mem _ hc'), fun p hp hpw => ?_⟩
    rcases mem_bgUnwatchPid hpw with hp0 | ⟨hpw, hne⟩
    · exact .inl hp0
    · rcases hpids p hp hpw with hp0 | hcall
      · exact .inl hp0
      · rcases List.mem_cons.mp hcall with heq | hcall
        · exact absurd (WatchCall.unwatch.inj heq) hne
        · exact .inr hcall
  case waiting n timer done rest' stopped => exact absurd hpc.2.1 (List.cons_ne_nil c rest)
  all_goals exact hpc

/-! ### Operations on the table -/

theorem Inv.perform (h : Inv w) (ht : TableOk e.table)
    (hl : LinesOk e.table (w.out ++ e.lines) w.regs w.collector w.timedOut)
    (hcl : Yields (jobClaims w.regs pc.held e.table.jobs ++ kidClaims pc.kids) w.claims)
    (hcopied : pc.copied = w.pc.copied)
    (hpc : PcOk w.ids w.collector w.regs e.table w.queue w.watched e.calls pc) :
    Inv { w.perform e with pc := pc } := by
  refine ⟨h.kernel, ht, hl, ?_, hpc⟩
  show Covered (Open w.ids w.collector) (jobClaims w.regs pc.held e.table.jobs ++ kidClaims pc.kids)
    (ends (pc.copied ++ w.queue)) (slack w.ids)
  rw [hcopied]
  exact h.covered.weaken hcl (fun _ _ hopen => hopen) (fun _ => Nat.le_refl _)

theorem Inv.goto (h : Inv w) {pc₀ : Pc} (hpc₀ : w.pc = pc₀) {watched : List Pid}
    {calls : List WatchCall} (hheld : ∀ j ∈ w.table.jobs, pc.held j = pc₀.held j)
    (hkids : pc.kids = pc₀.kids) (hcopied : pc.copied = pc₀.copied)
    (hpc : PcOk w.ids w.collector w.regs w.table w.queue watched calls pc) :
    Inv { w with watched := watched, calls := calls, pc := pc } := by
  subst hpc₀
  refine ⟨h.kernel, h.table, h.lines, ?_, hpc⟩
  show Covered (Open w.ids w.collector) (jobClaims w.regs pc.held w.table.jobs ++ kidClaims pc.kids)
    (ends (pc.copied ++ w.queue)) (slack w.ids)
  rw [hcopied, hkids, jobClaims_congr (fun _ _ => rfl) hheld]
  exact h.covered

/-- The claims at a point where no command is launched or waited for. -/
theorem claims_of_quiet (hheld : w.pc.held = BgJob.pids) (hkids : w.pc.kids = []) :
    w.claims = jobClaims w.regs BgJob.pids w.table.jobs := by
  rw [World.claims, hheld, hkids]
  exact List.append_nil _

/-! ### The steps of `check_bg_jobs` -/

theorem Inv.drainCopy (h : Inv w) (hpc : w.pc = .idle) :
    Inv { w with pc := .draining w.queue, queue := [] } := by
  refine ⟨h.kernel, h.table, h.lines, ?_, fun r hr => nomatch hr⟩
  have hcl : World.claims { w with pc := .draining w.queue, queue := [] } = w.claims := by
    rw [World.claims, World.claims, hpc]
    rfl
  have hent : World.entries { w with pc := .draining w.queue, queue := [] } = w.entries := by
    show ends (w.queue ++ []) = ends (w.pc.copied ++ w.queue)
    rw [hpc, List.append_nil]
    rfl
  rw [hcl, hent]
  exact h.covered

theorem recordStatus_change (hst : st.terminal = false) :
    recordStatus t pid st = Effect.skip { t with jobs := markIn pid st.wifstopped t.jobs } := by
  rw [recordStatus, if_neg (by rw [hst]; exact Bool.false_ne_true)]

theorem recordStatus_exit (hst : st.terminal = true) :
    recordStatus t pid st = bgChildExited t pid st := by
  rw [recordStatus, if_pos hst]

theorem LinesOk.recordChange {out : List Line} {regs : ℕ → List (Pid × ℕ)} {timedOut : List ℕ}
    (h : LinesOk t out regs collector timedOut) (pid : Pid) (hst : st.terminal = false) :
    LinesOk (recordStatus t pid st).table (out ++ (recordStatus t pid st).lines) regs collector
      timedOut := by
  rw [recordStatus_change hst]
  refine h.keep (numbers_markIn _ _ _) rfl (fun m => ?_) (fun _ hu => hu)
  show completions m (out ++ []) = _
  rw [List.append_nil]

theorem Inv.drainApply (h : Inv w) {r : Record} {rest : List Record}
    (hpc : w.pc = .draining (r :: rest)) :
    Inv { w.perform (recordStatus w.table r.pid r.status) with pc := .draining rest } := by
  have hcl : w.claims = jobClaims w.regs BgJob.pids w.table.jobs :=
    claims_of_quiet (by rw [hpc]; rfl) (by rw [hpc]; rfl)
  have hent : w.entries = ends (r :: (rest ++ w.queue)) := by
    rw [World.entries, World.backlog, hpc]
    rfl
  have hpcok : PcOk w.ids w.collector w.regs w.table w.queue w.watched w.calls
      (.draining (r :: rest)) := hpc ▸ h.pc
  have hcov := h.covered
  rw [hcl, hent] at hcov
  cases hst : r.status.terminal with
  | false =>
    refine ⟨h.kernel, h.table.recordStatus _ _, ?_, ?_, hpcok⟩
    · exact h.lines.recordChange r.pid hst
    · rw [ends_cons_change hst] at hcov
      show Covered _ (jobClaims w.regs BgJob.pids
        (recordStatus w.table r.pid r.status).table.jobs ++ []) (ends (rest ++ w.queue)) _
      rw [List.append_nil, recordStatus_change hst]
      show Covered _ (jobClaims w.regs BgJob.pids (markIn _ _ w.table.jobs)) _ _
      rw [jobClaims_markIn]
      exact hcov
  | true =>
    refine ⟨h.kernel, h.table.recordStatus _ _, ?_, ?_, hpcok⟩
    · rw [recordStatus_exit hst]
      exact h.lines.childExited h.table r.pid hst (fun _ hu => hu)
    · rw [ends_cons_exit hst] at hcov
      show Covered _ (jobClaims w.regs BgJob.pids
        (recordStatus w.table r.pid r.status).table.jobs ++ []) (ends (rest ++ w.queue)) _
      rw [List.append_nil, recordStatus_exit hst]
      show Covered _ (jobClaims w.regs BgJob.pids (reapIn _ _ w.table.jobs).1) _ _
      rw [jobClaims_reapIn]
      exact hcov.serve

/-- While the sweep of `check_bg_jobs` runs, the queue is all that is left of the backlog,
    and it is about no child. -/
theorem Inv.sweeping (h : Inv w) (hpc : w.pc = .sweeping) :
    Covered (Open w.ids w.collector) (jobClaims w.regs BgJob.pids w.table.jobs) (ends w.queue)
      (slack w.ids) ∧
    ∀ r ∈ w.queue, r.status.terminal = true → r.pid ∉ w.ids.map Prod.fst := by
  have hcov := h.covered
  have hqueue := h.pc
  rw [claims_of_quiet (by rw [hpc]; rfl) (by rw [hpc]; rfl), World.entries, World.backlog, hpc]
    at hcov
  rw [hpc] at hqueue
  exact ⟨hcov, hqueue⟩

theorem Inv.sweepChange (h : Inv w) (hpc : w.pc = .sweeping)
    (hwait : waitpid w.children pid true = some (c, st)) (hst : st.terminal = false) :
    Inv ((w.collect c st .sweep).perform (recordStatus w.table pid st)) := by
  obtain ⟨hcov, hqueue⟩ := h.sweeping hpc
  obtain ⟨hids, hcol⟩ := ids_collect_change h.pids hwait hst .sweep
  refine .of_eq hids hcol h.kernel (h.table.recordStatus _ _) ?_ ?_ ?_
  · exact h.lines.recordChange pid hst
  · show Covered _ (jobClaims w.regs w.pc.held (recordStatus w.table pid st).table.jobs ++
      kidClaims w.pc.kids) (ends (w.pc.copied ++ w.queue)) _
    rw [hpc, recordStatus_change hst]
    show Covered _ (jobClaims w.regs BgJob.pids (markIn _ _ w.table.jobs) ++ []) _ _
    rw [List.append_nil, jobClaims_markIn]
    exact hcov
  · show PcOk _ _ w.regs _ w.queue w.watched _ w.pc
    rw [hpc]
    exact hqueue

theorem Inv.sweepExit (h : Inv w) (hpc : w.pc = .sweeping)
    (hwait : waitpid w.children pid true = some (c, st)) (hst : st.terminal = true) :
    Inv ((w.collect c st .sweep).perform (recordStatus w.table pid st)) := by
  obtain ⟨hcov, hqueue⟩ := h.sweeping hpc
  have hmem := id_mem_of_waitpid hwait
  obtain ⟨hids, hcol⟩ := ids_collect_exit h.pids hwait hst .sweep
  have hown := fun v => h.kernel.own_update hmem .sweep (v := v)
  -- an ended process with this pid in the queue would not be a child any more
  have hnone : valuesOf pid (ends w.queue) = [] := by
    rw [List.eq_nil_iff_forall_not_mem]
    intro u hu
    obtain ⟨r, hr, heq⟩ := List.mem_map.mp (mem_valuesOf.mp hu)
    obtain ⟨hr, hterm⟩ := List.mem_filter.mp hr
    have hpid : r.pid = pid := congrArg Prod.fst heq
    exact hqueue r hr hterm (hpid ▸ List.mem_map_of_mem hmem)
  refine .of_eq hids hcol (h.kernel.collect hmem .sweep) (h.table.recordStatus _ _) ?_ ?_ ?_
  · show LinesOk (recordStatus w.table pid st).table (w.out ++ (recordStatus w.table pid st).lines)
      _ _ _
    rw [recordStatus_exit hst]
    exact h.lines.childExited h.table pid hst hown
  · show Covered _ (jobClaims w.regs w.pc.held (recordStatus w.table pid st).table.jobs ++
      kidClaims w.pc.kids) (ends (w.pc.copied ++ w.queue)) _
    rw [hpc, recordStatus_exit hst]
    show Covered _ (jobClaims w.regs BgJob.pids (reapIn _ _ w.table.jobs).1 ++ []) _ _
    rw [List.append_nil, jobClaims_reapIn]
    refine hcov.overtake hnone (slack_le_one _ _) ?_
      (fun p hp => Nat.le_of_eq (slack_filter hp).symm)
    intro p hp v hopen
    exact (h.kernel.open_collect hmem .sweep hopen).resolve_right (fun heq => hp heq.1)
  · show PcOk _ _ w.regs _ w.queue w.watched _ w.pc
    rw [hpc]
    intro r hr hterm hpid
    exact hqueue r hr hterm ((List.filter_sublist.map _).subset hpid)

/-! ### Processes a command waits for itself -/

/-- A command collects the end of a process, and a claim with its pid is given up. -/
theorem covered_ownExit {nextUid : ℕ} (hk : KernelOk ids nextUid collector)
    {cl cl' : List (Pid × (ℕ → Prop))} {q : List (Pid × ℕ)}
    (h : Covered (Open ids collector) cl q (slack ids)) {u : ℕ} {stage : Bool}
    (hmem : (p, u, stage) ∈ ids) (hcl : Yields cl' cl)
    (hfewer : (valuesOf p cl').length ≤ (valuesOf p cl).length - 1) :
    Covered (Open (ids.filter (·.1 ≠ p)) (Function.update collector u (some .own))) cl' q
      (slack (ids.filter (·.1 ≠ p))) :=
  h.release hcl hfewer (fun _ _ hopen => hk.open_collect_own hmem hopen) (slack_le_one _ _)
    (fun _ hne => Nat.le_of_eq (slack_filter hne).symm)

theorem valuesOf_erase_middle (l m : List (Pid × (ℕ → Prop))) (A : ℕ → Prop) :
    (valuesOf p (l ++ m)).length ≤ (valuesOf p (l ++ (p, A) :: m)).length - 1 := by
  rw [valuesOf_append, valuesOf_append, valuesOf_cons_self, List.length_append, List.length_append,
    List.length_cons]
  omega

theorem yields_erase_middle (l m : List (Pid × (ℕ → Prop))) (c : Pid × (ℕ → Prop)) :
    Yields (l ++ m) (l ++ c :: m) :=
  Yields.of_sublist ((List.sublist_cons_self c m).append_left l)

theorem kidClaims_append (l m : List Kid) : kidClaims (l ++ m) = kidClaims l ++ kidClaims m :=
  List.map_append

theorem claims_of_launching (hpc : w.pc = .launching stopped kids) :
    w.claims = jobClaims w.regs BgJob.pids w.table.jobs ++ kidClaims (stopped ++ kids) := by
  rw [World.claims, hpc]
  rfl

theorem slack_le_append (ids : List (Pid × ℕ × Bool)) (i : Pid × ℕ × Bool) (p : Pid) :
    slack ids p ≤ slack (ids ++ [i]) p := by
  rw [slack_append]
  exact Bool.toNat_le_toNat (Bool.left_le_or _ _)

theorem open_append (i : Pid × ℕ × Bool) {v : ℕ} (h : Open ids collector p v) :
    Open (ids ++ [i]) collector p v := by
  rcases h with ⟨s, hs⟩ | hown
  · exact .inl ⟨s, List.mem_append_left _ hs⟩
  · exact .inr hown

theorem Inv.fork (h : Inv w) {stage : Bool} (pc : Pc) (hpid : pid ∉ w.children.map Child.pid)
    (hheld : pc.held = BgJob.pids) (hheld' : w.pc.held = BgJob.pids)
    (hkids : stage = true ∧ (∃ name, pc.kids = w.pc.kids ++ [⟨pid, w.nextUid, name⟩]) ∨
      stage = false ∧ pc.kids = w.pc.kids) (hcopied : pc.copied = w.pc.copied)
    (hpc : ∀ ids, PcOk ids w.collector w.regs w.table w.queue
      w.watched w.calls pc) :
    Inv { w with
      children := w.children ++ [⟨pid, w.nextUid, stage, .running, none⟩]
      nextUid := w.nextUid + 1
      pc := pc } := by
  have hids : (w.children ++ [(⟨pid, w.nextUid, stage, .running, none⟩ : Child)]).map Child.id =
      w.ids ++ [(pid, w.nextUid, stage)] := List.map_append
  have hnew : pid ∉ w.ids.map Prod.fst := w.pids_ids ▸ hpid
  refine ⟨?_, h.table, h.lines, ?_, hpc _⟩
  · show KernelOk ((w.children ++ _).map Child.id) _ _
    rw [hids]
    exact h.kernel.fork hnew
  · show Covered (Open ((w.children ++ _).map Child.id) w.collector)
      (jobClaims w.regs pc.held w.table.jobs ++ kidClaims pc.kids) (ends (pc.copied ++ w.queue))
      (slack ((w.children ++ _).map Child.id))
    have hcov : Covered (Open w.ids w.collector)
        (jobClaims w.regs BgJob.pids w.table.jobs ++ kidClaims w.pc.kids) w.entries
        (slack w.ids) := by
      rw [← hheld']
      exact h.covered
    rw [hids, hheld, hcopied]
    rcases hkids with ⟨rfl, name, hkids⟩ | ⟨rfl, hkids⟩
    · rw [hkids, kidClaims_append, ← List.append_assoc]
      refine hcov.claim (u := w.nextUid) rfl (fun _ _ hopen => open_append _ hopen) ?_ ?_
        (fun p _ => slack_le_append _ _ p)
      · exact .inl ⟨true, List.mem_append_right _ (List.mem_singleton.mpr rfl)⟩
      · rw [slack_of_notMem hnew, slack_append]
        simp
    · rw [hkids]
      exact hcov.weaken (Yields.refl _) (fun _ _ hopen => open_append _ hopen)
        (fun p => slack_le_append _ _ p)

theorem Inv.forkStage (h : Inv w) {name : List Byte} (hnew : pid ∉ w.children.map Child.pid)
    (hpc : w.pc = .launching stopped kids ∨ w.pc = .idle ∧ stopped = [] ∧ kids = []) :
    Inv { w.forked pid true with
      pc := .launching stopped (kids ++ [⟨pid, w.nextUid, name⟩]) } := by
  rcases hpc with hpc | ⟨hpc, rfl, rfl⟩
  · refine h.fork _ hnew rfl (by rw [hpc]; rfl) (.inl ⟨rfl, name, ?_⟩) (by rw [hpc]; rfl)
      (fun _ => trivial)
    rw [hpc]
    exact (List.append_assoc _ _ _).symm
  · exact h.fork _ hnew rfl (by rw [hpc]; rfl) (.inl ⟨rfl, name, by rw [hpc]; rfl⟩)
      (by rw [hpc]; rfl) (fun _ => trivial)

theorem Inv.forkHelper (h : Inv w) (hnew : pid ∉ w.children.map Child.pid)
    (hpc : w.pc = .idle ∨ ∃ stopped kids, w.pc = .launching stopped kids) :
    Inv (w.forked pid false) := by
  have hheld : w.pc.held = BgJob.pids := by
    rcases hpc with hpc | ⟨stopped, kids, hpc⟩ <;> rw [hpc] <;> rfl
  refine h.fork w.pc hnew hheld hheld (.inr ⟨rfl, rfl⟩) rfl (fun ids => ?_)
  rcases hpc with hpc | ⟨stopped, kids, hpc⟩ <;> rw [hpc] <;> trivial

/-- A command collects a stop, and goes on with claims that are no stronger. -/
theorem Inv.ownChange (h : Inv w) {b : Bool} (hwait : waitpid w.children pid b = some (c, st))
    (hst : st.terminal = false) (pc : Pc)
    (hcl : Yields (jobClaims w.regs pc.held w.table.jobs ++ kidClaims pc.kids) w.claims)
    (hcopied : pc.copied = w.pc.copied)
    (hpc : PcOk w.ids w.collector w.regs w.table w.queue w.watched w.calls pc) :
    Inv { w.collect c st .own with pc := pc } := by
  obtain ⟨hids, hcol⟩ := ids_collect_change h.pids hwait hst .own
  refine .of_eq hids hcol h.kernel h.table h.lines ?_ hpc
  show Covered _ (jobClaims w.regs pc.held w.table.jobs ++ kidClaims pc.kids)
    (ends (pc.copied ++ w.queue)) _
  rw [hcopied]
  exact h.covered.weaken hcl (fun _ _ hopen => hopen) (fun _ => Nat.le_refl _)

theorem Inv.ownExit (h : Inv w) {b : Bool} (hwait : waitpid w.children pid b = some (c, st))
    (hst : st.terminal = true) (pc : Pc) (hcov : Covered
      (Open (w.ids.filter (·.1 ≠ pid)) (Function.update w.collector c.uid (some .own)))
      (jobClaims w.regs pc.held w.table.jobs ++ kidClaims pc.kids) (ends (pc.copied ++ w.queue))
      (slack (w.ids.filter (·.1 ≠ pid))))
    (hpc : PcOk (w.ids.filter (·.1 ≠ pid)) (Function.update w.collector c.uid (some .own)) w.regs
      w.table w.queue w.watched w.calls pc) :
    Inv { w.collect c st .own with pc := pc } := by
  have hmem := id_mem_of_waitpid hwait
  obtain ⟨hids, hcol⟩ := ids_collect_exit h.pids hwait hst .own
  exact .of_eq hids hcol (h.kernel.collect hmem .own) h.table
    (h.lines.keep rfl rfl (fun _ => rfl) (fun _ hu => h.kernel.own_update hmem .own hu)) hcov hpc

/-- The claims left when `fg_wait` has dealt with the next stage: the stage is kept
    among the stopped ones, or its claim is given up. -/
theorem yields_nextKid (cl : List (Pid × (ℕ → Prop))) (stopped kids : List Kid) (k : Kid)
    (keep : Bool) :
    Yields (cl ++ kidClaims ((if keep then stopped ++ [k] else stopped) ++ kids))
      (cl ++ kidClaims (stopped ++ k :: kids)) := by
  refine Yields.append (Yields.refl cl) (Yields.of_sublist (List.Sublist.map _ ?_))
  cases keep with
  | true =>
    show ((stopped ++ [k]) ++ kids).Sublist (stopped ++ k :: kids)
    rw [List.append_assoc]
    exact List.Sublist.refl _
  | false => exact (List.sublist_cons_self k kids).append_left stopped

theorem Inv.fgStatus (h : Inv w) {k : Kid} (hpc : w.pc = .launching stopped (k :: kids))
    (hwait : waitpid w.children k.pid false = some (c, st)) :
    Inv { w.collect c st .own with
      pc := .launching (if st.wifstopped then stopped ++ [k] else stopped) kids } := by
  have hcl := claims_of_launching hpc
  have hcopied : w.pc.copied = [] := by rw [hpc]; rfl
  cases hst : st.terminal with
  | false =>
    refine h.ownChange hwait hst _ ?_ hcopied.symm trivial
    rw [hcl]
    exact yields_nextKid _ stopped kids k st.wifstopped
  | true =>
    rw [if_neg (not_wifstopped_of_terminal hst)]
    -- the claim that is given up is the one between the stopped stages and the rest
    refine h.ownExit hwait hst _ ?_ trivial
    have hsplit : w.claims = (jobClaims w.regs BgJob.pids w.table.jobs ++ kidClaims stopped) ++
        (k.pid, fun u => u = k.uid) :: kidClaims kids := by
      rw [hcl, kidClaims_append, List.append_assoc]
      rfl
    have hcov := h.covered
    rw [hsplit] at hcov
    have hown := covered_ownExit h.kernel hcov (id_mem_of_waitpid hwait)
      (yields_erase_middle _ _ _) (valuesOf_erase_middle _ _ _)
    rw [List.append_assoc, ← kidClaims_append] at hown
    rw [World.entries, World.backlog, hcopied] at hown
    exact hown

theorem Inv.fgGone (h : Inv w) {k : Kid} (hpc : w.pc = .launching stopped (k :: kids))
    (garbage : Bool) :
    Inv { w with pc := .launching (if garbage then stopped ++ [k] else stopped) kids } := by
  refine ⟨h.kernel, h.table, h.lines, ?_, trivial⟩
  have hcov := h.covered
  rw [claims_of_launching hpc, World.entries, World.backlog, hpc] at hcov
  exact hcov.weaken (yields_nextKid _ stopped kids k garbage) (fun _ _ hopen => hopen)
    (fun _ => Nat.le_refl _)

theorem completions_addJob (n : ℕ) (t : JobTable) (pgid : Pid) (stages : List (Pid × List Byte))
    (cmdline : List Byte) : completions n (addJob t pgid stages cmdline).1.lines = 0 := by
  rw [addJob.eq_def]
  split
  · rfl
  · split_ifs <;> rfl

theorem completions_registerBgGroup (n : ℕ) (t : JobTable) (pgid : Pid)
    (stages : List (Pid × List Byte)) (cmdline : List Byte) :
    completions n (registerBgGroup t pgid stages cmdline).lines = 0 := by
  have hadd := completions_addJob n t pgid stages cmdline
  rw [registerBgGroup]
  split
  · next e heq =>
    rw [heq] at hadd
    exact hadd
  · next e i heq => cases e.table.jobs[i]? <;> rfl

theorem completions_registerStoppedJob (n : ℕ) (t : JobTable) (pgid : Pid)
    (stages : List (Pid × List Byte)) (cmdline : List Byte) :
    completions n (registerStoppedJob t pgid stages cmdline).lines = 0 := by
  have hadd := completions_addJob n t pgid stages cmdline
  rw [registerStoppedJob]
  split
  · next e heq =>
    rw [heq] at hadd
    exact hadd
  · next e i heq => cases e.table.jobs[i]? <;> rfl

theorem completions_append_zero {lines : List Line} (hlines : ∀ n, completions n lines = 0)
    (out : List Line) (n : ℕ) : completions n (out ++ lines) = completions n out := by
  rw [completions_append, hlines, Nat.add_zero]

theorem yields_kids {reg : List (Pid × ℕ)} {l : List Kid} (hl : ∀ k ∈ l, (k.pid, k.uid) ∈ reg) :
    Yields (l.map (fun k => (k.pid, fun u => (k.pid, u) ∈ reg))) (kidClaims l) := by
  induction l with
  | nil => exact .nil
  | cons k l ih =>
    refine .cons ⟨rfl, ?_⟩ (ih (fun k' hk' => hl k' (List.mem_cons_of_mem k hk')))
    rintro u rfl
    exact hl k List.mem_cons_self

/-- The claims of the processes of a new job are those of its stages. -/
theorem yields_newJob {regs : ℕ → List (Pid × ℕ)}
    (hpids : j.pids = ((Kid.stages kids).map Prod.fst).take maxJobProcs)
    (hregs : regs j.jobNumber = (kids.take maxJobProcs).map (fun k => (k.pid, k.uid))) :
    Yields (jobClaims regs BgJob.pids [j]) (kidClaims kids) := by
  have hpids' : j.pids = (kids.take maxJobProcs).map Kid.pid := by
    rw [hpids, Kid.stages, List.map_map, List.map_take]
    rfl
  have hclaims : jobClaims regs BgJob.pids [j] = (kids.take maxJobProcs).map (fun k => (k.pid,
      fun u => (k.pid, u) ∈ (kids.take maxJobProcs).map (fun k => (k.pid, k.uid)))) ++ [] := by
    rw [jobClaims_cons, hpids', hregs, List.map_map]
    rfl
  rw [← List.take_append_drop maxJobProcs kids, kidClaims_append, hclaims]
  exact (yields_kids (fun k hk => List.mem_map_of_mem hk)).append .nil

/-- `register_bg_group` or `register_stopped_job`: the stages have become a job, or
    there is no room for it. -/
theorem Inv.register (h : Inv w) (hpc : w.pc = .launching stopped kids)
    (hcases : e.table = w.table ∨ ∃ j, Registers w.table (Kid.stages (stopped ++ kids)) e.table j)
    (hlines : ∀ n, completions n e.lines = 0) : Inv (w.register e (stopped ++ kids)) := by
  have hcl := claims_of_launching hpc
  have hcopied : w.pc.copied = [] := by rw [hpc]; rfl
  have hcov := h.covered
  rw [hcl, World.entries, World.backlog, hcopied] at hcov
  rcases hcases with htable | ⟨j, hreg⟩
  · -- there is no job to hold the claims of the stages
    have hregs : (w.register e (stopped ++ kids)).regs = w.regs := if_pos (by rw [htable])
    refine ⟨h.kernel, ?_, ?_, ?_, trivial⟩
    · show TableOk e.table
      rw [htable]
      exact h.table
    · show LinesOk e.table (w.out ++ e.lines) (w.register e (stopped ++ kids)).regs _ _
      rw [hregs, htable]
      exact h.lines.keep rfl rfl (completions_append_zero hlines w.out) (fun _ hu => hu)
    · refine hcov.weaken ?_ (fun _ _ hopen => hopen) (fun _ => Nat.le_refl _)
      show Yields (jobClaims (w.register e (stopped ++ kids)).regs BgJob.pids e.table.jobs ++ []) _
      rw [hregs, htable]
      exact (Yields.refl _).append .nil
  · have hregs : (w.register e (stopped ++ kids)).regs = Function.update w.regs j.jobNumber
        (((stopped ++ kids).take maxJobProcs).map (fun k => (k.pid, k.uid))) := by
      rw [hreg.number, ← hreg.next_eq]
      refine if_neg ?_
      rw [hreg.next_eq]
      exact Nat.succ_ne_self _
    -- the number is new, so the registrations of the other jobs stay as they are
    have hold : ∀ m, m ≤ w.table.nextJobNumber →
        (w.register e (stopped ++ kids)).regs m = w.regs m := by
      intro m hm
      rw [hregs, Function.update_of_ne]
      rw [hreg.number]
      omega
    refine ⟨h.kernel, h.table.register hreg, ?_, ?_, trivial⟩
    · refine h.lines.register ?_ hreg.next_eq (completions_append_zero hlines w.out) hold
      show e.table.jobs.map BgJob.jobNumber = _
      rw [hreg.jobs_eq, List.map_append, ← hreg.number]
      rfl
    · refine hcov.weaken ?_ (fun _ _ hopen => hopen) (fun _ => Nat.le_refl _)
      show Yields (jobClaims (w.register e (stopped ++ kids)).regs BgJob.pids e.table.jobs ++ []) _
      rw [List.append_nil, hreg.jobs_eq, jobClaims_append]
      refine Yields.append ?_ (yields_newJob hreg.pids ?_)
      · rw [jobClaims_congr (fun k hk => hold _ (h.table.bounded k hk)) (fun _ _ => rfl)]
        exact Yields.refl _
      · rw [hregs, Function.update_self]

/-- The shell waits for a helper, which never was a stage of a job. -/
theorem Inv.helperWait (h : Inv w) (hpc : w.pc = .idle) {st : Terminal}
    (hfind : w.children.find? (fun c => c.pid = pid) = some c) (hstage : c.stage = false)
    (hphase : c.phase = .zombie st) : Inv (w.collect c st .own) := by
  have hwait := waitpid_zombie hfind hphase false
  have hmem := id_mem_of_waitpid hwait
  have hself : w.collect c st .own = { w.collect c st .own with pc := .idle } := by
    rw [← hpc]
    rfl
  rw [hself]
  refine h.ownExit hwait st.2 .idle ?_ trivial
  have hcov := h.covered
  rw [claims_of_quiet (by rw [hpc]; rfl) (by rw [hpc]; rfl), World.entries, World.backlog, hpc]
    at hcov
  show Covered _ (jobClaims w.regs BgJob.pids w.table.jobs ++ []) (ends ([] ++ w.queue)) _
  rw [List.append_nil]
  refine hcov.weaken (Yields.refl _) (fun _ _ hopen => h.kernel.open_collect_own hmem hopen) ?_
  intro p
  by_cases hp : p = pid
  · have hzero : slack w.ids pid = 0 := by
      refine slack_eq_zero (fun i hi hi' => ?_)
      rw [h.kernel.eq_of_pid hi hmem hi']
      exact hstage
    rw [hp, hzero]
    exact Nat.zero_le _
  · rw [slack_filter hp]

/-! ### Commands on a job -/

/-- A command changes a job, which has the processes that were held for it. -/
theorem Inv.update (h : Inv w) {pc₀ : Pc} (hpc₀ : w.pc = pc₀) {f : BgJob → BgJob}
    (he : e.table = { w.table with jobs := updateJob n f w.table.jobs })
    (hnum : ∀ j, (f j).jobNumber = j.jobNumber)
    (hlead : ∀ j, (f j).leadReaped = j.leadReaped ∧ (f j).leadStatus = j.leadStatus)
    (hf : ∀ j, findJob w.table n = some j → Survives (f j) j ∧ (f j).pids = pc₀.held j)
    (hother : ∀ j, j.jobNumber ≠ n → pc₀.held j = j.pids)
    (hlines : ∀ m, completions m e.lines = 0) (hkids : pc₀.kids = []) (hcopied : pc₀.copied = [])
    (hheld' : pc.held = BgJob.pids) (hkids' : pc.kids = []) (hcopied' : pc.copied = [])
    (hpc : PcOk w.ids w.collector w.regs e.table w.queue w.watched e.calls pc) :
    Inv { w.perform e with pc := pc } := by
  subst hpc₀
  refine h.perform ?_ ?_ ?_ (hcopied'.trans hcopied.symm) hpc
  · rw [he]
    exact h.table.update (fun j hj => (hf j hj).1) hlead
  · rw [he]
    exact h.lines.keep (numbers_updateJob hnum _) rfl (completions_append_zero hlines w.out)
      (fun _ hu => hu)
  · rw [he, hheld', hkids', World.claims, hkids]
    rw [jobClaims_updateJob h.table.nodup hnum (fun j hj => (hf j hj).2) hother]
    exact Yields.refl _

theorem Inv.setRunning (h : Inv w) (hidle : w.pc = .idle)
    (he : e.table = (bgSetRunning w.table n).table) (hlines : ∀ m, completions m e.lines = 0)
    (hheld' : pc.held = BgJob.pids) (hkids' : pc.kids = []) (hcopied' : pc.copied = [])
    (hpc : PcOk w.ids w.collector w.regs e.table w.queue w.watched e.calls pc) :
    Inv { w.perform e with pc := pc } := by
  refine h.update hidle he (fun _ => rfl) (fun _ => ⟨rfl, rfl⟩) ?_ (fun _ _ => rfl) hlines rfl rfl
    hheld' hkids' hcopied' hpc
  exact fun j _ => ⟨markAll_survives j false, pids_markAll j false⟩

theorem Inv.pingStop (h : Inv w) (hidle : w.pc = .idle) (n : ℕ) :
    Inv (w.perform (bgSetStopped w.table n (stoppedPids w.table n (fun _ => true)))) := by
  have hself : w.perform (bgSetStopped w.table n (stoppedPids w.table n (fun _ => true))) =
      { w.perform (bgSetStopped w.table n (stoppedPids w.table n (fun _ => true))) with
        pc := .idle } := by
    rw [← hidle]
    rfl
  rw [hself]
  refine h.update hidle rfl (fun _ => rfl) (fun _ => ⟨rfl, rfl⟩) ?_ (fun _ _ => rfl) (fun _ => rfl)
    rfl rfl rfl rfl rfl trivial
  intro j hj
  have hok := h.table.jobs j (mem_of_findJob hj)
  rw [stoppedPids_all hj]
  exact ⟨keepStopped_survives hok.pids_ne_nil hok.length_pids_le (List.Sublist.refl _),
    pids_keepStopped hok.length_pids_le (fun _ hp => hp)⟩

/-! ### `resume` in the foreground -/

theorem Inv.resumeFg (h : Inv w) (hidle : w.pc = .idle) (hj : findJob w.table n = some j) :
    Inv { w.perform ⟨(bgSetRunning w.table n).table, j.pids.map WatchCall.unwatch,
      [.foreground j.cmdline], false⟩ with pc := .resuming n timer j.pids } := by
  refine h.setRunning hidle rfl (fun _ => rfl) rfl rfl rfl ⟨⟨j.markAll false, ?_, ?_⟩, ?_, ?_⟩
  · exact findJob_updateJob (f := fun j => j.markAll false) (fun _ => rfl) hj
  · exact pids_markAll j false
  · intro c hc
    obtain ⟨p, -, rfl⟩ := List.mem_map.mp hc
    exact ⟨p, rfl⟩
  · exact fun p hp _ => .inr (List.mem_map_of_mem hp)

theorem eq_of_findJob (ht : TableOk t) {k : BgJob} (hj : findJob t n = some j) (hk : k ∈ t.jobs)
    (hn : k.jobNumber = n) : k = j := by
  have hjn : j.jobNumber = n := (findJob_split ht hj).1
  exact List.inj_on_of_nodup_map ht.nodup hk (mem_of_findJob hj) (hn.trans hjn.symm)

/-- The wait of `resume_fg` starts when one of the job's processes is still there. -/
theorem Inv.resumeWait (h : Inv w) {pids : List Pid} (hpc : w.pc = .resuming n timer pids)
    (hcalls : w.calls = [])
    (hlive : ∃ p ∈ pids, ∃ u, (p, u) ∈ w.regs n ∧ ∃ c ∈ w.children, c.pid = p ∧ c.uid = u) :
    Inv { w with pc := .waiting n timer [] pids [] } := by
  have hpcok := h.pc
  rw [hpc] at hpcok
  obtain ⟨⟨j, hj, hpids⟩, -, hwatched⟩ := hpcok
  refine h.goto hpc ?_ rfl rfl ⟨⟨j, hj, ?_⟩, hcalls, ?_, ?_⟩
  · intro k hk
    show (if k.jobNumber = n then [] ++ pids else k.pids) = k.pids
    split_ifs with hn
    · rw [eq_of_findJob h.table hj hk hn, hpids]
      rfl
    · rfl
  · rw [hpids]
    exact List.Sublist.refl _
  · intro p hp hwatch
    rcases hwatched p hp hwatch with hzero | hcall
    · exact hzero
    · rw [hcalls] at hcall
      cases hcall
  · obtain ⟨p, hp, u, hreg, c, hc, rfl, rfl⟩ := hlive
    exact ⟨c.pid, c.uid, hreg, .inr (.inr ⟨hp, c.stage, List.mem_map_of_mem hc⟩)⟩

/-- The claims of processes among those registered as `reg`. -/
def pidClaims (reg : List (Pid × ℕ)) (pids : List Pid) : List (Pid × (ℕ → Prop)) :=
  pids.map (fun p => (p, fun u => (p, u) ∈ reg))

theorem pidClaims_append (reg : List (Pid × ℕ)) (l m : List Pid) :
    pidClaims reg (l ++ m) = pidClaims reg l ++ pidClaims reg m := List.map_append

/-- The claims while `resume_fg` waits, and those without the job. -/
theorem claims_waiting (ht : TableOk t) (hj : findJob t n = some j) (regs : ℕ → List (Pid × ℕ)) :
    ∃ A B, (∀ timer done rest stopped,
        jobClaims regs (Pc.waiting n timer done rest stopped).held t.jobs ++
          kidClaims (Pc.waiting n timer done rest stopped).kids =
        (A ++ pidClaims (regs n) stopped) ++ (pidClaims (regs n) rest ++ B)) ∧
      jobClaims regs BgJob.pids (bgRemoveJob t n).table.jobs = A ++ B := by
  obtain ⟨hn, l₁, l₂, hjobs, hremove, hother⟩ := findJob_split ht hj
  refine ⟨jobClaims regs BgJob.pids l₁, jobClaims regs BgJob.pids l₂, ?_, ?_⟩
  · intro timer done rest stopped
    have hheld : ∀ k ∈ l₁ ++ l₂, (Pc.waiting n timer done rest stopped).held k = k.pids :=
      fun k hk => if_neg (hother k hk)
    have hself : (Pc.waiting n timer done rest stopped).held j = stopped ++ rest := if_pos hn
    rw [hjobs, jobClaims_append, jobClaims_cons, hself, hn,
      jobClaims_congr (fun _ _ => rfl) (fun k hk => hheld k (List.mem_append_left l₂ hk)),
      jobClaims_congr (fun _ _ => rfl) (fun k hk => hheld k (List.mem_append_right l₁ hk))]
    show (_ ++ (pidClaims (regs n) (stopped ++ rest) ++ _)) ++ [] = _
    rw [List.append_nil, pidClaims_append, List.append_assoc, List.append_assoc]
  · rw [hremove, jobClaims_append]

section Accounts

variable {ids : List (Pid × ℕ × Bool)} {nextUid : ℕ} {collector : ℕ → Option Collector}
  {reg : List (Pid × ℕ)} {p : Pid} {rest stopped : List Pid}

theorem Accounted.stop (h : Accounted ids collector reg (p :: rest) stopped) :
    Accounted ids collector reg rest (stopped ++ [p]) := by
  obtain ⟨q, u, hreg, hown | hstop | ⟨hmem, hid⟩⟩ := h
  · exact ⟨q, u, hreg, .inl hown⟩
  · exact ⟨q, u, hreg, .inr (.inl (List.mem_append_left _ hstop))⟩
  · rcases List.mem_cons.mp hmem with rfl | hmem
    · exact ⟨q, u, hreg, .inr (.inl (List.mem_append_right _ List.mem_cons_self))⟩
    · exact ⟨q, u, hreg, .inr (.inr ⟨hmem, hid⟩)⟩

/-- The end of the next process is collected by the wait for it. -/
theorem Accounted.exit (h : Accounted ids collector reg (p :: rest) stopped)
    (hk : KernelOk ids nextUid collector) {v : ℕ} {stage : Bool} (hv : (p, v, stage) ∈ ids) :
    Accounted (ids.filter (·.1 ≠ p)) (Function.update collector v (some .own)) reg rest
      stopped := by
  obtain ⟨q, u, hreg, hown | hstop | ⟨hmem, s, hid⟩⟩ := h
  · exact ⟨q, u, hreg, .inl (hk.own_update hv .own hown)⟩
  · exact ⟨q, u, hreg, .inr (.inl hstop)⟩
  · by_cases hqp : q = p
    · have hu : u = v := congrArg (fun i => i.2.1) (hk.eq_of_pid hid hv hqp)
      exact ⟨q, u, hreg, .inl (by rw [hu]; exact Function.update_self ..)⟩
    · refine ⟨q, u, hreg, .inr (.inr ⟨(List.mem_cons.mp hmem).resolve_left hqp, s, ?_⟩)⟩
      exact List.mem_filter.mpr ⟨hid, decide_eq_true hqp⟩

theorem Accounted.gone (h : Accounted ids collector reg (p :: rest) stopped)
    (hp : p ∉ ids.map Prod.fst) : Accounted ids collector reg rest stopped := by
  obtain ⟨q, u, hreg, hown | hstop | ⟨hmem, s, hid⟩⟩ := h
  · exact ⟨q, u, hreg, .inl hown⟩
  · exact ⟨q, u, hreg, .inr (.inl hstop)⟩
  · refine ⟨q, u, hreg, .inr (.inr ⟨(List.mem_cons.mp hmem).resolve_left ?_, s, hid⟩)⟩
    rintro rfl
    exact hp (List.mem_map_of_mem hid)

end Accounts

/-! ### One round of the loop of `resume_fg` -/

/-- What is known when the loop comes to the process `p` of the job `n`. `A` and `B` are
    the claims of the other jobs. -/
structure AtNext (w : World) (n : ℕ) (p : Pid) (rest stopped : List Pid) (j : BgJob)
    (A B : List (Pid × (ℕ → Prop))) : Prop where
  job : findJob w.table n = some j
  pids : (stopped ++ p :: rest).Sublist j.pids
  calls : w.calls = []
  watched : ∀ q ∈ rest, q ∈ w.watched → q = 0
  accounted : Accounted w.ids w.collector (w.regs n) (p :: rest) stopped
  waiting : ∀ timer done rest stopped,
    jobClaims w.regs (Pc.waiting n timer done rest stopped).held w.table.jobs ++
      kidClaims (Pc.waiting n timer done rest stopped).kids =
    (A ++ pidClaims (w.regs n) stopped) ++ (pidClaims (w.regs n) rest ++ B)
  claims : w.claims = (A ++ pidClaims (w.regs n) stopped) ++
    (p, fun u => (p, u) ∈ w.regs n) :: (pidClaims (w.regs n) rest ++ B)
  covered : Covered (Open w.ids w.collector) w.claims (ends w.queue) (slack w.ids)

section WaitNext

variable {w : World} (h : Inv w) {n : ℕ} {timer : Bool} {done rest stopped : List Pid} {p : Pid}
  (hpc : w.pc = .waiting n timer done (p :: rest) stopped)
include h hpc

theorem Inv.atNext : ∃ j A B, AtNext w n p rest stopped j A B := by
  have hpcok := h.pc
  rw [hpc] at hpcok
  obtain ⟨⟨j, hj, hsub⟩, hcalls, hwatched, hacc⟩ := hpcok
  obtain ⟨A, B, hwaiting, -⟩ := claims_waiting h.table hj w.regs
  refine ⟨j, A, B, hj, hsub, hcalls, fun r hr => hwatched r (List.mem_cons_of_mem p hr), hacc,
    hwaiting, ?_, ?_⟩
  · rw [World.claims, hpc, hwaiting]
    rfl
  · have hcov := h.covered
    rw [World.entries, World.backlog, hpc] at hcov
    exact hcov

/-- A stop moves the process from the ones waited for to the stopped ones. -/
theorem Inv.waitStop (hwait : waitpid w.children p false = some (c, st))
    (hst : st.terminal = false) :
    Inv { w.collect c st .own with
      pc := .waiting n timer (done ++ [p]) rest (stopped ++ [p]) } := by
  obtain ⟨j, A, B, hat⟩ := h.atNext hpc
  have hcopied : w.pc.copied = [] := by rw [hpc]; rfl
  refine h.ownChange hwait hst _ ?_ hcopied.symm
    ⟨⟨j, hat.job, ?_⟩, hat.calls, hat.watched, hat.accounted.stop⟩
  · rw [hat.claims, hat.waiting, pidClaims_append, ← List.append_assoc A,
      List.append_assoc (A ++ _)]
    exact Yields.refl _
  · rw [List.append_assoc]
    exact hat.pids

/-- The end of the process is collected here, and its claim given up. -/
theorem Inv.waitExit (hwait : waitpid w.children p false = some (c, st))
    (hst : st.terminal = true) :
    Inv { w.collect c st .own with pc := .waiting n timer (done ++ [0]) rest stopped } := by
  obtain ⟨j, A, B, hat⟩ := h.atNext hpc
  have hmem := id_mem_of_waitpid hwait
  have hrest : (stopped ++ rest).Sublist j.pids :=
    ((List.sublist_cons_self p rest).append_left stopped).trans hat.pids
  refine h.ownExit hwait hst _ ?_
    ⟨⟨j, hat.job, hrest⟩, hat.calls, hat.watched, hat.accounted.exit h.kernel hmem⟩
  have hcov := hat.covered
  rw [hat.claims] at hcov
  rw [hat.waiting]
  exact covered_ownExit h.kernel hcov hmem (yields_erase_middle _ _ _) (valuesOf_erase_middle _ _ _)

/-- The handler was first: `waitpid` fails and the claim is given up. -/
theorem Inv.waitGone (hgone : p ∉ w.children.map Child.pid) :
    Inv { w with pc := .waiting n timer (done ++ [0]) rest stopped } := by
  obtain ⟨j, A, B, hat⟩ := h.atNext hpc
  have hrest : (stopped ++ rest).Sublist j.pids :=
    ((List.sublist_cons_self p rest).append_left stopped).trans hat.pids
  refine ⟨h.kernel, h.table, h.lines, ?_, ⟨j, hat.job, hrest⟩, hat.calls, hat.watched,
    hat.accounted.gone (World.pids_ids w ▸ hgone)⟩
  have hcov := hat.covered
  rw [hat.claims] at hcov
  refine hcov.weaken ?_ (fun _ _ hopen => hopen) (fun _ => Nat.le_refl _)
  show Yields (jobClaims w.regs (Pc.waiting n timer _ rest stopped).held w.table.jobs ++
    kidClaims (Pc.waiting n timer _ rest stopped).kids) _
  rw [hat.waiting]
  exact yields_erase_middle _ _ _

end WaitNext

/-! ### The end of `resume_fg` -/

/-- `resume_fg` removes its job: its alarm has fired, or it has collected one of the
    job's processes itself. -/
theorem Inv.remove (h : Inv w) {done rest stopped : List Pid}
    (hpc : w.pc = .waiting n timer done rest stopped) {timedOut : List ℕ}
    (he : e.table = (bgRemoveJob w.table n).table) (hlines : ∀ m, completions m e.lines = 0)
    (htimed : ∀ m ∈ w.timedOut, m ∈ timedOut)
    (hn : n ∈ timedOut ∨ ∃ pu ∈ w.regs n, w.collector pu.2 = some .own) :
    Inv { w.perform e with pc := .idle, timedOut := timedOut } := by
  have hpcok := h.pc
  rw [hpc] at hpcok
  obtain ⟨⟨j, hj, -⟩, -⟩ := hpcok
  obtain ⟨hjn, l₁, l₂, hjobs, hremove, -⟩ := findJob_split h.table hj
  obtain ⟨A, B, hwaiting, hwithout⟩ := claims_waiting h.table hj w.regs
  have hout := completions_append_zero hlines w.out
  refine ⟨h.kernel, ?_, ?_, ?_, trivial⟩
  · show TableOk e.table
    rw [he]
    exact h.table.remove n
  · show LinesOk e.table (w.out ++ e.lines) w.regs w.collector timedOut
    rw [he]
    have hnum : w.table.jobs.map BgJob.jobNumber =
        l₁.map BgJob.jobNumber ++ n :: l₂.map BgJob.jobNumber := by
      rw [hjobs, List.map_append, List.map_cons, hjn]
    have hnum' : (bgRemoveJob w.table n).table.jobs.map BgJob.jobNumber =
        l₁.map BgJob.jobNumber ++ l₂.map BgJob.jobNumber := by
      rw [hremove, List.map_append]
    refine h.lines.leave hnum hnum' h.table rfl (fun m _ => hout m) (.inr ⟨?_, hn⟩)
      (fun _ hu => hu) htimed
    rw [hout]
    exact h.lines.live n (hjn ▸ List.mem_map_of_mem (mem_of_findJob hj))
  · have hcov := h.covered
    rw [World.claims, World.entries, World.backlog, hpc, hwaiting] at hcov
    refine hcov.weaken ?_ (fun _ _ hopen => hopen) (fun _ => Nat.le_refl _)
    show Yields (jobClaims w.regs BgJob.pids e.table.jobs ++ []) _
    rw [List.append_nil, he, hwithout]
    exact Yields.append (Yields.of_sublist (List.sublist_append_left _ _))
      (Yields.of_sublist (List.sublist_append_right _ _))

/-- The job is over: the process that was there at the start was collected here. -/
theorem Inv.resumeOver (h : Inv w) {done : List Pid} (hpc : w.pc = .waiting n timer done [] []) :
    Inv { w.perform { bgRemoveJob w.table n with lines := [] } with pc := .idle } := by
  have hpcok := h.pc
  rw [hpc] at hpcok
  obtain ⟨-, -, -, p, u, hreg, hp⟩ := hpcok
  refine h.remove hpc rfl (fun _ => rfl) (fun _ hm => hm) (.inr ⟨(p, u), hreg, ?_⟩)
  rcases hp with hown | hp | ⟨hp, -⟩
  · exact hown
  · cases hp
  · cases hp

theorem Inv.stopAgain (h : Inv w) {done stopped : List Pid}
    (hpc : w.pc = .waiting n timer done [] stopped) (hne : stopped ≠ []) :
    Inv { w.perform { bgSetStopped w.table n stopped with
        lines := (findJob w.table n).toList.map (fun j => Line.stopped n j.cmdline) } with
      pc := .idle } := by
  have hpcok := h.pc
  rw [hpc] at hpcok
  obtain ⟨⟨j, hj, hsub⟩, -⟩ := hpcok
  rw [List.append_nil] at hsub
  refine h.update hpc rfl (fun _ => rfl) (fun _ => ⟨rfl, rfl⟩) ?_ (fun _ hk => if_neg hk) ?_ rfl rfl
    rfl rfl rfl trivial
  · intro k hk
    have hkj : k = j := Option.some.inj (hk.symm.trans hj)
    subst hkj
    have hlen : stopped.length ≤ maxJobProcs :=
      Nat.le_trans hsub.length_le (h.table.jobs k (mem_of_findJob hj)).length_pids_le
    have hheld : (Pc.waiting n timer done [] stopped).held k = stopped ++ [] :=
      if_pos (findJob_split h.table hj).1
    refine ⟨keepStopped_survives hne hlen hsub, ?_⟩
    rw [pids_keepStopped hlen hsub.subset, hheld, List.append_nil]
  · intro m
    rw [hj]
    rfl

/-! ### `snoop`, and commands in a forked copy of the shell -/

section Snoop

variable {w : World} (h : Inv w) {pid : Pid} {wasWatched : Bool}
  (hpc : w.pc = .snooping pid wasWatched)
include h hpc

omit h in
theorem claims_snooped (st : WaitStatus) :
    jobClaims w.regs Pc.idle.held (bgChildExited w.table pid st).table.jobs ++
      kidClaims Pc.idle.kids = w.claims.eraseP (·.1 = pid) := by
  rw [claims_of_quiet (by rw [hpc]; rfl) (by rw [hpc]; rfl), ← jobClaims_reapIn w.regs pid st]
  exact List.append_nil _

/-- `snoop_pid` has seen the end of a process that is not a child, whose pid may be in the
    table all the same. -/
theorem Inv.snoopForeign (st : Terminal) :
    Inv { w.perform (bgChildExited w.table pid st) with pc := .idle } := by
  refine h.perform (h.table.childExited pid st.2)
    (h.lines.childExited h.table pid st.2 (fun _ hu => hu)) ?_ (by rw [hpc]; rfl) trivial
  rw [claims_snooped hpc]
  exact Yields.of_sublist List.eraseP_sublist

theorem Inv.snoopChild {st : Terminal} (hwait : waitpid w.children pid false = some (c, st.val)) :
    Inv { (w.collect c st .own).perform (bgChildExited w.table pid st) with pc := .idle } := by
  have hmem := id_mem_of_waitpid hwait
  obtain ⟨hids, hcol⟩ := ids_collect_exit h.pids hwait st.2 .own
  have hlines := h.lines.childExited h.table pid st.2
    (fun _ hu => h.kernel.own_update hmem .own hu)
  refine .of_eq hids hcol (h.kernel.collect hmem .own) (h.table.childExited pid st.2) hlines ?_
    trivial
  show Covered _ (jobClaims w.regs Pc.idle.held (bgChildExited w.table pid st).table.jobs ++
    kidClaims Pc.idle.kids) (ends ([] ++ w.queue)) _
  have hcov := h.covered
  rw [World.entries, World.backlog, hpc] at hcov
  rw [claims_snooped hpc]
  refine covered_ownExit h.kernel hcov hmem (Yields.of_sublist List.eraseP_sublist) ?_
  rw [valuesOf_eraseP_self, List.length_tail]

end Snoop

/-- A copy of the shell that has nothing to report prints nothing. -/
theorem copyLines_nil (t : JobTable) : copyLines t [] = [] := by
  rw [copyLines]

theorem lines_bgChildExited_of_notMem (h : pid ∉ t.pids) (st : WaitStatus) :
    (bgChildExited t pid st).lines = [] := by
  rcases reapIn_spec pid st t.jobs with ⟨-, heq⟩ | ⟨l₁, j, l₂, hjobs, -, hpid, -⟩
  · exact lines_of_reapIn_none (by rw [heq])
  · refine absurd (List.mem_flatMap.mpr ⟨j, ?_, hpid⟩) h
    rw [hjobs]
    exact List.mem_append_right l₁ List.mem_cons_self

theorem Inv.copy (h : Inv w) {lines : List Line} (hlines : lines = []) :
    Inv { w with out := w.out ++ lines } := by
  have hself : { w with out := w.out ++ lines } = w := by
    rw [hlines, List.append_nil]
  rw [hself]
  exact h

/-! ### Runs -/

/-- When `resume_fg` starts to wait, at least one of the job's processes has not been
    collected; and a builtin that runs in a forked copy of the shell, as a stage of a
    pipeline or in the background, finds nothing to report. -/
def Unhurried (w : World) : Event → Prop
  | .main .resumeWait => ∀ n timer pids, w.pc = .resuming n timer pids →
    ∃ p ∈ pids, ∃ u, (p, u) ∈ w.regs n ∧ ∃ c ∈ w.children, c.pid = p ∧ c.uid = u
  | .main .copyDrain => w.queue = []
  | .main (.copySnoop pid _) => pid ∉ w.table.pids
  | _ => True

/-- **Step lemma** for the program. -/
theorem Inv.act {w' : World} (h : Inv w) (hcalls : w.calls = []) {e : MainEvent}
    (hok : Unhurried w (.main e)) (hact : Acts w e w') : Inv w' := by
  cases hact with
  | forkStage hpid hnew hpc => exact h.forkStage hnew hpc
  | forkHelper hpid hnew hpc => exact h.forkHelper hnew hpc
  | fgStatus hpc hwait => exact h.fgStatus hpc hwait
  | fgGone hpc hgone => exact h.fgGone hpc _
  | registerBg hpc =>
    exact h.register hpc (registerBgGroup_adds _ _ _ _).table
      (fun n => completions_registerBgGroup n _ _ _ _)
  | @registerStopped pgid cmdline k kids hpc =>
    have hreg : Inv (w.register (registerStoppedJob w.table pgid (Kid.stages (k :: kids ++ []))
        cmdline) (k :: kids ++ [])) :=
      h.register hpc (registerStoppedJob_adds _ _ _ _).table
        (fun n => completions_registerStoppedJob n _ _ _ _)
    rw [List.append_nil] at hreg
    exact hreg
  | launchDone hpc => exact h.goto hpc (fun _ _ => rfl) rfl rfl trivial
  | helperWait hpc hfind hstage hphase => exact h.helperWait hpc hfind hstage hphase
  | drainCopy hpc => exact h.drainCopy hpc
  | drainApply hpc => exact h.drainApply hpc
  | drainEnd hpc =>
    have hpcok := h.pc
    rw [hpc] at hpcok
    exact h.goto hpc (fun _ _ => rfl) rfl rfl hpcok
  | @sweepCollect pid c st hpc hwait =>
    cases hst : st.terminal with
    | false => exact h.sweepChange hpc hwait hst
    | true => exact h.sweepExit hpc hwait hst
  | sweepEnd hpc hnone => exact h.goto hpc (fun _ _ => rfl) rfl rfl trivial
  | pingStop hpc => exact h.pingStop hpc _
  | @pingCont n hpc =>
    have hrun : Inv { w.perform (bgSetRunning w.table n) with pc := .idle } :=
      h.setRunning hpc rfl (fun _ => rfl) rfl rfl rfl trivial
    rw [← hpc] at hrun
    exact hrun
  | @resumeBg n j hpc hj =>
    have hrun : Inv { w.perform { bgSetRunning w.table n with
        lines := [.running n j.cmdline] } with pc := .idle } :=
      h.setRunning hpc rfl (fun _ => rfl) rfl rfl rfl trivial
    rw [← hpc] at hrun
    exact hrun
  | resumeFg hpc hj => exact h.resumeFg hpc hj
  | resumeWait hpc => exact h.resumeWait hpc hcalls (hok _ _ _ hpc)
  | waitStop hpc hwait hst => exact h.waitStop hpc hwait hst
  | waitExit hpc hwait hst => exact h.waitExit hpc hwait hst
  | waitGone hpc hgone => exact h.waitGone hpc hgone
  | waitTimeout hpc =>
    exact h.remove hpc rfl (fun _ => rfl) (fun _ hm => List.mem_cons_of_mem _ hm)
      (.inl List.mem_cons_self)
  | stopAgain hpc hne => exact h.stopAgain hpc hne
  | resumeOver hpc => exact h.resumeOver hpc
  | snoopBegin hpc hpid => exact h.goto hpc (fun _ _ => rfl) rfl rfl trivial
  | snoopForeign hpc hgone => exact h.snoopForeign hpc _
  | snoopChild hpc hwait => exact h.snoopChild hpc hwait
  | snoopDetached hpc => exact h.goto hpc (fun _ _ => rfl) rfl rfl trivial
  | copyDrain hpc =>
    have hqueue : w.queue = [] := hok
    refine h.copy ?_
    rw [hqueue]
    exact copyLines_nil w.table
  | copySnoop hpc => exact h.copy (lines_bgChildExited_of_notMem hok _)

/-- **Step lemma**: every step of the kernel, the handler and the program keeps the
    invariant. -/
theorem Inv.step {w' : World} (h : Inv w) {e : Event} (hok : Unhurried w e)
    (hstep : step w e = some w') : Inv w' := by
  cases step_moves hstep with
  | @change e c hfind hlive => exact h.change e.pid (KernelEvent.apply_id e)
  | turn i => exact ⟨h.kernel, h.table, h.lines, h.covered, h.pc⟩
  | reap hi hlt hroom hpid hzero hwait => exact h.reap hlt hpid hzero hwait
  | call hidle hcalls => exact h.call hcalls
  | act hidle hcalls hact => exact h.act hcalls hok hact

/-- **Run lemma**: the invariant holds in every state the shell reaches. -/
theorem inv_exec {es : List Event} (hok : Guarded step Unhurried boot es)
    (h : exec step boot es = some w) : Inv w :=
  exec_invariant_of_guarded (I := Inv) (fun _ _ _ hinv hok hstep => hinv.step hok hstep) boot_inv
    hok h

/-- A job in the table has a process whose end no one has collected, or a command
    collected it, or it is on its way to the table. -/
theorem Inv.owed (h : Inv w) (hj : j ∈ w.table.jobs) :
    ∃ pu ∈ w.regs j.jobNumber, w.collector pu.2 = none ∨ w.collector pu.2 = some .own ∨
      ∃ r ∈ w.backlog, r.status.terminal = true ∧ r.uid = pu.2 := by
  by_cases hheld : w.pc.held j = []
  · -- only a job that `resume_fg` waits for can hold no process
    have hpcok := h.pc
    have hne := (h.table.jobs j hj).pids_ne_nil
    cases hpc : w.pc <;> rw [hpc] at hheld hpcok <;> try exact absurd hheld hne
    case waiting n timer done rest stopped =>
      rw [Pc.held] at hheld
      split_ifs at hheld with hn
      · obtain ⟨-, -, -, p, u, hreg, hown | hp | ⟨hp, -⟩⟩ := hpcok
        · exact ⟨(p, u), hn ▸ hreg, .inr (.inl hown)⟩
        · exact absurd (List.mem_append_left rest hp) (hheld ▸ List.not_mem_nil)
        · exact absurd (List.mem_append_right stopped hp) (hheld ▸ List.not_mem_nil)
      · exact absurd hheld hne
  · obtain ⟨p, hp⟩ := List.exists_mem_of_ne_nil _ hheld
    have hclaim : (p, fun u => (p, u) ∈ w.regs j.jobNumber) ∈ w.claims :=
      List.mem_append_left _ (mem_jobClaims hj hp)
    obtain ⟨u, hreg, (⟨s, hid⟩ | hown) | hentry⟩ := h.covered.exists_identity hclaim
    · exact ⟨(p, u), hreg, .inl (h.kernel.uncollected _ hid)⟩
    · exact ⟨(p, u), hreg, .inr (.inl hown)⟩
    · obtain ⟨r, hr, heq⟩ := List.mem_map.mp hentry
      obtain ⟨hr, hterm⟩ := List.mem_filter.mp hr
      exact ⟨(p, u), hreg, .inr (.inr ⟨r, hr, hterm, congrArg Prod.snd heq⟩)⟩

/-- **Exactly-once completion**: no job ever gets two completion lines, and a job has
    got its line once the ends of all its processes were collected by the handler or
    the sweep of `check_bg_jobs` and have been applied, unless a timeout of `resume`
    dropped it. -/
theorem completion_exactly_once {es : List Event} {w : World}
    (hok : Guarded step Unhurried boot es) (h : exec step boot es = some w) :
    (∀ n, completions n w.out ≤ 1) ∧
    ∀ n, 0 < n → n ≤ w.table.nextJobNumber →
      (∀ pu ∈ w.regs n, w.collector pu.2 = some .handler ∨ w.collector pu.2 = some .sweep) →
      n ∉ w.timedOut →
      (∀ pu ∈ w.regs n, ∀ r ∈ w.backlog, r.status.terminal = true → r.uid ≠ pu.2) →
      completions n w.out = 1 := by
  have hinv := inv_exec hok h
  refine ⟨hinv.lines.le_one, ?_⟩
  intro n hpos hle hcollected htimed hdrained
  have hnotown : ∀ pu ∈ w.regs n, w.collector pu.2 ≠ none ∧ w.collector pu.2 ≠ some .own := by
    intro pu hpu
    rcases hcollected pu hpu with hc | hc <;> rw [hc] <;> exact ⟨nofun, nofun⟩
  -- a job that were still in the table would be owed the end of a process
  have hgone : n ∉ w.table.jobs.map BgJob.jobNumber := by
    intro hn
    obtain ⟨j, hj, rfl⟩ := List.mem_map.mp hn
    obtain ⟨pu, hpu, hc | hc | ⟨r, hr, hterm, hu⟩⟩ := hinv.owed hj
    · exact (hnotown pu hpu).1 hc
    · exact (hnotown pu hpu).2 hc
    · exact hdrained pu hpu r hr hterm hu
  rcases hinv.lines.past n hpos hle hgone with hone | htime | ⟨pu, hpu, hown⟩
  · exact hone
  · exact absurd htime htimed
  · exact absurd hown (hnotown pu hpu).2

/-- A background job with one process, which exits and is collected by the handler. -/
def launchAndExit : List Event :=
  [.main (.fork 7 true []), .main (.registerBg 7 []), .main .call,
    .kernel (.exit 7 ⟨.exited 0, rfl⟩), .handler .enter, .handler .iter, .handler .iter]

/-- A call of `check_bg_jobs` that finds one ended process in the queue. -/
def drainOne : List Event :=
  [.main .drainCopy, .main .drainApply, .main .call, .main .drainEnd, .main .sweepEnd]

theorem completion_exactly_once_one_job :
    ∃ w ∈ exec step boot (launchAndExit ++ drainOne), completions 1 w.out = 1 := by
  have hok : Guarded step Unhurried boot (launchAndExit ++ drainOne) := by
    refine guarded_of_forall_mem ?_ boot
    simp [launchAndExit, drainOne, Unhurried]
  have hrun : ∃ w ∈ exec step boot (launchAndExit ++ drainOne), 1 ≤ w.table.nextJobNumber ∧
      (∀ pu ∈ w.regs 1, w.collector pu.2 = some .handler ∨ w.collector pu.2 = some .sweep) ∧
      1 ∉ w.timedOut ∧
      ∀ pu ∈ w.regs 1, ∀ r ∈ w.backlog, r.status.terminal = true → r.uid ≠ pu.2 := by
    decide +kernel
  obtain ⟨w, hw, hle, hcollected, htimed, hdrained⟩ := hrun
  exact ⟨w, hw, (completion_exactly_once hok (Option.mem_def.mp hw)).2 1 Nat.one_pos hle hcollected
    htimed hdrained⟩

/-- `resume` takes the job before `check_bg_jobs` has seen that it is over: the wait
    finds no child, the job is removed, and its end is applied to a table without it. -/
def resumedTooLate : List Event :=
  [.main (.resumeFg 1 false), .main .call, .main .resumeWait, .main .waitNext, .main .waitEnd,
    .main .call]

/-- `activities` as a stage of a pipeline reports the end of the job from its copy of
    the queue. -/
def reportedByCopy : List Event :=
  [.main (.fork 8 true []), .main .copyDrain, .kernel (.exit 8 ⟨.exited 0, rfl⟩),
    .main (.fgWait false), .main .launchDone]

/-- **A completion line is lost, or printed twice**: in both runs the handler collected
    the end of the job's process, no timeout was set and everything has been applied. -/
theorem completion_lost_or_doubled :
    (∃ w ∈ exec step boot (launchAndExit ++ resumedTooLate ++ drainOne),
      w.regs 1 = [(7, 0)] ∧ w.collector 0 = some .handler ∧ w.timedOut = [] ∧ w.backlog = [] ∧
        w.table.nextJobNumber = 1 ∧ completions 1 w.out = 0) ∧
    ∃ w ∈ exec step boot (launchAndExit ++ reportedByCopy ++ drainOne),
      w.regs 1 = [(7, 0)] ∧ w.collector 0 = some .handler ∧ w.timedOut = [] ∧ w.backlog = [] ∧
        w.table.nextJobNumber = 1 ∧ completions 1 w.out = 2 := by
  constructor <;> decide +kernel

end MiniOs.Shell

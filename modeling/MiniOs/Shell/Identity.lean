import MiniOs.Shell.Bookkeeping
import MiniOs.Shell.Delivery

/-!
# Which process a pid in the table stands for

The shell knows its processes by their pids only, and the kernel may give a pid out
again once its owner has been collected. As long as no process gets a pid that the shell
still has on its books, a pid in a job stands for the process the job was registered
with: no child and no status on its way has that pid unless it is that process, and a
process that is no longer listed has been collected.
-/

namespace MiniOs.Shell

open Trace

variable {e : MainEvent} {j : BgJob} {pid : Pid} {st : WaitStatus} {w' : World} {x : Pid × ℕ}

/-! ### Ownership -/

/-- `m` are processes, each with its pid and which process of that pid it is, and `held`
    the pids of those that are still listed. A child or a status on its way that has
    one of these pids is that of the process; a process that no one has collected is a
    child; and one that is not listed has been collected. -/
structure Owns (ids : List (Pid × ℕ × Bool)) (collector : ℕ → Option Collector)
    (backlog : List Record) (m : List (Pid × ℕ)) (held : List Pid) : Prop where
  distinct : (m.map Prod.fst).Nodup
  nodup : held.Nodup
  listed : ∀ p ∈ held, p ∈ m.map Prod.fst
  child : ∀ x ∈ m, x.1 ∈ held → ∀ i ∈ ids, i.1 = x.1 → i.2.1 = x.2
  record : ∀ x ∈ m, x.1 ∈ held → ∀ r ∈ backlog, r.status.terminal = true → r.pid = x.1 →
    r.uid = x.2
  alive : ∀ x ∈ m, collector x.2 = none → ∃ stage, (x.1, x.2, stage) ∈ ids
  gone : ∀ x ∈ m, x.1 ∉ held → collector x.2 ≠ none

section Owns

variable {ids : List (Pid × ℕ × Bool)} {nextUid : ℕ} {collector : ℕ → Option Collector}
  {backlog : List Record} {m : List (Pid × ℕ)} {held : List Pid} {q : Pid} {u : ℕ} {stage : Bool}

theorem update_ne_none {v : ℕ} (who : Collector) (h : collector v ≠ none) :
    Function.update collector u (some who) v ≠ none := by
  by_cases hv : v = u
  · rw [hv, Function.update_self]
    exact Option.some_ne_none who
  · rw [Function.update_of_ne hv]
    exact h

theorem Owns.collect (h : Owns ids collector backlog m held) (hk : KernelOk ids nextUid collector)
    (hmem : (q, u, stage) ∈ ids) (who : Collector) :
    Owns (ids.filter (·.1 ≠ q)) (Function.update collector u (some who)) backlog m held := by
  refine ⟨h.distinct, h.nodup, h.listed, ?_, h.record, ?_, ?_⟩
  · exact fun x hx hp i hi => h.child x hx hp i (List.mem_of_mem_filter hi)
  · intro x hx hnone
    have hne : x.2 ≠ u := by
      intro heq
      rw [heq, Function.update_self] at hnone
      cases hnone
    rw [Function.update_of_ne hne] at hnone
    obtain ⟨s, hs⟩ := h.alive x hx hnone
    refine ⟨s, List.mem_filter.mpr ⟨hs, decide_eq_true (fun heq => hne ?_)⟩⟩
    exact congrArg (fun i => i.2.1) (hk.eq_of_pid hs hmem heq)
  · exact fun x hx hp => update_ne_none who (h.gone x hx hp)

theorem Owns.enqueue (h : Owns ids collector backlog m held) (hmem : (q, u, stage) ∈ ids)
    (st : WaitStatus) : Owns ids collector (backlog ++ [⟨q, u, st⟩]) m held := by
  refine ⟨h.distinct, h.nodup, h.listed, h.child, ?_, h.alive, h.gone⟩
  intro x hx hp r hr hst hpid
  rcases List.mem_append.mp hr with hr | hr
  · exact h.record x hx hp r hr hst hpid
  · cases List.mem_singleton.mp hr
    exact h.child x hx hp _ hmem hpid

theorem Owns.fork (h : Owns ids collector backlog m held) (hq : q ∉ held) :
    Owns (ids ++ [(q, nextUid, stage)]) collector backlog m held := by
  refine ⟨h.distinct, h.nodup, h.listed, ?_, h.record, ?_, h.gone⟩
  · intro x hx hp i hi hpid
    rcases List.mem_append.mp hi with hi | hi
    · exact h.child x hx hp i hi hpid
    · cases List.mem_singleton.mp hi
      have hpq : q = x.1 := hpid
      exact absurd (hpq ▸ hp) hq
  · intro x hx hnone
    obtain ⟨s, hs⟩ := h.alive x hx hnone
    exact ⟨s, List.mem_append_left _ hs⟩

/-- Only the ends among the statuses on their way matter. -/
theorem Owns.weaken {backlog' : List Record} (h : Owns ids collector backlog m held)
    (hsub : ∀ r ∈ backlog', r.status.terminal = true → r ∈ backlog) :
    Owns ids collector backlog' m held :=
  ⟨h.distinct, h.nodup, h.listed, h.child,
    fun x hx hp r hr hst => h.record x hx hp r (hsub r hr hst) hst, h.alive, h.gone⟩

/-- Processes that have been collected are no longer listed. -/
theorem Owns.shrink {held' : List Pid} (h : Owns ids collector backlog m held)
    (hnodup : held'.Nodup) (hsub : held' ⊆ held)
    (hlost : ∀ x ∈ m, x.1 ∈ held → x.1 ∉ held' → collector x.2 ≠ none) :
    Owns ids collector backlog m held' := by
  refine ⟨h.distinct, hnodup, fun p hp => h.listed p (hsub hp),
    fun x hx hp => h.child x hx (hsub hp), fun x hx hp => h.record x hx (hsub hp), h.alive, ?_⟩
  intro x hx hp
  by_cases hold : x.1 ∈ held
  · exact hlost x hx hold hp
  · exact h.gone x hx hold

theorem Owns.sublist {m' : List (Pid × ℕ)}
    (h : Owns ids collector backlog m (m.map Prod.fst)) (hsub : m'.Sublist m) :
    Owns ids collector backlog m' (m'.map Prod.fst) := by
  have hdistinct : (m'.map Prod.fst).Nodup := h.distinct.sublist (hsub.map _)
  refine ⟨hdistinct, hdistinct, fun p hp => hp, ?_, ?_, fun x hx => h.alive x (hsub.subset hx), ?_⟩
  · exact fun x hx _ => h.child x (hsub.subset hx) (List.mem_map_of_mem (hsub.subset hx))
  · exact fun x hx _ => h.record x (hsub.subset hx) (List.mem_map_of_mem (hsub.subset hx))
  · exact fun x hx hp => absurd (List.mem_map_of_mem hx) hp

theorem Owns.extend (h : Owns ids collector backlog m (m.map Prod.fst))
    (hk : KernelOk ids nextUid collector) (hmem : (q, u, stage) ∈ ids) (hq : q ∉ m.map Prod.fst)
    (hrecord : ∀ r ∈ backlog, r.status.terminal = true → r.pid ≠ q) :
    Owns ids collector backlog (m ++ [(q, u)]) ((m ++ [(q, u)]).map Prod.fst) := by
  have hdistinct : ((m ++ [(q, u)]).map Prod.fst).Nodup := by
    rw [List.map_append]
    refine h.distinct.append (List.nodup_singleton q) (fun p hp hpq => hq ?_)
    have heq : p = q := List.mem_singleton.mp hpq
    exact heq ▸ hp
  have hall : ∀ x ∈ m, x.1 ∈ m.map Prod.fst := fun x hx => List.mem_map_of_mem hx
  refine ⟨hdistinct, hdistinct, fun p hp => hp, ?_, ?_, ?_, ?_⟩
  · intro x hx _ i hi hpid
    rcases List.mem_append.mp hx with hx | hx
    · exact h.child x hx (hall x hx) i hi hpid
    · cases List.mem_singleton.mp hx
      exact congrArg (fun i => i.2.1) (hk.eq_of_pid hi hmem hpid)
  · intro x hx _ r hr hst hpid
    rcases List.mem_append.mp hx with hx | hx
    · exact h.record x hx (hall x hx) r hr hst hpid
    · cases List.mem_singleton.mp hx
      exact absurd hpid (hrecord r hr hst)
  · intro x hx hnone
    rcases List.mem_append.mp hx with hx | hx
    · exact h.alive x hx hnone
    · cases List.mem_singleton.mp hx
      exact ⟨stage, hmem⟩
  · exact fun x hx hp => absurd (List.mem_map_of_mem hx) hp

end Owns

/-! ### The invariant -/

/-- What `resume_fg` has not waited for and what has not stopped has been collected. -/
def WaitsFor (collector : ℕ → Option Collector) (regs : ℕ → List (Pid × ℕ)) (t : JobTable) :
    Pc → Prop
  | .waiting n _ _ rest stopped => ∀ j, findJob t n = some j → ∀ x ∈ regs n, x.1 ∈ j.pids →
    x.1 ∈ rest ∨ x.1 ∈ stopped ∨ collector x.2 ≠ none
  | _ => True

/-- **The invariant.** -/
structure Identified (w : World) : Prop where
  ok : WorldOk w
  jobs : ∀ j ∈ w.table.jobs, Owns w.ids w.collector w.backlog (w.regs j.jobNumber) j.pids
  kids : Owns w.ids w.collector w.backlog (w.pc.kids.map Kid.proc) ((w.pc.kids.map Kid.proc).map
    Prod.fst)
  records : ∀ r ∈ w.backlog, r.status.terminal = true → w.collector r.uid ≠ none
  waits : WaitsFor w.collector w.regs w.table w.pc

/-- The pids the shell has on its books: those of the processes in the table and of the
    stages being launched. -/
def World.books (w : World) : List Pid := w.table.pids ++ w.pc.kids.map Kid.pid

/-- No process gets a pid that the shell has on its books, or that of a process whose
    end is on its way; and a process that is traced under the pid of a process in the
    table is a child. -/
def FreshPid (w : World) : Event → Prop
  | .main (.fork pid _ _) =>
    pid ∉ w.books ∧ ∀ r ∈ w.backlog, r.status.terminal = true → r.pid ≠ pid
  | .main (.snoopExited _) =>
    match w.pc with
    | .snooping pid _ => pid ∈ w.table.pids → pid ∈ w.children.map Child.pid
    | _ => True
  | .main (.copySnoop pid _) => pid ∉ w.table.pids
  | _ => True

instance (w : World) (e : Event) : Decidable (FreshPid w e) := by
  unfold FreshPid
  split
  · infer_instance
  · split <;> infer_instance
  · infer_instance
  · infer_instance

theorem FreshPid.traced {w : World} {st : Terminal} {wasWatched : Bool}
    (h : FreshPid w (.main (.snoopExited st))) (hpc : w.pc = .snooping pid wasWatched) :
    pid ∈ w.table.pids → pid ∈ w.children.map Child.pid := by
  rw [FreshPid, hpc] at h
  exact h

theorem boot_identified : Identified boot := by
  refine ⟨boot_worldOk, (fun _ hj => nomatch hj), ?_, (fun _ hr => nomatch hr), trivial⟩
  refine ⟨List.nodup_nil, List.nodup_nil, ?_, ?_, ?_, ?_, ?_⟩ <;> intro x hx <;> cases hx

theorem pids_procs (kids : List Kid) : (kids.map Kid.proc).map Prod.fst = kids.map Kid.pid := by
  rw [List.map_map]
  rfl

/-! ### What a step does to ownership -/

/-- What the shell owns stays owned, what has been collected stays collected, and the
    ends on their way have been collected. -/
structure Carries (w w' : World) : Prop where
  owns : ∀ {m : List (Pid × ℕ)} {held : List Pid}, (∀ p ∈ held, p ∈ w.books) →
    Owns w.ids w.collector w.backlog m held → Owns w'.ids w'.collector w'.backlog m held
  collected : ∀ {u : ℕ}, w.collector u ≠ none → w'.collector u ≠ none
  records : ∀ r ∈ w'.backlog, r.status.terminal = true → w'.collector r.uid ≠ none

section Carries

variable {w w' : World} (h : Identified w)
include h

theorem carries_still (hids : w'.ids = w.ids) (hcol : w'.collector = w.collector)
    (hback : ∀ r ∈ w'.backlog, r.status.terminal = true → r ∈ w.backlog) : Carries w w' := by
  refine ⟨fun _ howns => ?_, fun hu => ?_, fun r hr hst => ?_⟩
  · rw [hids, hcol]
    exact howns.weaken hback
  · rw [hcol]
    exact hu
  · rw [hcol]
    exact h.records r (hback r hr hst) hst

theorem carries_fork {q : Pid} {stage : Bool} (hq : q ∉ w.books)
    (hids : w'.ids = w.ids ++ [(q, w.nextUid, stage)]) (hcol : w'.collector = w.collector)
    (hback : w'.backlog = w.backlog) : Carries w w' := by
  refine ⟨fun hheld howns => ?_, fun hu => ?_, fun r hr hst => ?_⟩
  · rw [hids, hcol, hback]
    exact howns.fork (fun hmem => hq (hheld q hmem))
  · rw [hcol]
    exact hu
  · rw [hcol]
    rw [hback] at hr
    exact h.records r hr hst

theorem carries_collect {b : Bool} {c : Child} {who : Collector}
    (hwait : waitpid w.children pid b = some (c, st)) (hids : w'.ids = (w.collect c st who).ids)
    (hcol : w'.collector = (w.collect c st who).collector)
    (hback : ∀ r ∈ w'.backlog, r ∈ w.backlog ∨ r = ⟨pid, c.uid, st⟩) : Carries w w' := by
  have hnd := h.ok.pids_nodup
  cases hst : st.terminal with
  | false =>
    obtain ⟨hids', hcol'⟩ := ids_collect_change hnd hwait hst who
    refine carries_still h (hids.trans hids') (hcol.trans hcol') (fun r hr hr' => ?_)
    rcases hback r hr with hr | rfl
    · exact hr
    · exact absurd (hst.symm.trans hr') Bool.false_ne_true
  | true =>
    obtain ⟨hids', hcol'⟩ := ids_collect_exit hnd hwait hst who
    have hmem := id_mem_of_waitpid hwait
    refine ⟨fun _ howns => ?_, fun hu => ?_, fun r hr hr' => ?_⟩
    · rw [hids, hids', hcol, hcol']
      refine ((howns.enqueue hmem st).collect h.ok.kernel hmem who).weaken (fun r hr _ => ?_)
      rcases hback r hr with hr | rfl
      · exact List.mem_append_left _ hr
      · exact List.mem_append_right _ List.mem_cons_self
    · rw [hcol, hcol']
      exact update_ne_none who hu
    · rw [hcol, hcol']
      rcases hback r hr with hr | rfl
      · exact update_ne_none who (h.records r hr hr')
      · rw [Function.update_self]
        exact Option.some_ne_none who

theorem Acts.carries (hact : Acts w e w') (hfresh : FreshPid w (.main e)) :
    Carries w w' := by
  have hbacklog := hact.backlog
  have hback : ∀ r ∈ w'.backlog, r ∈ w.backlog := by
    intro r hr
    rw [hbacklog]
    exact List.mem_append_right _ hr
  cases hact.onChildren with
  | same hchildren hnext hcol =>
    exact carries_still h (congrArg (List.map Child.id) hchildren) hcol (fun r hr _ => hback r hr)
  | collect who hwait hchildren hnext hcol =>
    exact carries_collect h hwait (congrArg (List.map Child.id) hchildren) hcol
      (fun r hr => .inl (hback r hr))
  | @fork pid stage name he hnew hchildren hnext hcol =>
    subst he
    have hids : w'.ids = (w.forked pid stage).ids := congrArg (List.map Child.id) hchildren
    exact carries_fork h hfresh.1 (hids.trans (w.ids_forked pid stage)) hcol hbacklog.symm

omit h in
theorem mem_backlog_enqueue {r x : Record} (hr : r ∈ w.pc.copied ++ (w.queue ++ [x])) :
    r ∈ w.backlog ∨ r = x := by
  rw [← List.append_assoc] at hr
  exact (List.mem_append.mp hr).imp_right List.mem_singleton.mp

/-- **Step lemma.** -/
theorem Moves.carries {e : Event} (hmove : Moves w e w') (hfresh : FreshPid w e) :
    Carries w w' := by
  cases hmove with
  | @change e c hfind hlive =>
    exact carries_still h (ids_changeChild (KernelEvent.apply_id e)) rfl (fun r hr _ => hr)
  | turn i => exact carries_still h rfl rfl (fun r hr _ => hr)
  | call hidle hcalls => exact carries_still h rfl rfl (fun r hr _ => hr)
  | act hidle hcalls hact => exact hact.carries h hfresh
  | reap hi hlt hroom hpid hzero hwait =>
    exact carries_collect h hwait rfl rfl (fun r hr => mem_backlog_enqueue hr)

end Carries

/-! ### What a step leaves of the jobs -/

/-- The job `k` is what is left of `j`: what is no longer listed has been collected. -/
structure Trims (collector : ℕ → Option Collector) (regs : ℕ → List (Pid × ℕ)) (k j : BgJob) :
    Prop where
  number : k.jobNumber = j.jobNumber
  pids : k.pids.Sublist j.pids
  lost : ∀ x ∈ regs j.jobNumber, x.1 ∈ j.pids → x.1 ∉ k.pids → collector x.2 ≠ none

section Trims

variable {collector : ℕ → Option Collector} {regs : ℕ → List (Pid × ℕ)}

theorem SameProcs.trims {k : BgJob} (h : SameProcs k j) : Trims collector regs k j := by
  refine ⟨h.number, ?_, fun x _ hp hlost => ?_⟩
  · rw [h.pids]
  · rw [h.pids] at hlost
    exact absurd hp hlost

theorem trims_reap
    (hgone : ∀ x ∈ regs j.jobNumber, x.1 = pid → x.1 ∈ j.pids → collector x.2 ≠ none) :
    Trims collector regs (syncJobStopped (j.reap pid st)) j := by
  refine ⟨rfl, ?_, fun x hx hp hlost => hgone x hx ?_ hp⟩
  · rw [pids_syncJobStopped, pids_reap]
    exact List.erase_sublist
  · rw [pids_syncJobStopped, pids_reap] at hlost
    by_contra hne
    exact hlost ((List.mem_erase_of_ne hne).mpr hp)

end Trims

section Ends

variable {w : World} (h : Identified w)
include h

/-- The status of a process of a job, on its way, is the end of that process. -/
theorem Identified.record_collected {r : Record} (hr : r ∈ w.backlog)
    (hst : r.status.terminal = true) (hj : j ∈ w.table.jobs) (hx : x ∈ w.regs j.jobNumber)
    (hpid : x.1 = r.pid) (hp : x.1 ∈ j.pids) :
    w.collector x.2 ≠ none := by
  rw [← (h.jobs j hj).record x hx hp r hr hst hpid.symm]
  exact h.records r hr hst

theorem Identified.child_uid {b : Bool} {c : Child}
    (hwait : waitpid w.children pid b = some (c, st)) (hj : j ∈ w.table.jobs)
    (hx : x ∈ w.regs j.jobNumber) (hpid : x.1 = pid) (hp : x.1 ∈ j.pids) :
    c.uid = x.2 :=
  (h.jobs j hj).child x hx hp _ (id_mem_of_waitpid hwait) hpid.symm

theorem Identified.child_collected {b : Bool} {c : Child}
    (hwait : waitpid w.children pid b = some (c, st)) (hst : st.terminal = true) (who : Collector)
    (hj : j ∈ w.table.jobs) (hx : x ∈ w.regs j.jobNumber) (hpid : x.1 = pid) (hp : x.1 ∈ j.pids) :
    (w.collect c st who).collector x.2 ≠ none := by
  rw [(ids_collect_exit h.ok.pids_nodup hwait hst who).2, ← h.child_uid hwait hj hx hpid hp,
    Function.update_self]
  exact Option.some_ne_none who

/-- A process of a job that is not a child has been collected. -/
theorem Identified.gone_collected (hj : j ∈ w.table.jobs) (hx : x ∈ w.regs j.jobNumber)
    (hgone : x.1 ∉ w.children.map Child.pid) :
    w.collector x.2 ≠ none := by
  intro hnone
  obtain ⟨stage, hmem⟩ := (h.jobs j hj).alive x hx hnone
  rw [← w.pids_ids] at hgone
  exact hgone (List.mem_map_of_mem hmem)

/-- The process whose end a step applies has been collected when the step is over. -/
theorem Applied.collected (happ : Applied w e pid st) (hact : Acts w e w')
    (hfresh : FreshPid w (.main e)) (hj : j ∈ w.table.jobs) (hx : x ∈ w.regs j.jobNumber)
    (hpid : x.1 = pid) (hp : x.1 ∈ j.pids) : w'.collector x.2 ≠ none := by
  cases happ with
  | drain hpc hst =>
    cases hact
    refine h.record_collected ?_ hst hj hx hpid hp
    rw [World.backlog, hpc]
    exact List.mem_append_left _ List.mem_cons_self
  | sweep hwait hst =>
    cases hact with
    | sweepCollect hpc hwait' =>
      cases hwait.symm.trans hwait'
      exact h.child_collected hwait hst .sweep hj hx hpid hp
  | @snoop pid wasWatched c st hpc hwait =>
    cases hact with
    | snoopForeign hpc' hgone =>
      cases hpc.symm.trans hpc'
      obtain ⟨hc, hcp, -⟩ := waitpid_eq_some hwait
      exact absurd (hcp ▸ List.mem_map_of_mem hc) hgone
    | snoopChild hpc' hwait' =>
      cases hpc.symm.trans hpc'
      exact h.child_collected hwait' st.2 .own hj hx hpid hp
  | @foreign pid wasWatched st hpc hgone =>
    exact absurd (hfresh.traced hpc (hpid ▸ mem_pids hj hp)) hgone
  | copy => exact absurd (hpid ▸ mem_pids hj hp) hfresh

theorem Keeps.trims {k : BgJob} (hkeeps : Keeps w e k) (hact : Acts w e w')
    (hfresh : FreshPid w (.main e)) :
    ∃ j ∈ w.table.jobs, Trims w'.collector w.regs k j := by
  cases hkeeps with
  | same hj hsame => exact ⟨_, hj, hsame.trims⟩
  | reaped hj happ hpid hk =>
    rw [hk]
    exact ⟨_, hj, trims_reap (fun x hx => happ.collected h hact hfresh hj hx)⟩
  | @stopped n timer done stopped j he hpc hne hj hk =>
    have hwaits := h.waits
    rw [hpc] at hwaits
    obtain ⟨hsub, hpids⟩ := h.ok.pids_keepStopped hpc hj
    rw [← hk] at hpids
    refine ⟨j, mem_of_findJob hj, by rw [hk]; rfl, ?_, fun x hx hp hlost => ?_⟩
    · rw [hpids]
      exact hsub
    · rw [hpids] at hlost
      rw [number_of_findJob hj] at hx
      -- what the loop neither waits for nor saw stop was collected, before this step
      have hcol : w.collector x.2 ≠ none := by
        rcases hwaits j hj x hx hp with hrest | hstopped | hcol
        · cases hrest
        · exact absurd hstopped hlost
        · exact hcol
      exact (hact.carries h hfresh).collected hcol

end Ends

/-! ### The invariant is kept -/

theorem WaitsFor.mono {collector collector' : ℕ → Option Collector} {regs : ℕ → List (Pid × ℕ)}
    {t : JobTable} {pc : Pc} (h : WaitsFor collector regs t pc)
    (hcol : ∀ {u : ℕ}, collector u ≠ none → collector' u ≠ none) :
    WaitsFor collector' regs t pc := by
  cases pc with
  | waiting n timer done rest stopped =>
    intro j hj x hx hp
    exact (h j hj x hx hp).imp_right (fun hs => hs.imp_right hcol)
  | _ => trivial

/-- The wait goes on behind `p`, which stopped or is collected now. -/
theorem WaitsFor.next {collector collector' : ℕ → Option Collector} {regs : ℕ → List (Pid × ℕ)}
    {t : JobTable} {n : ℕ} {timer : Bool} {done done' rest stopped stopped' : List Pid} {p : Pid}
    (h : WaitsFor collector regs t (.waiting n timer done (p :: rest) stopped))
    (hcol : ∀ {u : ℕ}, collector u ≠ none → collector' u ≠ none)
    (hstopped : ∀ q ∈ stopped, q ∈ stopped')
    (hp : ∀ j, findJob t n = some j → ∀ x ∈ regs n, x.1 = p → x.1 ∈ j.pids →
      x.1 ∈ stopped' ∨ collector' x.2 ≠ none) :
    WaitsFor collector' regs t (.waiting n timer done' rest stopped') := by
  intro j hj x hx hmem
  rcases h j hj x hx hmem with hrest | hstop | hold
  · rcases List.mem_cons.mp hrest with heq | hrest
    · exact .inr (hp j hj x hx heq hmem)
    · exact .inl hrest
  · exact .inr (.inl (hstopped x.1 hstop))
  · exact .inr (.inr (hcol hold))

section Step

variable {w : World} (h : Identified w)
include h

theorem Acts.waits (hact : Acts w e w') (hcarries : Carries w w') :
    WaitsFor w'.collector w'.regs w'.table w'.pc := by
  have hplaced := h.ok.placed
  have hwaits := h.waits
  have hother : ∀ {collector : ℕ → Option Collector} {t : JobTable} {pc : Pc}, w.pc = pc →
      (∀ n timer done rest stopped, pc ≠ .waiting n timer done rest stopped) →
      WaitsFor collector w.regs t w.pc := by
    intro collector t pc hpc hne
    rw [hpc]
    cases pc with
    | waiting n timer done rest stopped => exact absurd rfl (hne n timer done rest stopped)
    | _ => trivial
  cases hact with
  | resumeWait hpc =>
    rw [hpc] at hplaced
    obtain ⟨j, hj, hpids⟩ := hplaced
    intro k hk x hx hp
    cases hj.symm.trans hk
    exact .inl (hpids ▸ hp)
  | waitStop hpc hwait hst =>
    rw [hpc] at hwaits
    refine hwaits.next hcarries.collected (fun _ => List.mem_append_left _) ?_
    exact fun j _ x _ heq _ => .inl (List.mem_append_right _ (List.mem_singleton.mpr heq))
  | waitExit hpc hwait hst =>
    rw [hpc] at hwaits
    refine hwaits.next hcarries.collected (fun _ => id) (fun j hj x hx heq hp => .inr ?_)
    refine h.child_collected hwait hst .own (mem_of_findJob hj) ?_ heq hp
    rw [number_of_findJob hj]
    exact hx
  | waitGone hpc hgone =>
    rw [hpc] at hwaits
    refine hwaits.next hcarries.collected (fun _ => id) (fun j hj x hx heq hp => .inr ?_)
    refine h.gone_collected (mem_of_findJob hj) ?_ (heq ▸ hgone)
    rw [number_of_findJob hj]
    exact hx
  | forkHelper hpid hnew => exact hwaits
  | helperWait hpc => exact hother hpc nofun
  | pingStop hpc => exact hother hpc nofun
  | pingCont hpc => exact hother hpc nofun
  | resumeBg hpc hj => exact hother hpc nofun
  | sweepCollect hpc hwait => exact hother hpc nofun
  | copyDrain hpc => exact hwaits
  | copySnoop hpc => exact hwaits
  | _ => trivial

omit h in
/-- The stages being launched: there is a new one, or some are waited for. -/
theorem Acts.kids_cases (hact : Acts w e w') :
    w'.pc.kids.Sublist w.pc.kids ∨ ∃ pid name, e = .fork pid true name ∧
      w'.ids = w.ids ++ [(pid, w.nextUid, true)] ∧ w'.backlog = w.backlog ∧
      w'.pc.kids = w.pc.kids ++ [⟨pid, w.nextUid, name⟩] := by
  have hbacklog := hact.backlog
  cases hact with
  | @forkStage pid name stopped kids hpid hnew hpc =>
    refine .inr ⟨pid, name, rfl, w.ids_forked pid true, hbacklog.symm, ?_⟩
    show stopped ++ (kids ++ _) = _
    rw [← List.append_assoc]
    rcases hpc with hpc | ⟨hpc, rfl, rfl⟩
    · rw [hpc]
      rfl
    · rw [hpc]
      rfl
  | @fgStatus garbage stopped kids k c st hpc hwait =>
    rw [hpc]
    exact .inl (sublist_nextKid stopped kids k _)
  | @fgGone garbage stopped kids k hpc hgone =>
    rw [hpc]
    exact .inl (sublist_nextKid stopped kids k _)
  | forkHelper hpid hnew => exact .inl (List.Sublist.refl _)
  | helperWait hpc => exact .inl (List.Sublist.refl _)
  | pingStop hpc => exact .inl (List.Sublist.refl _)
  | pingCont hpc => exact .inl (List.Sublist.refl _)
  | resumeBg hpc hj => exact .inl (List.Sublist.refl _)
  | sweepCollect hpc hwait => exact .inl (List.Sublist.refl _)
  | copyDrain hpc => exact .inl (List.Sublist.refl _)
  | copySnoop hpc => exact .inl (List.Sublist.refl _)
  | _ => exact .inl (List.nil_sublist _)

theorem Acts.kids_owned (hact : Acts w e w') (hfresh : FreshPid w (.main e)) (hok : WorldOk w')
    (hcarries : Carries w w') :
    Owns w'.ids w'.collector w'.backlog (w'.pc.kids.map Kid.proc)
      ((w'.pc.kids.map Kid.proc).map Prod.fst) := by
  have howned := hcarries.owns (fun p hp => List.mem_append_right _ (pids_procs _ ▸ hp)) h.kids
  rcases hact.kids_cases with hsub | ⟨pid, name, rfl, hids, hback, hkids⟩
  · exact howned.sublist (hsub.map _)
  · obtain ⟨hbooks, hends⟩ := hfresh
    have hmem : (pid, w.nextUid, true) ∈ w'.ids := by
      rw [hids]
      exact List.mem_append_right _ List.mem_cons_self
    rw [hkids, List.map_append]
    refine howned.extend hok.kernel hmem (fun hp => hbooks ?_) ?_
    · exact List.mem_append_right _ (pids_procs _ ▸ hp)
    · rw [hback]
      exact hends

theorem Identified.act (hact : Acts w e w') (hfresh : FreshPid w (.main e)) (hok : WorldOk w') :
    Identified w' := by
  have hcarries := hact.carries h hfresh
  refine ⟨hok, fun k hk => ?_, hact.kids_owned h hfresh hok hcarries, hcarries.records,
    hact.waits h hcarries⟩
  have hjob : ∀ j ∈ w.table.jobs,
      Owns w'.ids w'.collector w'.backlog (w.regs j.jobNumber) j.pids := fun j hj =>
    hcarries.owns (fun p hp => List.mem_append_left _ (mem_pids hj hp)) (h.jobs j hj)
  rcases hact.jobs h.ok with ⟨j, -, hlaunch⟩ | hleaves
  · rw [hlaunch.regs]
    rcases hlaunch.mem hk with hk | rfl
    · rw [Function.update_of_ne (hlaunch.number_ne h.ok.table hk)]
      exact hjob k hk
    · have hkids : Owns w'.ids w'.collector w'.backlog (w.pc.kids.map Kid.proc)
          ((w.pc.kids.map Kid.proc).map Prod.fst) :=
        hcarries.owns (fun p hp => List.mem_append_right _ (pids_procs _ ▸ hp)) h.kids
      rw [Function.update_self, hlaunch.pids, ← pids_procs]
      exact hkids.sublist ((List.take_sublist _ _).map _)
  · obtain ⟨j, hj, htrim⟩ := (hleaves.keeps k hk).trims h hact hfresh
    have hown := hjob j hj
    rw [hleaves.regs, htrim.number]
    exact hown.shrink (hown.nodup.sublist htrim.pids) htrim.pids.subset htrim.lost

/-- **Step lemma.** -/
theorem Identified.step {e : Event} (hfresh : FreshPid w e) (hstep : step w e = some w') :
    Identified w' := by
  have hmove := step_moves hstep
  have hcarries := hmove.carries h hfresh
  have hok := h.ok.step hstep
  have hjob : ∀ j ∈ w.table.jobs,
      Owns w'.ids w'.collector w'.backlog (w.regs j.jobNumber) j.pids := fun j hj =>
    hcarries.owns (fun p hp => List.mem_append_left _ (mem_pids hj hp)) (h.jobs j hj)
  have hkids : Owns w'.ids w'.collector w'.backlog (w.pc.kids.map Kid.proc)
      ((w.pc.kids.map Kid.proc).map Prod.fst) :=
    hcarries.owns (fun p hp => List.mem_append_right _ (pids_procs _ ▸ hp)) h.kids
  cases hmove with
  | change hfind hlive => exact ⟨hok, hjob, hkids, hcarries.records, h.waits⟩
  | turn i => exact ⟨hok, hjob, hkids, hcarries.records, h.waits⟩
  | call hidle hcalls => exact ⟨hok, hjob, hkids, hcarries.records, h.waits⟩
  | reap hi hlt hroom hpid hzero hwait =>
    exact ⟨hok, hjob, hkids, hcarries.records, h.waits.mono hcarries.collected⟩
  | act hidle hcalls hact => exact h.act hact hfresh hok

end Step

/-- **Run lemma**: as long as no pid on the books is given out, a pid in the table
    stands for the process the job was registered with. -/
theorem exec_identified {es : List Event} {w : World} (hfresh : Guarded step FreshPid boot es)
    (h : exec step boot es = some w) : Identified w :=
  exec_invariant_of_guarded (I := Identified)
    (fun _ _ _ hinv hok hstep => hinv.step hok hstep) boot_identified hfresh h

end MiniOs.Shell

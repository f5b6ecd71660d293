import Mathlib.Data.List.GetD
import Mathlib.Data.List.Pairwise
import MiniOs.Shell.Bookkeeping
import MiniOs.Shell.Delivery
import MiniOs.Shell.WatchArray

/-!
# The watch list covers every tracked process

When the shell is terminated it hangs up the processes in its watch list, since the job
table cannot be read from a signal handler. A process of a tracked job may be missing
from the list only when its end is on its way to the table, or while `resume_fg` or
`snoop_pid` has it in hand.

An operation on the job table makes its calls of `bg_watch_pid` and `bg_unwatch_pid` one
by one, and the handler may run between them. The invariant says where the list will be
once the outstanding calls are made.
-/

namespace MiniOs.Shell

open Trace

variable {j k : BgJob} {l watched : List Pid} {n : ℕ} {p pid : Pid} {st : WaitStatus}
  {t : JobTable} {w w' : World}

/-! ### The list functions -/

theorem mem_rdropWhile (hp : p ∈ l) (hne : p ≠ 0) :
    p ∈ l.rdropWhile (· = 0) := by
  rw [← List.rdropWhile_append_rtakeWhile (p := fun q : Pid => decide (q = 0)) (l := l)] at hp
  rcases List.mem_append.mp hp with hp | hp
  · exact hp
  · have hzero := List.mem_rtakeWhile_imp (p := fun q : Pid => decide (q = 0)) hp
    exact absurd (of_decide_eq_true hzero) hne

theorem mem_bgUnwatchPid_of_ne {q : Pid} (hp : p ∈ watched) (hne : p ≠ 0) (hpq : p ≠ q) :
    p ∈ bgUnwatchPid watched q :=
  mem_rdropWhile (List.mem_map.mpr ⟨p, hp, if_neg hpq⟩) hne

/-- Writing to an entry that is not `p` does not remove `p`. -/
theorem mem_set_of_ne {i : ℕ} {q : Pid} (hp : p ∈ l) (hi : l.getD i 0 ≠ p) :
    p ∈ l.set i q := by
  obtain ⟨k, hk, rfl⟩ := List.mem_iff_getElem.mp hp
  have hik : i ≠ k := by
    rintro rfl
    exact hi (List.getD_eq_getElem l 0 hk)
  refine List.mem_iff_getElem.mpr ⟨k, by rw [List.length_set]; exact hk, ?_⟩
  exact List.getElem_set_of_ne hik _ _

theorem mem_bgWatchPid (q : Pid) (hp : p ∈ watched) (hne : p ≠ 0) :
    p ∈ bgWatchPid watched q := by
  rw [bgWatchPid]
  by_cases hthere : q = 0 ∨ q ∈ watched
  · rw [if_pos hthere]
    exact hp
  · rw [if_neg hthere]
    split
    · next slot hslot =>
      obtain ⟨hlt, hzero, -⟩ := List.findIdx?_eq_some_iff_getElem.mp hslot
      refine mem_set_of_ne hp ?_
      rw [List.getD_eq_getElem _ _ hlt, eq_of_beq hzero]
      exact Ne.symm hne
    · split_ifs
      · exact List.mem_append_left _ hp
      · exact hp

/-- A list that holds fewer than `MAX_WATCH` pids takes one more. -/
theorem mem_bgWatchPid_self (hne : p ≠ 0) (hroom : (watched.filter (· ≠ 0)).length < maxWatch) :
    p ∈ bgWatchPid watched p := by
  rw [bgWatchPid]
  by_cases hthere : p = 0 ∨ p ∈ watched
  · rw [if_pos hthere]
    exact hthere.resolve_left hne
  · rw [if_neg hthere]
    split
    · next slot hslot =>
      obtain ⟨hlt, -⟩ := List.findIdx?_eq_some_iff_getElem.mp hslot
      exact List.mem_iff_getElem.mpr ⟨slot, by rw [List.length_set]; exact hlt,
        List.getElem_set_self _⟩
    · next hslot =>
      -- no entry is 0, so the list has as many entries as it holds pids
      have hnone : ∀ q ∈ watched, q ≠ 0 := by
        intro q hq hzero
        have hbeq : (q == 0) = false := List.findIdx?_eq_none_iff.mp hslot q hq
        rw [hzero] at hbeq
        cases hbeq
      have hall : watched.filter (· ≠ 0) = watched :=
        List.filter_eq_self.mpr (fun q hq => decide_eq_true (hnone q hq))
      rw [hall] at hroom
      rw [if_pos hroom]
      exact List.mem_append_right _ List.mem_cons_self

/-! ### Outstanding calls -/

/-- Whether `p` is watched once the calls have been made. -/
def watchedAfter (p : Pid) : Bool → List WatchCall → Bool
  | b, [] => b
  | b, .watch q :: rest => watchedAfter p (b || decide (q = p)) rest
  | b, .unwatch q :: rest => watchedAfter p (b && !decide (q = p)) rest

theorem watchedAfter_mono {b b' : Bool} {calls : List WatchCall} (hb : b = true → b' = true)
    (h : watchedAfter p b calls = true) : watchedAfter p b' calls = true := by
  induction calls generalizing b b' with
  | nil => exact hb h
  | cons c rest ih =>
    cases c with
    | watch q =>
      refine ih (fun hor => ?_) h
      rw [Bool.or_eq_true] at hor ⊢
      exact hor.imp_left hb
    | unwatch q =>
      refine ih (fun hand => ?_) h
      rw [Bool.and_eq_true] at hand ⊢
      exact hand.imp_left hb

theorem watchedAfter_append (p : Pid) (b : Bool) (l m : List WatchCall) :
    watchedAfter p b (l ++ m) = watchedAfter p (watchedAfter p b l) m := by
  induction l generalizing b with
  | nil => rfl
  | cons c l ih =>
    cases c with
    | watch q => exact ih _
    | unwatch q => exact ih _

theorem watchedAfter_watch (p : Pid) (b : Bool) (l : List Pid) :
    watchedAfter p b (l.map WatchCall.watch) = (b || decide (p ∈ l)) := by
  induction l generalizing b with
  | nil => simp [watchedAfter]
  | cons q l ih =>
    rw [List.map_cons, watchedAfter, ih, Bool.or_assoc, ← Bool.decide_or]
    congr 1
    rw [decide_eq_decide, List.mem_cons, eq_comm]

/-- Calls of `bg_unwatch_pid` for other pids change nothing. -/
theorem watchedAfter_unwatch (hp : p ∉ l) (b : Bool) :
    watchedAfter p b (l.map WatchCall.unwatch) = b := by
  induction l generalizing b with
  | nil => rfl
  | cons q l ih =>
    rw [List.mem_cons, not_or] at hp
    rw [List.map_cons, watchedAfter, decide_eq_false (Ne.symm hp.1), Bool.not_false, Bool.and_true,
      ih hp.2]

/-! ### The invariant -/

/-- `p` is in the watch list once the outstanding calls are made, or its end is on its
    way to the table. -/
def World.covers (w : World) (p : Pid) : Prop :=
  watchedAfter p (decide (p ∈ w.watched)) w.calls = true ∨
    ∃ r ∈ w.backlog, r.pid = p ∧ r.status.terminal = true

/-- `resume_fg` or `snoop_pid` has taken `p` off the list. -/
def Pc.inHand (t : JobTable) (p : Pid) : Pc → Prop
  | resuming n _ _ => ∃ j, findJob t n = some j ∧ p ∈ j.pids
  | waiting n _ _ _ _ => ∃ j, findJob t n = some j ∧ p ∈ j.pids
  | snooping pid wasWatched => wasWatched = true ∧ p = pid
  | _ => False

def World.inHand (w : World) (p : Pid) : Prop := w.pc.inHand w.table p

theorem not_inHand {pc : Pc} (hpc : w.pc = pc) (hfree : ∀ t p, ¬ pc.inHand t p) (p : Pid) :
    ¬ w.inHand p := by
  rw [World.inHand, hpc]
  exact hfree _ p

/-- **The invariant.** -/
structure Coverage (w : World) : Prop where
  ok : WorldOk w
  distinct : w.table.pids.Nodup
  covered : ∀ j ∈ w.table.jobs, ∀ p ∈ j.pids, w.inHand p ∨ w.covers p

/-- The stages of a job that is registered have distinct pids, none of which is that of
    a process still in the table. -/
def FreshLaunch (w : World) : Event → Prop
  | .main (.registerBg _ _) => FreshPids w.table (Kid.stages w.pc.kids)
  | .main (.registerStopped _ _) => FreshPids w.table (Kid.stages w.pc.kids)
  | _ => True

instance (w : World) (e : Event) : Decidable (FreshLaunch w e) := by
  unfold FreshLaunch
  split <;> infer_instance

def WatchCall.adds : WatchCall → Bool
  | watch _ => true
  | unwatch _ => false

/-- The list does not hold `MAX_WATCH` pids when `bg_watch_pid` is called. -/
def RoomToWatch (w : World) : Event → Prop
  | .main .call =>
    w.calls.head?.any WatchCall.adds = true → (w.watched.filter (· ≠ 0)).length < maxWatch
  | _ => True

instance (w : World) (e : Event) : Decidable (RoomToWatch w e) := by
  unfold RoomToWatch
  split <;> infer_instance

theorem JobTable.pids_eq (t : JobTable) : t.pids = t.procs.map BgProc.pid := by
  rw [JobTable.procs, List.map_flatMap]
  rfl

theorem pids_bgChildExited (t : JobTable) (pid : Pid) (st : WaitStatus) :
    (bgChildExited t pid st).table.pids = t.pids.erase pid := by
  have hprocs : (bgChildExited t pid st).table.procs = t.procs.eraseP (fun p => p.pid = pid) :=
    procs_reapIn pid st t.jobs
  rw [JobTable.pids_eq, JobTable.pids_eq, hprocs, List.erase_eq_eraseP, List.eraseP_map]
  congr 2
  funext p
  show decide (p.pid = pid) = (pid == p.pid)
  rw [beq_eq_decide]
  exact decide_eq_decide.mpr eq_comm

theorem eq_of_mem_pids (h : t.pids.Nodup) (hj : j ∈ t.jobs) (hk : k ∈ t.jobs) (hpj : p ∈ j.pids)
    (hpk : p ∈ k.pids) : j = k := by
  by_contra hne
  have hsymm : Std.Symm (Function.onFun List.Disjoint BgJob.pids) :=
    ⟨fun _ _ hd _ ha hb => hd hb ha⟩
  exact (List.nodup_flatMap.mp h).2.forall hj hk hne hpj hpk

/-- What is covered stays covered when the list and the backlog lose nothing of it and
    the calls that are now outstanding do not remove it. -/
theorem covers_of_calls (h : w.covers p) (hcalls : w.calls = [])
    (hwatched : p ∈ w.watched → p ∈ w'.watched) (hafter : watchedAfter p true w'.calls = true)
    (hback : ∀ r ∈ w.backlog, r.pid = p → r.status.terminal = true → r ∈ w'.backlog) :
    w'.covers p := by
  rcases h with hlist | ⟨r, hr, hpid, hst⟩
  · rw [hcalls] at hlist
    refine .inl (watchedAfter_mono (fun _ => ?_) hafter)
    exact decide_eq_true (hwatched (of_decide_eq_true hlist))
  · exact .inr ⟨r, hback r hr hpid hst, hpid, hst⟩

/-! ### The steps of the handler and the outstanding calls -/

theorem covers_reap {i : ℕ} {c : Child} (hpid : w.watched.getD i 0 = c.pid) (h : w.covers p) :
    World.covers { w.collect c st .handler with
      watched := if st.terminal then w.watched.set i 0 else w.watched
      queue := w.queue ++ [⟨c.pid, c.uid, st⟩]
      handler := some (i + 1) } p := by
  rcases h with hlist | ⟨r, hr, hr'⟩
  · cases hst : st.terminal with
    | false => exact .inl hlist
    | true =>
      by_cases hp : p = c.pid
      · -- the end of the process is queued now
        refine .inr ⟨⟨c.pid, c.uid, st⟩, ?_, hp.symm, hst⟩
        exact List.mem_append_right _ (List.mem_append_right _ List.mem_cons_self)
      · refine .inl (watchedAfter_mono (fun hmem => decide_eq_true ?_) hlist)
        exact mem_set_of_ne (of_decide_eq_true hmem) (fun heq => hp (heq.symm.trans hpid))
  · refine .inr ⟨r, ?_, hr'⟩
    rcases List.mem_append.mp hr with hr | hr
    · exact List.mem_append_left _ hr
    · exact List.mem_append_right _ (List.mem_append_left _ hr)

theorem watchedAfter_call {c : WatchCall} {rest : List WatchCall} (hne : p ≠ 0)
    (hroom : c.adds = true → (watched.filter (· ≠ 0)).length < maxWatch)
    (h : watchedAfter p (decide (p ∈ watched)) (c :: rest) = true) :
    watchedAfter p (decide (p ∈ c.run watched)) rest = true := by
  cases c with
  | watch q =>
    refine watchedAfter_mono (fun hor => decide_eq_true ?_) h
    rw [Bool.or_eq_true, decide_eq_true_eq, decide_eq_true_eq] at hor
    rcases hor with hmem | rfl
    · exact mem_bgWatchPid q hmem hne
    · exact mem_bgWatchPid_self hne (hroom rfl)
  | unwatch q =>
    refine watchedAfter_mono (fun hand => decide_eq_true ?_) h
    rw [Bool.and_eq_true, decide_eq_true_eq, Bool.not_eq_true', decide_eq_false_iff_not] at hand
    exact mem_bgUnwatchPid_of_ne hand.1 hne (Ne.symm hand.2)

theorem RoomToWatch.call {c : WatchCall} {rest : List WatchCall} (h : RoomToWatch w (.main .call))
    (hcalls : w.calls = c :: rest) (hadds : c.adds = true) :
    (w.watched.filter (· ≠ 0)).length < maxWatch := by
  refine h ?_
  rw [hcalls]
  exact hadds

theorem covers_call {c : WatchCall} {rest : List WatchCall} (hne : p ≠ 0)
    (hcalls : w.calls = c :: rest) (hroom : RoomToWatch w (.main .call)) (h : w.covers p) :
    World.covers { w with watched := c.run w.watched, calls := rest } p := by
  rcases h with hlist | hback
  · rw [hcalls] at hlist
    exact .inl (watchedAfter_call hne (hroom.call hcalls) hlist)
  · exact .inr hback

/-! ### The steps of the program -/

/-- The job of a number is another one than a job with another number. -/
theorem not_mem_of_number (h : t.pids.Nodup) (hj : findJob t n = some j) (hk : k ∈ t.jobs)
    (hn : k.jobNumber ≠ n) (hp : p ∈ k.pids) : p ∉ j.pids := by
  intro hpj
  rw [← eq_of_mem_pids h (mem_of_findJob hj) hk hpj hp] at hn
  exact hn (number_of_findJob hj)

/-- The calls `bg_remove_job` makes do not concern another job. -/
theorem watchedAfter_remove (h : t.pids.Nodup) (hk : k ∈ t.jobs) (hn : k.jobNumber ≠ n)
    (hp : p ∈ k.pids) (b : Bool) :
    watchedAfter p b (bgRemoveJob t n).calls = b := by
  show watchedAfter p b ((findJob t n).toList.flatMap (fun j => j.pids.map WatchCall.unwatch)) = b
  cases hj : findJob t n with
  | none => rfl
  | some j =>
    rw [Option.toList_some, List.flatMap_singleton]
    exact watchedAfter_unwatch (not_mem_of_number h hj hk hn hp) b

theorem watchedAfter_setStopped (p : Pid) (t : JobTable) (n : ℕ) (pids : List Pid) :
    watchedAfter p true (bgSetStopped t n pids).calls = true := by
  show watchedAfter p true ((findJob t n).toList.flatMap _) = true
  cases findJob t n with
  | none => rfl
  | some j =>
    rw [Option.toList_some, List.flatMap_singleton, watchedAfter_watch]
    rfl

theorem watchedAfter_setStopped_mem {pids : List Pid} (hj : findJob t n = some j)
    (hp : p ∈ (j.keepStopped pids).pids) (b : Bool) :
    watchedAfter p b (bgSetStopped t n pids).calls = true := by
  show watchedAfter p b ((findJob t n).toList.flatMap _) = true
  rw [hj, Option.toList_some, List.flatMap_singleton, watchedAfter_watch, decide_eq_true hp,
    Bool.or_true]

/-- While `resume_fg` waits for a job it has no process of another job in hand. -/
theorem Coverage.not_waiting (h : Coverage w) {timer : Bool} {done rest stopped : List Pid}
    (hpc : w.pc = .waiting n timer done rest stopped) (hk : k ∈ w.table.jobs)
    (hn : k.jobNumber ≠ n) (hp : p ∈ k.pids) : ¬ w.inHand p := by
  rw [World.inHand, hpc]
  rintro ⟨j, hj, hpj⟩
  exact not_mem_of_number h.distinct hj hk hn hp hpj

/-- A job that is registered is covered by the calls that go with it. -/
theorem Coverage.launches (h : Coverage w) {kids : List Kid} (hlaunch : Launches w w' kids j)
    (hfresh : FreshPids w.table (Kid.stages kids)) (hcalls : w.calls = [])
    (hwatched : w'.watched = w.watched) (hback : ∀ r ∈ w.backlog, r ∈ w'.backlog)
    (hhand : ∀ p, ¬ w.inHand p) (hok : WorldOk w') :
    Coverage w' := by
  have hafter : ∀ p b, watchedAfter p b w'.calls =
      (b || decide (p ∈ (kids.take maxJobProcs).map Kid.pid)) := by
    intro p b
    rw [hlaunch.calls, ← watchedAfter_watch, List.map_map]
    rfl
  refine ⟨hok, ?_, fun k hk p hp => .inr ?_⟩
  · have hrep := hlaunch.registers
    rw [JobTable.pids, hrep.jobs_eq, List.flatMap_append, List.flatMap_singleton, hrep.pids]
    refine List.nodup_append.mpr ⟨h.distinct, hfresh.1.sublist (List.take_sublist _ _), ?_⟩
    intro a ha b hb hab
    obtain ⟨s, hs, rfl⟩ := List.mem_map.mp (List.mem_of_mem_take hb)
    exact hfresh.2 s hs (hab ▸ ha)
  · rcases hlaunch.mem hk with hk | rfl
    · refine covers_of_calls ((h.covered k hk p hp).resolve_left (hhand p)) hcalls
        (fun hmem => hwatched ▸ hmem) ?_ (fun r hr _ _ => hback r hr)
      rw [hafter]
      rfl
    · left
      rw [hafter, ← hlaunch.pids, decide_eq_true hp, Bool.or_true]

/-- What the end of a process leaves of the table is not about that process. -/
theorem ne_of_mem_childExited (h : t.pids.Nodup) (hk : k ∈ (bgChildExited t pid st).table.jobs)
    (hp : p ∈ k.pids) :
    p ≠ pid := by
  have hmem : p ∈ t.pids.erase pid := pids_bgChildExited t pid st ▸ mem_pids hk hp
  exact (h.mem_erase_iff.mp hmem).1

/-- A step that narrows the table and keeps what is left of it accounted for. -/
theorem Coverage.of_within (h : Coverage w) (hok : WorldOk w') (hw : Within w'.table w.table)
    (hcov : ∀ k ∈ w'.table.jobs, ∀ j ∈ w.table.jobs, k.jobNumber = j.jobNumber → ∀ p ∈ k.pids,
      p ∈ j.pids → w.inHand p ∨ w.covers p → w'.inHand p ∨ w'.covers p) : Coverage w' := by
  refine ⟨hok, h.distinct.sublist hw.narrows.pids, fun k hk p hp => ?_⟩
  obtain ⟨j, hj, hnum, hsub⟩ := hw.jobs hk
  exact hcov k hk j hj hnum p hp (hsub hp) (h.covered j hj p (hsub hp))

theorem Coverage.quiet (h : Coverage w) (hok : WorldOk w') (hw : Within w'.table w.table)
    (hcalls : w.calls = []) (hhand : ∀ p, w.inHand p → w'.inHand p)
    (hwatched : w'.watched = w.watched) (hcalls' : w'.calls = [])
    (hback : ∀ r ∈ w.backlog, r ∈ w'.backlog) : Coverage w' := by
  refine h.of_within hok hw (fun k _ j _ _ p _ _ hcov => hcov.imp (hhand p) (fun hp => ?_))
  refine covers_of_calls hp hcalls (fun hmem => hwatched ▸ hmem) ?_ (fun r hr _ _ => hback r hr)
  rw [hcalls']
  rfl

/-- The end of the process `pid` is applied, and the process taken off the list. -/
theorem Coverage.exited (h : Coverage w) (hok : WorldOk w') (hst : st.terminal = true)
    (htable : w'.table = (bgChildExited w.table pid st).table) (hcalls : w.calls = [])
    (hhand : ∀ p, w.inHand p → p = pid) (hwatched : w'.watched = w.watched)
    (hcalls' : w'.calls = [.unwatch pid]) (hback : ∀ r ∈ w.backlog, r.pid ≠ pid → r ∈ w'.backlog) :
    Coverage w' := by
  have hw : Within w'.table w.table := htable ▸ within_bgChildExited h.ok.table pid hst
  refine h.of_within hok hw (fun k hk j _ _ p hp _ hcov => .inr ?_)
  have hne : p ≠ pid := ne_of_mem_childExited h.distinct (htable ▸ hk) hp
  refine covers_of_calls (hcov.resolve_left (fun hp => hne (hhand p hp))) hcalls
    (fun hmem => hwatched ▸ hmem) ?_ (fun r hr hrp _ => hback r hr (fun heq => hne (hrp ▸ heq)))
  rw [hcalls', watchedAfter, decide_eq_false (Ne.symm hne)]
  rfl

theorem Coverage.record (h : Coverage w) (hok : WorldOk w')
    (htable : w'.table = (recordStatus w.table pid st).table) (hcalls : w.calls = [])
    (hhand : ∀ p, ¬ w.inHand p) (hwatched : w'.watched = w.watched)
    (hcalls' : w'.calls = (recordStatus w.table pid st).calls)
    (hback : ∀ r ∈ w.backlog, r.pid ≠ pid ∨ r.status.terminal ≠ st.terminal → r ∈ w'.backlog) :
    Coverage w' := by
  cases hst : st.terminal with
  | true =>
    rw [recordStatus_exit hst] at htable hcalls'
    exact h.exited hok hst htable hcalls (fun p hp => absurd hp (hhand p)) hwatched hcalls'
      (fun r hr hne => hback r hr (.inl hne))
  | false =>
    have hw : Within w'.table w.table := htable ▸ within_recordStatus h.ok.table pid st
    refine h.of_within hok hw (fun k _ j _ _ p _ _ hcov => .inr ?_)
    refine covers_of_calls (hcov.resolve_left (hhand p)) hcalls (fun hmem => hwatched ▸ hmem) ?_
      (fun r hr _ hterm => hback r hr (.inr ?_))
    · rw [hcalls', recordStatus_change hst]
      rfl
    · rw [hterm, hst]
      exact nofun

theorem Coverage.register (h : Coverage w) {kids : List Kid} {e : Effect}
    (hadds : Adds w.table (Kid.stages kids) e) (hfresh : FreshPids w.table (Kid.stages kids))
    (hcalls : w.calls = []) (hhand : ∀ p, ¬ w.inHand p)
    (hback : ∀ r ∈ w.backlog, r ∈ (w.register e kids).backlog) (hok : WorldOk (w.register e kids)) :
    Coverage (w.register e kids) := by
  rcases register_cases w hadds with ⟨htable, hcalls', -⟩ | ⟨j, hlaunch⟩
  · exact h.quiet hok (within_of_eq h.ok.table htable) hcalls (fun p hp => absurd hp (hhand p)) rfl
      hcalls' hback
  · exact h.launches hlaunch hfresh hcalls rfl hback hhand hok

theorem Coverage.resumeFg (h : Coverage w) (hok : WorldOk w') (hj : findJob w.table n = some j)
    (htable : w'.table = (bgSetRunning w.table n).table)
    (hpc : ∀ p, (∃ j, findJob w'.table n = some j ∧ p ∈ j.pids) → w'.inHand p)
    (hcalls : w.calls = []) (hhand : ∀ p, ¬ w.inHand p) (hwatched : w'.watched = w.watched)
    (hcalls' : w'.calls = j.pids.map WatchCall.unwatch) (hback : ∀ r ∈ w.backlog, r ∈ w'.backlog) :
    Coverage w' := by
  have hw : Within w'.table w.table := htable ▸ within_bgSetRunning h.ok.table n
  refine h.of_within hok hw (fun k _ i _ _ p _ _ hcov => ?_)
  by_cases hp : p ∈ j.pids
  · refine .inl (hpc p ⟨j.markAll false, ?_, (pids_markAll j false).symm ▸ hp⟩)
    rw [htable]
    exact findJob_updateJob (f := fun j => j.markAll false) (fun _ => rfl) hj
  · refine .inr (covers_of_calls (hcov.resolve_left (hhand p)) hcalls (fun hmem => hwatched ▸ hmem)
      ?_ (fun r hr _ _ => hback r hr))
    rw [hcalls', watchedAfter_unwatch hp]

/-- `resume_fg` removes the job it waits for, and may watch pids again. -/
theorem Coverage.removeJob (h : Coverage w) (hok : WorldOk w') {timer : Bool}
    {done rest stopped : List Pid} (hpc : w.pc = .waiting n timer done rest stopped)
    (htable : w'.table = (bgRemoveJob w.table n).table) (hcalls : w.calls = [])
    (hwatched : w'.watched = w.watched)
    (hcalls' : w'.calls = (bgRemoveJob w.table n).calls ++ l.map WatchCall.watch)
    (hback : ∀ r ∈ w.backlog, r ∈ w'.backlog) : Coverage w' := by
  have hw : Within w'.table w.table := htable ▸ within_bgRemoveJob h.ok.table n
  refine h.of_within hok hw (fun k hk _ _ _ p hp _ hcov => .inr ?_)
  -- what is left belongs to other jobs, which `resume_fg` does not have in hand
  obtain ⟨hmem, hn⟩ := mem_bgRemoveJob h.ok.table (htable ▸ hk)
  refine covers_of_calls (hcov.resolve_left (h.not_waiting hpc hmem hn hp)) hcalls
    (fun hmem => hwatched ▸ hmem) ?_ (fun r hr _ _ => hback r hr)
  rw [hcalls', watchedAfter_append, watchedAfter_remove h.distinct hmem hn hp, watchedAfter_watch]
  rfl

/-- `resume_fg` puts its job back with the processes that stopped. -/
theorem Coverage.stopAgain (h : Coverage w) (hok : WorldOk w') {timer : Bool}
    {done stopped : List Pid} (hpc : w.pc = .waiting n timer done [] stopped) (hne : stopped ≠ [])
    (htable : w'.table = (bgSetStopped w.table n stopped).table) (hcalls : w.calls = [])
    (hwatched : w'.watched = w.watched)
    (hcalls' : w'.calls = (bgSetStopped w.table n stopped).calls)
    (hback : ∀ r ∈ w.backlog, r ∈ w'.backlog) : Coverage w' := by
  have hplaced := h.ok.placed
  rw [hpc] at hplaced
  obtain ⟨i, hi, hsub, -⟩ := hplaced
  rw [List.append_nil] at hsub
  have hw : Within w'.table w.table := by
    rw [htable]
    refine within_bgSetStopped h.ok.table (fun j hj => ⟨hne, ?_⟩)
    cases hi.symm.trans hj
    exact hsub
  refine h.of_within hok hw (fun k hk _ _ _ p hp _ hcov => .inr ?_)
  rcases mem_bgSetStopped h.ok.table (htable ▸ hk) with ⟨hmem, hn⟩ | ⟨j, hj, rfl⟩
  · refine covers_of_calls (hcov.resolve_left (h.not_waiting hpc hmem hn hp)) hcalls
      (fun hmem => hwatched ▸ hmem) ?_ (fun r hr _ _ => hback r hr)
    rw [hcalls', watchedAfter_setStopped]
  · -- the job itself, whose processes `bg_set_stopped` watches
    left
    rw [hcalls', watchedAfter_setStopped_mem hj hp]

/-- `snoop_pid` takes the process it traces off the list. -/
theorem Coverage.snoopBegin (h : Coverage w) (hok : WorldOk w') (htable : w'.table = w.table)
    (hcalls : w.calls = []) (hhand : ∀ p, ¬ w.inHand p)
    (hpc : w'.pc = .snooping pid (pid ∈ w.watched))
    (hwatched : w'.watched = bgUnwatchPid w.watched pid) (hcalls' : w'.calls = [])
    (hback : ∀ r ∈ w.backlog, r ∈ w'.backlog) : Coverage w' := by
  refine h.of_within hok (within_of_eq h.ok.table htable) (fun k _ j hj _ p _ hpj hcov => ?_)
  have hp := hcov.resolve_left (hhand p)
  by_cases heq : p = pid
  · -- the process that is traced was watched, or its end is on its way
    rcases hp with hlist | ⟨r, hr, hr'⟩
    · rw [hcalls] at hlist
      rw [World.inHand, hpc]
      exact .inl ⟨heq ▸ hlist, heq⟩
    · exact .inr (.inr ⟨r, hback r hr, hr'⟩)
  · refine .inr (covers_of_calls hp hcalls (fun hmem => ?_) (by rw [hcalls']; rfl)
      (fun r hr _ _ => hback r hr))
    rw [hwatched]
    exact mem_bgUnwatchPid_of_ne hmem (h.ok.nonzero j hj p hpj) heq

/-- `snoop_pid` is done with a process that goes on, and watches it again if it did. -/
theorem Coverage.snoopDetached (h : Coverage w) (hok : WorldOk w') {wasWatched : Bool}
    (hpc : w.pc = .snooping pid wasWatched) (htable : w'.table = w.table) (hcalls : w.calls = [])
    (hwatched : w'.watched = w.watched)
    (hcalls' : w'.calls = if wasWatched then [.watch pid] else [])
    (hback : ∀ r ∈ w.backlog, r ∈ w'.backlog) : Coverage w' := by
  refine h.of_within hok (within_of_eq h.ok.table htable) (fun k _ j _ _ p _ _ hcov => .inr ?_)
  rcases hcov with hhand | hp
  · rw [World.inHand, hpc] at hhand
    obtain ⟨rfl, rfl⟩ := hhand
    left
    rw [hcalls', if_pos rfl, watchedAfter, decide_eq_true rfl, Bool.or_true]
    rfl
  · refine covers_of_calls hp hcalls (fun hmem => hwatched ▸ hmem) ?_ (fun r hr _ _ => hback r hr)
    rw [hcalls']
    cases wasWatched <;> rfl

/-- **Step lemma** for the program. -/
theorem Coverage.act {e : MainEvent} (h : Coverage w) (hcalls : w.calls = [])
    (hfresh : FreshLaunch w (.main e)) (hact : Acts w e w') (hok : WorldOk w') : Coverage w' := by
  have hback := hact.backlog
  have hkeep : appliedBy w (.main e) = [] → ∀ r ∈ w.backlog, r ∈ w'.backlog := by
    intro hnil r hr
    rw [hback, hnil] at hr
    exact hr
  have ht := h.ok.table
  -- what is in hand is read off the point the program is at
  have hhand : ∀ {pc : Pc}, w.pc = pc → (∀ p, pc.inHand w.table p → w'.inHand p) →
      ∀ p, w.inHand p → w'.inHand p := by
    rintro pc rfl hpc
    exact hpc
  cases hact with
  | forkStage hpid hnew hpc =>
    refine h.quiet hok (within_refl ht) hcalls ?_ rfl hcalls (hkeep rfl)
    rcases hpc with hpc | ⟨hpc, -, -⟩
    · exact hhand hpc (fun _ => id)
    · exact hhand hpc (fun _ => id)
  | forkHelper hpid hnew =>
    exact h.quiet hok (within_refl ht) hcalls (fun _ => id) rfl hcalls (hkeep rfl)
  | fgStatus hpc hwait =>
    exact h.quiet hok (within_refl ht) hcalls (hhand hpc fun _ => id) rfl hcalls (hkeep rfl)
  | fgGone hpc hgone =>
    exact h.quiet hok (within_refl ht) hcalls (hhand hpc fun _ => id) rfl hcalls (hkeep rfl)
  | @registerBg pgid cmdline kids hpc =>
    have hkids : w.pc.kids = kids := congrArg Pc.kids hpc
    rw [FreshLaunch, hkids] at hfresh
    exact h.register (registerBgGroup_adds w.table _ _ _) hfresh hcalls
      (not_inHand hpc (fun _ _ => id)) (hkeep rfl) hok
  | @registerStopped pgid cmdline k kids hpc =>
    have hkids : w.pc.kids = k :: kids := (congrArg Pc.kids hpc).trans (List.append_nil _)
    rw [FreshLaunch, hkids] at hfresh
    exact h.register (registerStoppedJob_adds w.table _ _ _) hfresh hcalls
      (not_inHand hpc (fun _ _ => id)) (hkeep rfl) hok
  | launchDone hpc =>
    exact h.quiet hok (within_refl ht) hcalls (hhand hpc fun _ => id) rfl hcalls (hkeep rfl)
  | helperWait hpc =>
    exact h.quiet hok (within_refl ht) hcalls (hhand hpc fun _ => False.elim) rfl hcalls (hkeep rfl)
  | drainCopy hpc =>
    exact h.quiet hok (within_refl ht) hcalls (hhand hpc fun _ => id) rfl hcalls (hkeep rfl)
  | @drainApply r rest hpc =>
    refine h.record hok rfl hcalls (not_inHand hpc (fun _ _ => id)) rfl rfl (fun r' hr' hne => ?_)
    rw [appliedBy, hpc] at hback
    rw [hback] at hr'
    rcases List.mem_cons.mp hr' with rfl | hr'
    · rcases hne with hne | hne
      · exact absurd rfl hne
      · exact absurd rfl hne
    · exact hr'
  | drainEnd hpc =>
    exact h.quiet hok (within_refl ht) hcalls (hhand hpc fun _ => id) rfl hcalls (hkeep rfl)
  | sweepCollect hpc hwait =>
    exact h.record hok rfl hcalls (not_inHand hpc (fun _ _ => id)) rfl rfl
      (fun r hr _ => hkeep rfl r hr)
  | sweepEnd hpc =>
    exact h.quiet hok (within_refl ht) hcalls (hhand hpc fun _ => id) rfl hcalls (hkeep rfl)
  | @pingStop n hpc =>
    refine h.of_within hok (within_pingStop ht n) (fun k _ j _ _ p _ _ hcov => .inr ?_)
    exact covers_of_calls (hcov.resolve_left (not_inHand hpc (fun _ _ => id) p)) hcalls id
      (watchedAfter_setStopped p _ _ _) (fun r hr _ _ => hkeep rfl r hr)
  | pingCont hpc =>
    exact h.quiet hok (within_bgSetRunning ht _) hcalls (hhand hpc fun _ => False.elim) rfl rfl
      (hkeep rfl)
  | resumeBg hpc hj =>
    exact h.quiet hok (within_bgSetRunning ht _) hcalls (hhand hpc fun _ => False.elim) rfl rfl
      (hkeep rfl)
  | resumeFg hpc hj =>
    exact h.resumeFg hok hj rfl (fun _ => id) hcalls (not_inHand hpc (fun _ _ => id)) rfl rfl
      (hkeep rfl)
  | resumeWait hpc =>
    exact h.quiet hok (within_refl ht) hcalls (hhand hpc fun _ => id) rfl hcalls (hkeep rfl)
  | waitStop hpc hwait hst =>
    exact h.quiet hok (within_refl ht) hcalls (hhand hpc fun _ => id) rfl hcalls (hkeep rfl)
  | waitExit hpc hwait hst =>
    exact h.quiet hok (within_refl ht) hcalls (hhand hpc fun _ => id) rfl hcalls (hkeep rfl)
  | waitGone hpc hgone =>
    exact h.quiet hok (within_refl ht) hcalls (hhand hpc fun _ => id) rfl hcalls (hkeep rfl)
  | waitTimeout hpc => exact h.removeJob hok hpc rfl hcalls rfl rfl (hkeep rfl)
  | stopAgain hpc hne => exact h.stopAgain hok hpc hne rfl hcalls rfl rfl (hkeep rfl)
  | resumeOver hpc =>
    exact h.removeJob (l := []) hok hpc rfl hcalls rfl (List.append_nil _).symm (hkeep rfl)
  | snoopBegin hpc hpid =>
    exact h.snoopBegin hok rfl hcalls (not_inHand hpc (fun _ _ => id)) rfl rfl hcalls (hkeep rfl)
  | @snoopForeign pid wasWatched st hpc hgone =>
    refine h.exited hok st.2 rfl hcalls (fun p hp => ?_) rfl rfl (fun r hr _ => hkeep rfl r hr)
    rw [World.inHand, hpc] at hp
    exact hp.2
  | @snoopChild pid wasWatched c st hpc hwait =>
    refine h.exited hok st.2 rfl hcalls (fun p hp => ?_) rfl rfl (fun r hr _ => hkeep rfl r hr)
    rw [World.inHand, hpc] at hp
    exact hp.2
  | snoopDetached hpc => exact h.snoopDetached hok hpc rfl hcalls rfl rfl (hkeep rfl)
  | copyDrain hpc =>
    exact h.quiet hok (within_refl ht) hcalls (fun _ => id) rfl hcalls (hkeep rfl)
  | copySnoop hpc =>
    exact h.quiet hok (within_refl ht) hcalls (fun _ => id) rfl hcalls (hkeep rfl)

/-! ### Runs -/

/-- **Step lemma.** -/
theorem Coverage.step {e : Event} (h : Coverage w) (hfresh : FreshLaunch w e)
    (hroom : RoomToWatch w e) (hstep : step w e = some w') : Coverage w' := by
  have hok := h.ok.step hstep
  cases step_moves hstep with
  | change hfind hlive => exact ⟨hok, h.distinct, h.covered⟩
  | turn i => exact ⟨hok, h.distinct, h.covered⟩
  | reap hi hlt hqueue hpid hzero hwait =>
    refine ⟨hok, h.distinct, fun j hj p hp => (h.covered j hj p hp).imp_right ?_⟩
    exact covers_reap hpid
  | call hidle hcalls =>
    refine ⟨hok, h.distinct, fun j hj p hp => (h.covered j hj p hp).imp_right ?_⟩
    exact covers_call (h.ok.nonzero j hj p hp) hcalls hroom
  | act hidle hcalls hact => exact h.act hcalls hfresh hact hok

/-- **Run lemma.** -/
theorem exec_coverage {es : List Event}
    (hguard : Guarded step (fun w e => FreshLaunch w e ∧ RoomToWatch w e) boot es)
    (h : exec step boot es = some w) : Coverage w := by
  have hboot : Coverage boot := ⟨boot_worldOk, List.nodup_nil, fun _ hj => nomatch hj⟩
  exact exec_invariant_of_guarded (I := Coverage)
    (fun _ _ _ hinv hok hstep => hinv.step hok.1 hok.2 hstep) hboot hguard h

/-- The program is in `resume_fg` or `snoop_pid`. -/
def Pc.foreground : Pc → Bool
  | resuming _ _ _ | waiting _ _ _ _ _ | snooping _ _ => true
  | _ => false

theorem Pc.not_inHand {pc : Pc} (h : pc.foreground = false) (t : JobTable) (p : Pid) :
    ¬ pc.inHand t p := by
  cases pc <;> first | exact id | cases h

/-- **The watch list covers every tracked process**, in runs in which no launch gets the
    pid of a process that is still in the table: outside the operations on the table,
    `resume_fg` and `snoop_pid`, each process of each job is in `watched[0 .. watch_hi)`
    or its end is in the queue or copied out of it. In every run no pid is there twice,
    and the array is 0 from `watch_hi` on. -/
theorem watch_list_covers {es : List Event} {w : World} (h : exec step boot es = some w) :
    ∀ a, a = observe step trackArray boot .init es →
    (Guarded step (fun w e => FreshLaunch w e ∧ RoomToWatch w e) boot es → w.calls = [] →
      w.pc.foreground = false → ∀ j ∈ w.table.jobs, ∀ p ∈ j.pids,
        (∃ i < a.hi, a.cells i = p) ∨ ∃ r ∈ w.backlog, r.pid = p ∧ r.status.terminal = true) ∧
    (∀ i k, a.cells i = a.cells k → a.cells i ≠ 0 → i = k) ∧
    ∀ i, a.hi ≤ i → a.cells i = 0 := by
  rintro a rfl
  have hmirror := observe_trackArray h
  refine ⟨fun hguard hcalls hpc j hj p hp => ?_, hmirror.ok.once, hmirror.ok.zero⟩
  have hcov := (exec_coverage hguard h).covered j hj p hp
  rcases hcov.resolve_left (Pc.not_inHand hpc w.table p) with hlist | hback
  · rw [hcalls] at hlist
    have hmem : p ∈ w.watched := of_decide_eq_true hlist
    rw [← hmirror.entries] at hmem
    exact .inl (WatchArray.mem_entries.mp hmem)
  · exact .inr hback

/-- A job of one process, which ends and is collected by the handler. -/
def endQueued : List Event :=
  [.main (.fork 7 true []), .main (.registerBg 7 []), .main .call,
    .kernel (.exit 7 (Terminal.exited 0)), .handler .enter, .handler .iter, .handler .iter]

/-- Before `check_bg_jobs` applies that, another job gets the pid; then its loop runs. -/
def pidReused : List Event :=
  [.main (.fork 7 true []), .main (.registerBg 7 []), .main .call, .main .drainCopy,
    .main .drainApply, .main .call, .main .drainEnd, .main .sweepEnd]

/-- **A reused pid is taken off the list**: `bg_child_exited` unwatches the pid of the
    process that ended, which now is that of the process of the second job. -/
theorem reused_pid_unwatched :
    Guarded step RoomToWatch boot (endQueued ++ pidReused) ∧
    ∃ w ∈ exec step boot (endQueued ++ pidReused),
      w.calls = [] ∧ w.pc.foreground = false ∧ (∃ j ∈ w.table.jobs, 7 ∈ j.pids) ∧
      (∀ i < (observe step trackArray boot .init (endQueued ++ pidReused)).hi,
        (observe step trackArray boot .init (endQueued ++ pidReused)).cells i ≠ 7) ∧
      w.backlog = [] ∧ 7 ∈ w.children.map Child.pid := by
  decide +kernel

theorem watch_list_covers_queued :
    ∃ w ∈ exec step boot endQueued, ∃ r ∈ w.backlog, r.pid = 7 ∧ r.status.terminal = true := by
  have hguard : Guarded step (fun w e => FreshLaunch w e ∧ RoomToWatch w e) boot endQueued := by
    decide +kernel
  have hrun : ∃ w ∈ exec step boot endQueued, w.calls = [] ∧ w.pc.foreground = false ∧
      (∃ j ∈ w.table.jobs, 7 ∈ j.pids) ∧
      ∀ i < (observe step trackArray boot .init endQueued).hi,
        (observe step trackArray boot .init endQueued).cells i ≠ 7 := by
    decide +kernel
  obtain ⟨w, hw, hcalls, hpc, ⟨j, hj, hp⟩, hnot⟩ := hrun
  have hcov := (watch_list_covers (Option.mem_def.mp hw) _ rfl).1 hguard hcalls hpc j hj 7 hp
  refine ⟨w, hw, hcov.resolve_left ?_⟩
  rintro ⟨i, hi, heq⟩
  exact hnot i hi heq

end MiniOs.Shell

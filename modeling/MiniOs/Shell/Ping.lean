import MiniOs.Shell.Arguments
import MiniOs.Shell.Pipeline
import MiniOs.Shell.WatchList

/-!
# Sending signals to jobs

`ping` sends a signal to a process or to the process group of a job, and then writes the
flags of the job itself, without waiting for the report of the kernel: stopped after a stop
signal, running after SIGCONT. A later report corrects a flag, but a process that ignores or
handles a stop signal does not stop, and there is no report.

What a signal does depends on its recipient, which may handle, ignore or default it; one that
handles it may go on, stop itself or end. The
recipients take the signal one by one, at any time after the `kill`, while the handler and
later `check_bg_jobs` go on collecting. Processes may end at any time, and nobody else stops
or continues them meanwhile.
-/

namespace MiniOs.Shell

open Trace

variable {argv : List (List Byte)} {b : Bool} {c c' : Child} {dest : ℤ} {e : Event} {n sig : ℕ}
  {p : Pid} {procs : List BgProc} {t : JobTable} {v v' : View} {w : World}

/-! ### The command -/

def sigkill : ℕ := 9

def sigchld : ℕ := 17

def sigcont : ℕ := 18

def sigstop : ℕ := 19

def sigtstp : ℕ := 20

def sigttin : ℕ := 21

def sigttou : ℕ := 22

def sigurg : ℕ := 23

def sigwinch : ℕ := 28

def isStopSignal (sig : ℕ) : Bool :=
  sig = sigstop || sig = sigtstp || sig = sigttin || sig = sigttou

def findJobByPid (t : JobTable) (pid : Pid) : Option BgJob :=
  t.jobs.find? (fun j => pid ∈ j.pids)

/-- The job that a target names, `by_job`, and `dest`. -/
def pingTarget (t : JobTable) (target : List Byte) : Option (Option (BgJob × Bool × ℤ)) :=
  if target.head? = some Byte.percent then
    (pingJobLookup t target).map fun job => job.map fun j => (j, true, -(j.pgid : ℤ))
  else
    (parsePositive (some target)).map fun pid =>
      if 0 < pid then (findJobByPid t pid.toNat).map fun j => (j, false, pid) else none

/-- What the arguments of `ping` come to. -/
inductive PingRequest where
  | invalidSyntax
  | noSuchProcess
  | send (job : BgJob) (byJob : Bool) (dest : ℤ) (sig : ℕ)

def pingRequest (argv : List (List Byte)) (t : JobTable) : Option PingRequest :=
  match argv with
  | [_, target, signal] =>
    (parseSignal (some signal)).bind fun sig =>
      if sig < 0 then some .invalidSyntax
      else (pingTarget t target).map fun found =>
        match found with
        | some (job, byJob, dest) =>
          if dest = 0 then .noSuchProcess else .send job byJob dest sig.toNat
        | none => .noSuchProcess
  | _ => some .invalidSyntax

/-- The flags that `ping` writes to all processes of the job, if it writes any. -/
def pingFlags (job : BgJob) (byJob : Bool) (sig : ℕ) : Option Bool :=
  if 0 < job.procs.length ∧ (byJob = true ∨ job.procs.length = 1) then
    if sig = sigcont then some false
    else if isStopSignal sig then some true
    else none
  else none

inductive PingReply where
  /-- `ping: invalid syntax` -/
  | invalidSyntax
  /-- `ping: no such process found` -/
  | noSuchProcess
  /-- `Sent signal %s to %s`, with the arguments as they were typed. -/
  | sent (signal target : List Byte)

/-! ### The signal -/

/-- What a process does that handles a signal: it goes on, or it stops itself, as programs do
    that put the terminal in order first, or it ends. -/
inductive Handled where
  | goesOn
  | stops (sig : ℕ)
  | ends (st : Terminal)

/-- The kernel's side of a signal: what the processes do with it, their groups, whether the
    shell may send it to them, and whether a `kill` finds processes that are not its
    children. -/
structure Signalling where
  disposition : Pid → ℕ → Disposition
  handled : Pid → ℕ → Handled
  pgid : Pid → Pid
  permitted : Pid → ℕ → Bool
  others : ℤ → Bool

variable {k : Signalling}

/-- The process is one that `kill(dest, sig)` signals. -/
def Signalling.reaches (k : Signalling) (dest : ℤ) (c : Child) : Bool :=
  dest = c.pid || dest = -1 || (dest < -1 && dest = -(k.pgid c.pid : ℤ))

/-- What a signal does to a process that gets it. A stopped one that SIGCONT continues goes on
    until it ends. -/
def Signalling.reaction (k : Signalling) (sig : ℕ) (c : Child) : Option KernelEvent :=
  match c.phase with
  | .zombie _ => none
  | .stopped =>
    if sig = sigcont then some (.cont c.pid)
    else if sig = sigkill then some (.exit c.pid (.signaled sig))
    -- any other signal waits until the process goes on
    else none
  | .running =>
    if sig = 0 then none
    else if sig = sigkill then some (.exit c.pid (.signaled sig))
    else if sig = sigstop then some (.stop c.pid sig)
    else
      match k.disposition c.pid sig with
      | .ign => none
      | .handler =>
        match k.handled c.pid sig with
        | .goesOn => none
        | .stops sig' => some (.stop c.pid sig')
        | .ends st => some (.exit c.pid st)
      | .dfl =>
        if isStopSignal sig then some (.stop c.pid sig)
        else if sig = sigcont ∨ sig = sigchld ∨ sig = sigurg ∨ sig = sigwinch then none
        else some (.exit c.pid (.signaled sig))

/-- `kill(dest, sig)`: what it will do to the children, unless it fails with `ESRCH`. When it
    fails with `EPERM`, it does nothing, and `ping` goes on. -/
def Signalling.kill (k : Signalling) (children : List Child) (dest : ℤ) (sig : ℕ) :
    Option (List KernelEvent) :=
  let found := children.filter (k.reaches dest)
  if found.isEmpty ∧ k.others dest = false then none
  else some ((found.filter (fun c => k.permitted c.pid sig)).filterMap (k.reaction sig))

/-! ### The command among the steps of the shell -/

/-- Where `ping` is: before its `kill`, before it writes flags, or done. -/
inductive PingStage where
  | checking
  | marking (jobNumber : ℕ) (stopped : Bool)
  | done
  deriving DecidableEq

/-- Where `ping` is after a `kill`, with the flags that it writes. -/
def PingStage.afterKill (jobNumber : ℕ) : Option Bool → PingStage
  | some b => .marking jobNumber b
  | none => .done

/-- The shell with a `ping`; `due` is what its signal will do to processes that have not
    taken it. -/
structure PingState where
  world : World
  due : List KernelEvent
  stage : PingStage
  reply : Option PingReply

def PingState.start (w : World) : PingState := ⟨w, [], .checking, none⟩

/-- The command ends without having sent anything. -/
def PingState.finish (s : PingState) (reply : PingReply) : PingState :=
  { s with stage := .done, reply := some reply }

/-- A step of the shell, the `kill`, a process that takes the signal, and the flags. -/
inductive PingEvent where
  | event (e : Event)
  | send
  | take (pid : Pid)
  | mark

/-- From the lookup to the `kill`, which nothing of the program comes between. -/
def pingSend (k : Signalling) (argv : List (List Byte)) (s : PingState) : Option PingState :=
  (pingRequest argv s.world.table).map fun request =>
    match request with
    | .invalidSyntax => s.finish .invalidSyntax
    | .noSuchProcess => s.finish .noSuchProcess
    | .send job byJob dest sig =>
      match k.kill s.world.children dest sig with
      | none => s.finish .noSuchProcess
      | some due =>
        { s with
          due := due
          stage := .afterKill job.jobNumber (pingFlags job byJob sig)
          reply := some (.sent (argv.getD 2 []) (argv.getD 1 [])) }

/-- A process takes the signal, or has ended before it could. -/
def takeSignal (s : PingState) (pid : Pid) : Option PingState :=
  (s.due.find? (fun e => e.pid = pid)).bind fun e =>
    let due := s.due.filter (fun e => e.pid ≠ pid)
    match phaseOf s.world.children pid with
    | some .running | some .stopped =>
      (kernelStep s.world e).map fun w => { s with world := w, due := due }
    | _ => some { s with due := due }

/-- `bg_set_stopped` or `bg_set_running`. -/
def pingMark (jobNumber : ℕ) (stopped : Bool) : MainEvent :=
  if stopped then .pingStop jobNumber else .pingCont jobNumber

/-- The event may happen during the command: nothing but the signal stops or continues a
    process, and the program does nothing else before it has written the flags. -/
def PingState.allows (s : PingState) (e : Event) : Bool :=
  e.reaping && e.signal = none &&
    match s.stage, e with
    | .marking _ _, .main _ => false
    | _, _ => true

def pingStep (k : Signalling) (argv : List (List Byte)) (s : PingState) :
    PingEvent → Option PingState
  | .event e =>
    if s.allows e then (step s.world e).map fun w => { s with world := w } else none
  | .send =>
    if s.stage = .checking ∧ s.world.pc = .idle ∧ s.world.calls = [] ∧ s.world.handler = none then
      pingSend k argv s
    else none
  | .take pid => takeSignal s pid
  | .mark =>
    match s.stage with
    | .marking n b =>
      (step s.world (.main (pingMark n b))).map fun w => { s with world := w, stage := .done }
    | _ => none

/-! ### The condition -/

/-- The process is already what `ping` will write, or it gets the signal and this does something
    to it. -/
def Signalling.Obeys (k : Signalling) (dest : ℤ) (sig : ℕ) (stopped : Bool) (c : Child) : Prop :=
  decide (c.phase = .stopped) = stopped ∨
    k.reaches dest c = true ∧ k.permitted c.pid sig = true ∧ (k.reaction sig c).isSome = true

instance (k : Signalling) (dest : ℤ) (sig : ℕ) (stopped : Bool) (c : Child) :
    Decidable (k.Obeys dest sig stopped c) :=
  inferInstanceAs (Decidable (_ ∨ _))

/-- If the request leads to a flag of the process `pid`, that process obeys the signal. -/
def PingRequest.Obeyed (k : Signalling) (pid : Pid) (children : List Child) :
    Option PingRequest → Prop
  | some (.send job byJob dest sig) =>
    (k.kill children dest sig).isSome = true → pid ∈ job.pids →
      ∀ b, pingFlags job byJob sig = some b → ∀ c ∈ children, c.pid = pid → k.Obeys dest sig b c
  | _ => True

instance (k : Signalling) (pid : Pid) (children : List Child) :
    ∀ request, Decidable (PingRequest.Obeyed k pid children request)
  | some (.send _ _ _ _) =>
    inferInstanceAs (Decidable (_ → _ → ∀ b, _ = some b → ∀ c ∈ children, _ → _))
  | some .invalidSyntax => .isTrue trivial
  | some .noSuchProcess => .isTrue trivial
  | none => .isTrue trivial

/-- When `ping` is going to write the flag of the process `pid`, that process obeys the
    signal. -/
def Obeyed (k : Signalling) (argv : List (List Byte)) (pid : Pid) (s : PingState) :
    PingEvent → Prop
  | .send => PingRequest.Obeyed k pid s.world.children (pingRequest argv s.world.table)
  | _ => True

instance (k : Signalling) (argv : List (List Byte)) (pid : Pid) (s : PingState) :
    ∀ e, Decidable (Obeyed k argv pid s e)
  | .send => inferInstanceAs (Decidable (PingRequest.Obeyed _ _ _ _))
  | .event _ => .isTrue trivial
  | .take _ => .isTrue trivial
  | .mark => .isTrue trivial

theorem Signalling.kill_eq_some {children : List Child} {due : List KernelEvent}
    (hkill : k.kill children dest sig = some due) {e : KernelEvent} :
    e ∈ due ↔ ∃ c ∈ children, k.reaches dest c = true ∧ k.permitted c.pid sig = true ∧
      k.reaction sig c = some e := by
  dsimp only [Signalling.kill] at hkill
  split_ifs at hkill
  cases hkill
  simp only [List.mem_filterMap, List.mem_filter, and_assoc]

theorem Signalling.pid_of_reaction {e : KernelEvent} (h : k.reaction sig c = some e) :
    e.pid = c.pid := by
  unfold Signalling.reaction at h
  repeat' split at h
  all_goals cases h
  all_goals rfl

theorem Signalling.mem_pids_kill {children : List Child} {due : List KernelEvent}
    (hnd : (children.map Child.pid).Nodup) (hkill : k.kill children dest sig = some due)
    (hc : c ∈ children) :
    c.pid ∈ due.map KernelEvent.pid ↔ k.reaches dest c = true ∧
      k.permitted c.pid sig = true ∧ (k.reaction sig c).isSome = true := by
  rw [List.mem_map]
  constructor
  · rintro ⟨e, he, hpid⟩
    obtain ⟨d, hd, hreach, hpermit, hreact⟩ := (Signalling.kill_eq_some hkill).mp he
    obtain rfl := eq_of_pid hnd hd hc ((Signalling.pid_of_reaction hreact).symm.trans hpid)
    exact ⟨hreach, hpermit, Option.isSome_of_mem hreact⟩
  · rintro ⟨hreach, hpermit, hreact⟩
    obtain ⟨e, he⟩ := Option.isSome_iff_exists.mp hreact
    exact ⟨e, (Signalling.kill_eq_some hkill).mpr ⟨c, hc, hreach, hpermit, he⟩,
      Signalling.pid_of_reaction he⟩

/-! ### Processes that are left out of account -/

def View.only (v : View) (shown : Pid → Bool) : View :=
  { v with procs := v.procs.filter (fun q => shown q.pid) }

section Only

variable {shown : Pid → Bool} {pid : Pid} {b : Bool} {l : List BgProc}

theorem pid_notMem_filter (hpid : ¬ shown pid = true) :
    pid ∉ (l.filter (fun q => shown q.pid)).map BgProc.pid := by
  intro hmem
  obtain ⟨q, hq, rfl⟩ := List.mem_map.mp hmem
  exact hpid (List.mem_filter.mp hq).2

theorem markFirst_of_notMem (h : pid ∉ l.map BgProc.pid) : markFirst pid b l = l := by
  have happend := markFirst_append_of_notMem (b := b) (m := []) h
  rwa [List.append_nil, markFirst, List.append_nil] at happend

theorem filter_markFirst : (markFirst pid b l).filter (fun q => shown q.pid) =
    markFirst pid b (l.filter (fun q => shown q.pid)) := by
  induction l with
  | nil => rfl
  | cons p rest ih =>
    rw [markFirst]
    split
    · next hp =>
      by_cases hpid : shown p.pid = true
      · rw [List.filter_cons_of_pos (by simpa using hpid),
          List.filter_cons_of_pos (by simpa using hpid), markFirst, if_pos hp]
      · rw [List.filter_cons_of_neg (by simpa using hpid),
          List.filter_cons_of_neg (by simpa using hpid),
          markFirst_of_notMem (pid_notMem_filter (hp ▸ hpid))]
    · next hp =>
      by_cases hpid : shown p.pid = true
      · rw [List.filter_cons_of_pos (by simpa using hpid),
          List.filter_cons_of_pos (by simpa using hpid), markFirst, if_neg hp, ih]
      · rw [List.filter_cons_of_neg (by simpa using hpid),
          List.filter_cons_of_neg (by simpa using hpid), ih]

theorem filter_eraseP_pid : (l.eraseP (fun q => q.pid = pid)).filter (fun q => shown q.pid) =
    (l.filter (fun q => shown q.pid)).eraseP (fun q => q.pid = pid) := by
  induction l with
  | nil => rfl
  | cons p rest ih =>
    by_cases hp : p.pid = pid
    · rw [List.eraseP_cons_of_pos (by simpa using hp)]
      by_cases hpid : shown p.pid = true
      · rw [List.filter_cons_of_pos (by simpa using hpid),
          List.eraseP_cons_of_pos (by simpa using hp)]
      · rw [List.filter_cons_of_neg (by simpa using hpid), List.eraseP_of_forall_not]
        intro q hq hqpid
        refine pid_notMem_filter (l := rest) (hp ▸ hpid) (List.mem_map.mpr ⟨q, hq, ?_⟩)
        exact of_decide_eq_true hqpid
    · rw [List.eraseP_cons_of_neg (by simpa using hp)]
      by_cases hpid : shown p.pid = true
      · rw [List.filter_cons_of_pos (by simpa using hpid),
          List.filter_cons_of_pos (by simpa using hpid),
          List.eraseP_cons_of_neg (by simpa using hp), ih]
      · rw [List.filter_cons_of_neg (by simpa using hpid),
          List.filter_cons_of_neg (by simpa using hpid), ih]

theorem filter_applyTo {st : WaitStatus} : (applyTo l pid st).filter (fun q => shown q.pid) =
    applyTo (l.filter (fun q => shown q.pid)) pid st := by
  unfold applyTo
  split
  · exact filter_eraseP_pid
  · exact filter_markFirst

/-- A step of the abstract system is one for the processes that are shown. -/
theorem ViewStep.only {sig : Signal} (hstep : ViewStep sig v v') (shown : Pid → Bool) :
    ViewStep sig (v.only shown) (v'.only shown) := by
  cases hstep with
  | skip => exact ViewStep.skip _
  | exit st => exact ViewStep.exit st
  | signal phase st hlive hphase hst => exact ViewStep.signal phase st hlive hphase hst
  | enqueue hwait => exact ViewStep.enqueue (v := v.only shown) hwait
  | apply hr =>
    unfold View.only
    rw [filter_applyTo]
    exact ViewStep.apply (v := v.only shown) hr
  | overtake hwait horder =>
    unfold View.only
    rw [filter_applyTo]
    exact ViewStep.overtake (v := v.only shown) hwait horder

end Only

theorem Faithful.sublist (h : Faithful v) (hsub : procs.Sublist v.procs) :
    Faithful { v with procs := procs } :=
  ⟨h.children, h.procs.sublist (hsub.map _), h.clean, h.honest,
    fun q hq => h.follows q (hsub.subset hq)⟩

/-- A process that was left out comes back once its change is on its way. -/
theorem Faithful.reveal {pid : Pid} (h : Faithful v) (hnd : (procs.map BgProc.pid).Nodup)
    (hprocs : ∀ q ∈ procs, q.pid ≠ pid → q ∈ v.procs)
    (hpending : ∀ c ∈ v.children, c.pid = pid → (∀ t, c.phase ≠ .zombie t) → c.pending ≠ none) :
    Faithful { v with procs := procs } := by
  refine ⟨h.children, hnd, h.clean, h.honest, fun q hq c hc hpid hlive => ?_⟩
  by_cases hself : q.pid = pid
  · obtain ⟨st, hst⟩ := Option.ne_none_iff_exists'.mp (hpending c hc (hpid.trans hself) hlive)
    show settle q.stopped (statusesOf c.pid v.backlog ++ (c.pending.map Subtype.val).toList) = _
    rw [hst]
    exact (settle_concat _ _ st.1).trans (h.honest c hc st hst)
  · exact h.follows q (hprocs q hq hself) c hc hpid hlive

theorem settle_of_ne_nil {l : List WaitStatus} (h : l ≠ []) (b b' : Bool) :
    settle b l = settle b' l := by
  cases l with
  | nil => exact absurd rfl h
  | cons st l => rfl

/-- Flags may be written, where they are right or a change is on its way. -/
theorem Faithful.mark (h : Faithful v) (hnd : (procs.map BgProc.pid).Nodup)
    (hprocs : ∀ q' ∈ procs, q' ∈ v.procs ∨ (∃ q ∈ v.procs, q.pid = q'.pid) ∧
      ∀ c ∈ v.children, c.pid = q'.pid → (∀ t, c.phase ≠ .zombie t) → v.onTheWay c = [] →
        decide (c.phase = .stopped) = q'.stopped) :
    Faithful { v with procs := procs } := by
  refine ⟨h.children, hnd, h.clean, h.honest, fun q' hq' c hc hpid hlive => ?_⟩
  show settle q'.stopped (v.onTheWay c) = _
  rcases hprocs q' hq' with hq | ⟨⟨q, hq, hqpid⟩, hright⟩
  · exact h.follows q' hq c hc hpid hlive
  · by_cases hway : v.onTheWay c = []
    · rw [hright c hc hpid hlive hway, hway]
      rfl
    · rw [settle_of_ne_nil hway q'.stopped q.stopped]
      exact h.follows q hq c hc (hpid.trans hqpid.symm) hlive

/-! ### What is on its way -/

theorem statusesOf_length_le {pid : Pid} {r : Record} (l : List Record) :
    (statusesOf pid l).length ≤ (statusesOf pid (r :: l)).length := by
  by_cases hpid : r.pid = pid
  · subst hpid
    rw [statusesOf_cons_self]
    exact Nat.le_succ _
  · rw [statusesOf_cons_of_ne l hpid]

/-- Without a stop or a continue, a live process stays what it is, and no more is on its way
    than before. -/
theorem ViewStep.onTheWay_le (hstep : ViewStep none v v') (hnd : (v.children.map Child.pid).Nodup)
    (hc' : c' ∈ v'.children) :
    ∃ c ∈ v.children, c.pid = c'.pid ∧ ((∀ t, c'.phase ≠ .zombie t) → c.phase = c'.phase) ∧
      (v'.onTheWay c').length ≤ (v.onTheWay c).length := by
  cases hstep with
  | skip => exact ⟨c', hc', rfl, fun _ => rfl, le_rfl⟩
  | exit st =>
    rcases mem_changeChild hc' with ⟨hc, -⟩ | ⟨c, hc, -, rfl⟩
    · exact ⟨c', hc, rfl, fun _ => rfl, le_rfl⟩
    · refine ⟨c, hc, rfl, fun hlive => absurd rfl (hlive st), ?_⟩
      simp [View.onTheWay]
  | enqueue hwait =>
    obtain ⟨d, hd, hpid, hphase, hway⟩ := onTheWay_enqueue hnd hwait hc'
    exact ⟨d, hd, hpid, fun _ => hphase, hway ▸ le_rfl⟩
  | apply hr =>
    refine ⟨c', hc', rfl, fun _ => rfl, ?_⟩
    rw [View.onTheWay, View.onTheWay, hr, List.length_append, List.length_append]
    exact Nat.add_le_add_right (statusesOf_length_le _) _
  | overtake hwait horder =>
    rcases takeStatus_cases hnd hwait hc' with ⟨hc, -⟩ | ⟨-, rfl, -⟩
    · exact ⟨c', hc, rfl, fun _ => rfl, le_rfl⟩
    · refine ⟨_, (waitpid_eq_some hwait).1, rfl, fun _ => rfl, ?_⟩
      simp [View.onTheWay]

/-- A step of the kernel or the handler other than a stop or a continue changes nothing about
    a live process, and not the table. -/
theorem Moves.onTheWay {w' : World} (hmove : Moves w e w') (hmain : ∀ m, e ≠ .main m)
    (hsig : e.signal = none) (hnd : (w.children.map Child.pid).Nodup) (hc' : c' ∈ w'.children)
    (hlive : ∀ t, c'.phase ≠ .zombie t) :
    ∃ c ∈ w.children, c.pid = c'.pid ∧ c.phase = c'.phase ∧
      w'.view.onTheWay c' = w.view.onTheWay c := by
  cases hmove with
  | @change e c hfind hwas =>
    cases e with
    | exit pid st =>
      rcases mem_changeChild hc' with ⟨hc, -⟩ | ⟨d, -, -, rfl⟩
      · exact ⟨c', hc, rfl, rfl, rfl⟩
      · exact absurd rfl (hlive st)
    | stop pid sig => cases hsig
    | cont pid => cases hsig
  | turn i => exact ⟨c', hc', rfl, rfl, rfl⟩
  | @reap i c st hi hlt hroom hpid hzero hwait =>
    obtain ⟨d, hd, hdpid, hphase, hway⟩ := onTheWay_enqueue (v := w.view) hnd hwait hc'
    refine ⟨d, hd, hdpid, hphase, ?_⟩
    rw [← hway]
    show statusesOf c'.pid (w.pc.copied ++ (w.queue ++ [_])) ++ _ =
      statusesOf c'.pid (w.pc.copied ++ w.queue ++ [_]) ++ _
    rw [List.append_assoc]
  | call hidle hcalls => exact absurd rfl (hmain _)
  | act hidle hcalls hact => exact absurd rfl (hmain _)

theorem Moves.table {w' : World} (hmove : Moves w e w') (hmain : ∀ m, e ≠ .main m) :
    w'.table = w.table := by
  cases hmove with
  | change hfind hlive => rfl
  | turn i => rfl
  | reap hi hlt hroom hpid hzero hwait => rfl
  | call hidle hcalls => exact absurd rfl (hmain _)
  | act hidle hcalls hact => exact absurd rfl (hmain _)

theorem ViewStep.pids_nodup {sig : Signal} (hstep : ViewStep sig v v')
    (hnd : (v.procs.map BgProc.pid).Nodup) : (v'.procs.map BgProc.pid).Nodup := by
  cases hstep with
  | apply hr => exact pids_applyTo_nodup hnd _ _
  | overtake hwait horder => exact pids_applyTo_nodup hnd _ _
  | _ => exact hnd

/-! ### What a step keeps in any case -/

def PingState.duePids (s : PingState) : List Pid := s.due.map KernelEvent.pid

/-- At most one change of a process is on its way, and none of a process that has not taken
    the signal. -/
structure Sending (s : PingState) : Prop where
  ok : WorldOk s.world
  procs : (s.world.table.procs.map BgProc.pid).Nodup
  once : ∀ c ∈ s.world.children, (s.world.view.onTheWay c).length ≤ 1
  quiet : ∀ c ∈ s.world.children, s.stage = .checking ∨ c.pid ∈ s.duePids →
    s.world.view.onTheWay c = []
  unsent : s.stage = .checking → s.due = []

theorem Settled.onTheWay (h : Settled w) (hc : c ∈ w.children) :
    w.view.onTheWay c = [] :=
  onTheWay_nil h.backlog (Child.of_status_none (h.kernel c hc)).1

theorem sending_start (hok : WorldOk w) (h : Settled w) : Sending (.start w) := by
  refine ⟨hok, h.procs, fun c hc => ?_, fun c hc _ => h.onTheWay hc, fun _ => rfl⟩
  show (w.view.onTheWay c).length ≤ 1
  rw [h.onTheWay hc]
  exact Nat.zero_le 1

theorem Sending.sweepInOrder {s : PingState} (h : Sending s) (e : Event) :
    SweepInOrder s.world e := by
  cases e with
  | kernel e => trivial
  | handler e => trivial
  | main e =>
    cases e with
    | sweepCollect pid =>
      intro c st hwait hterm r hlast
      obtain ⟨hc, hpid, hstatus⟩ := waitpid_eq_some hwait
      obtain ⟨hpending, -⟩ := (Child.status_terminal hstatus).2 hterm
      have hr : r ∈ s.world.queue.filter (fun r => r.pid = pid) := List.mem_of_getLast? hlast
      have hone := h.once c hc
      have hmem : r.status ∈ statusesOf c.pid s.world.backlog := by
        obtain ⟨hrq, hrpid⟩ := List.mem_filter.mp hr
        refine List.mem_map.mpr ⟨r, List.mem_filter.mpr ⟨List.mem_append_right _ hrq, ?_⟩, rfl⟩
        rw [hpid]
        exact hrpid
      have hpos := List.length_pos_of_mem hmem
      rw [View.onTheWay, hpending, List.length_append] at hone
      change (statusesOf c.pid s.world.backlog).length + 1 ≤ 1 at hone
      omega
    | _ => trivial

theorem PingState.signal_of_allows {s : PingState} (h : s.allows e = true) :
    e.reaping = true ∧ e.signal = none := by
  unfold PingState.allows at h
  rw [Bool.and_eq_true, Bool.and_eq_true, decide_eq_true_iff] at h
  exact h.1

/-- Before the flags are written, the program does nothing else. -/
theorem PingState.ne_main_of_allows {s : PingState} (h : s.allows e = true)
    (hstage : s.stage = .marking n b) (m : MainEvent) : e ≠ .main m := by
  rintro rfl
  unfold PingState.allows at h
  rw [hstage, Bool.and_eq_true] at h
  cases h.2

theorem Sending.view {s : PingState} (h : Sending s) (hallows : s.allows e = true)
    (hstep : Shell.step s.world e = some w) :
    ViewStep none s.world.view w.view := by
  obtain ⟨hreaping, hsig⟩ := PingState.signal_of_allows hallows
  rw [← hsig]
  exact step_view h.ok.pids_nodup hreaping (h.sweepInOrder e) hstep

theorem Sending.event {s : PingState} (h : Sending s) (hallows : s.allows e = true)
    (hstep : Shell.step s.world e = some w) :
    Sending { s with world := w } := by
  have hview := h.view hallows hstep
  refine ⟨h.ok.step hstep, hview.pids_nodup h.procs, fun c' hc' => ?_, fun c' hc' hquiet => ?_,
    h.unsent⟩
  · obtain ⟨c, hc, -, -, hle⟩ := hview.onTheWay_le h.ok.pids_nodup hc'
    exact hle.trans (h.once c hc)
  · obtain ⟨c, hc, hpid, -, hle⟩ := hview.onTheWay_le h.ok.pids_nodup hc'
    have hnone : s.world.view.onTheWay c = [] := h.quiet c hc (hquiet.imp_right (hpid ▸ ·))
    rw [hnone] at hle
    exact List.eq_nil_of_length_eq_zero (Nat.le_zero.mp hle)

theorem mem_pids_filter {due : List KernelEvent} {q : Pid} :
    p ∈ (due.filter (fun e => e.pid ≠ q)).map KernelEvent.pid ↔
      p ∈ due.map KernelEvent.pid ∧ p ≠ q := by
  simp only [List.mem_map, List.mem_filter, decide_eq_true_iff]
  constructor
  · rintro ⟨e, ⟨he, hne⟩, rfl⟩
    exact ⟨⟨e, he, rfl⟩, hne⟩
  · rintro ⟨⟨e, he, rfl⟩, hne⟩
    exact ⟨e, ⟨he, hne⟩, rfl⟩

theorem onTheWay_apply (hway : v.onTheWay c = []) (e : KernelEvent) :
    (v.onTheWay (e.apply c)).length ≤ 1 := by
  have hpid : (e.apply c).pid = c.pid := congrArg Prod.fst (e.apply_id c)
  have hnone : statusesOf c.pid v.backlog = [] := (List.append_eq_nil_iff.mp hway).1
  rw [View.onTheWay, hpid, hnone, List.nil_append]
  exact Option.length_toList_le

theorem mem_changeChild_of_ne {children : List Child} {e : KernelEvent}
    (hc' : c' ∈ changeChild children e.pid e.apply) (hne : c'.pid ≠ e.pid) : c' ∈ children := by
  rcases mem_changeChild hc' with ⟨hc, -⟩ | ⟨c, -, hpid, rfl⟩
  · exact hc
  · exact absurd ((congrArg Prod.fst (e.apply_id c)).trans hpid) hne

theorem Sending.change {s : PingState} (h : Sending s) {e : KernelEvent} (he : e ∈ s.due)
    (hstep : kernelStep s.world e = some w) :
    Sending { s with world := w, due := s.due.filter (fun d => d.pid ≠ e.pid) } := by
  have hdue : e.pid ∈ s.duePids := List.mem_map_of_mem he
  obtain ⟨-, rfl⟩ := kernelStep_cases hstep
  refine ⟨h.ok.step (e := .kernel e) hstep, h.procs, fun c' hc' => ?_, fun c' hc' hquiet => ?_,
    fun hstage => ?_⟩
  · rcases mem_changeChild hc' with ⟨hc, -⟩ | ⟨c, hc, hpid, rfl⟩
    · exact h.once c' hc
    · exact onTheWay_apply (h.quiet c hc (.inr (hpid ▸ hdue))) e
  · rcases hquiet with hstage | hmem
    · have hnil := h.unsent hstage
      rw [hnil] at he
      cases he
    · obtain ⟨hmem, hne⟩ := mem_pids_filter.mp hmem
      exact h.quiet c' (mem_changeChild_of_ne hc' hne) (.inr hmem)
  · show s.due.filter _ = []
    rw [h.unsent hstage]
    rfl

theorem takeSignal_cases {s s' : PingState} (hnd : (s.world.children.map Child.pid).Nodup)
    (htake : takeSignal s p = some s') :
    (∃ e ∈ s.due, e.pid = p ∧ ∃ w, kernelStep s.world e = some w ∧
      s' = { s with world := w, due := s.due.filter (fun d => d.pid ≠ p) }) ∨
    (∀ c ∈ s.world.children, c.pid = p → ∃ t, c.phase = .zombie t) ∧
      s' = { s with due := s.due.filter (fun d => d.pid ≠ p) } := by
  obtain ⟨e, hfind, hnext⟩ := Option.bind_eq_some_iff.mp htake
  have he : e ∈ s.due := List.mem_of_find?_eq_some hfind
  have hpid : e.pid = p := by simpa using List.find?_some hfind
  dsimp only at hnext
  split at hnext
  · obtain ⟨w, hstep, rfl⟩ := Option.map_eq_some_iff.mp hnext
    exact .inl ⟨e, he, hpid, w, hstep, rfl⟩
  · obtain ⟨w, hstep, rfl⟩ := Option.map_eq_some_iff.mp hnext
    exact .inl ⟨e, he, hpid, w, hstep, rfl⟩
  · next hrunning hstopped =>
    cases hnext
    refine .inr ⟨fun c hc hcpid => ?_, rfl⟩
    have hphase : phaseOf s.world.children p = some c.phase := hcpid ▸ phaseOf_of_mem hnd hc
    cases hc' : c.phase with
    | zombie t => exact ⟨t, rfl⟩
    | running => exact absurd (hphase.trans (congrArg some hc')) hrunning
    | stopped => exact absurd (hphase.trans (congrArg some hc')) hstopped

theorem Sending.take {s s' : PingState} (h : Sending s) (htake : takeSignal s p = some s') :
    Sending s' := by
  rcases takeSignal_cases h.ok.pids_nodup htake with ⟨e, he, rfl, w, hstep, rfl⟩ | ⟨-, rfl⟩
  · exact h.change he hstep
  · refine ⟨h.ok, h.procs, h.once, fun c hc hquiet => ?_, fun hstage => ?_⟩
    · exact h.quiet c hc (hquiet.imp_right fun hmem => (mem_pids_filter.mp hmem).1)
    · show s.due.filter _ = []
      rw [h.unsent hstage]
      rfl

/-! ### The flags that are written -/

/-- The table after `ping` has written flags. -/
def markedTable (t : JobTable) (n : ℕ) (b : Bool) : JobTable :=
  if b then (bgSetStopped t n (stoppedPids t n (fun _ => true))).table else (bgSetRunning t n).table

theorem within_markedTable (ht : TableOk t) (n : ℕ) (b : Bool) :
    Within (markedTable t n b) t := by
  cases b with
  | true => exact within_pingStop ht n
  | false => exact within_bgSetRunning ht n

theorem mem_markAll {j : BgJob} {q' : BgProc} (hq' : q' ∈ (j.markAll b).procs) :
    q'.stopped = b ∧ ∃ q ∈ j.procs, q.pid = q'.pid := by
  obtain ⟨q, hq, rfl⟩ := List.mem_map.mp hq'
  exact ⟨rfl, q, hq, rfl⟩

/-- A process in the table is as before, or in the job, with the flag that was written. -/
theorem mem_markedTable (ht : TableOk t) {q' : BgProc} (hq' : q' ∈ (markedTable t n b).procs) :
    q' ∈ t.procs ∨ q'.stopped = b ∧ ∃ j, findJob t n = some j ∧ ∃ q ∈ j.procs, q.pid = q'.pid := by
  obtain ⟨j', hj', hmem⟩ := List.mem_flatMap.mp hq'
  cases b with
  | true =>
    rcases mem_bgSetStopped ht hj' with ⟨hj, -⟩ | ⟨j, hj, rfl⟩
    · exact .inl (List.mem_flatMap.mpr ⟨j', hj, hmem⟩)
    · obtain ⟨hflag, q, hq, hpid⟩ := mem_markAll hmem
      obtain ⟨p, -, hfind⟩ := List.mem_filterMap.mp hq
      exact .inr ⟨hflag, j, hj, q, List.mem_of_find?_eq_some hfind, hpid⟩
  | false =>
    rcases mem_updateJob ht.nodup hj' with ⟨hj, -⟩ | ⟨j, hj, rfl⟩
    · exact .inl (List.mem_flatMap.mpr ⟨j', hj, hmem⟩)
    · obtain ⟨hflag, q, hq, hpid⟩ := mem_markAll hmem
      exact .inr ⟨hflag, j, hj, q, hq, hpid⟩

theorem step_pingMark {w' : World} (hstep : step w (.main (pingMark n b)) = some w') :
    w'.view = { w.view with procs := (markedTable w.table n b).procs } ∧
      w'.children = w.children ∧ w'.table = markedTable w.table n b := by
  cases b with
  | true =>
    cases step_moves hstep with
    | act hidle hcalls hact =>
      cases hact with
      | pingStop hpc => exact ⟨rfl, rfl, rfl⟩
  | false =>
    cases step_moves hstep with
    | act hidle hcalls hact =>
      cases hact with
      | pingCont hpc => exact ⟨rfl, rfl, rfl⟩

theorem Sending.mark {s : PingState} (h : Sending s)
    (hstep : Shell.step s.world (.main (pingMark n b)) = some w) :
    Sending { s with world := w, stage := .done } := by
  obtain ⟨hview, hchildren, htable⟩ := step_pingMark hstep
  have hway : ∀ c, w.view.onTheWay c = s.world.view.onTheWay c := fun c => by rw [hview]; rfl
  refine ⟨h.ok.step hstep, ?_, fun c hc => ?_, fun c hc hquiet => ?_, fun hdone => by cases hdone⟩
  · have hpids := h.procs
    show (w.table.procs.map BgProc.pid).Nodup
    rw [htable]
    rw [← JobTable.pids_eq] at hpids ⊢
    exact hpids.sublist (within_markedTable h.ok.table n b).narrows.pids
  · show (w.view.onTheWay c).length ≤ 1
    rw [hway]
    exact h.once c (hchildren ▸ hc)
  · show w.view.onTheWay c = []
    rw [hway]
    exact h.quiet c (hchildren ▸ hc) (.inr (hquiet.resolve_left (by simp)))

theorem pingTarget_mem {target : List Byte} {job : BgJob} {byJob : Bool}
    (h : pingTarget t target = some (some (job, byJob, dest))) : job ∈ t.jobs := by
  unfold pingTarget at h
  split at h
  · obtain ⟨found, hlookup, hfound⟩ := Option.map_eq_some_iff.mp h
    obtain ⟨j, rfl, heq⟩ := Option.map_eq_some_iff.mp hfound
    cases heq
    obtain ⟨num, -, hnum⟩ := Option.bind_eq_some_iff.mp hlookup
    split at hnum
    · exact mem_of_findJob (Option.filter_eq_some_iff.mp (Option.some.inj hnum)).1
    · cases hnum
  · obtain ⟨pid, -, hfound⟩ := Option.map_eq_some_iff.mp h
    split at hfound
    · obtain ⟨j, hj, heq⟩ := Option.map_eq_some_iff.mp hfound
      cases heq
      exact List.mem_of_find?_eq_some hj
    · cases hfound

theorem pingRequest_send {job : BgJob} {byJob : Bool}
    (h : pingRequest argv t = some (.send job byJob dest sig)) :
    job ∈ t.jobs := by
  unfold pingRequest at h
  split at h
  · next target signal =>
    obtain ⟨sig', -, hnext⟩ := Option.bind_eq_some_iff.mp h
    split at hnext
    · cases hnext
    · obtain ⟨found, hfound, heq⟩ := Option.map_eq_some_iff.mp hnext
      split at heq
      · split at heq
        · cases heq
        · cases heq
          exact pingTarget_mem hfound
      · cases heq
  · cases h

theorem PingStage.afterKill_ne_checking (n : ℕ) (flags : Option Bool) :
    PingStage.afterKill n flags ≠ .checking := by
  cases flags <;> simp [PingStage.afterKill]

theorem PingStage.afterKill_eq_marking {m : ℕ} {flags : Option Bool} :
    PingStage.afterKill n flags = .marking m b ↔ n = m ∧ flags = some b := by
  cases flags <;> simp [PingStage.afterKill]

/-- What the `kill` leads to: there was none or it failed, or it was sent. -/
theorem pingSend_cases {s s' : PingState} (hsend : pingSend k argv s = some s') :
    (∃ reply, s' = s.finish reply ∧ ∀ job byJob dest sig,
      pingRequest argv s.world.table = some (.send job byJob dest sig) →
        k.kill s.world.children dest sig = none) ∨
    ∃ job byJob dest sig due reply,
      pingRequest argv s.world.table = some (.send job byJob dest sig) ∧
      k.kill s.world.children dest sig = some due ∧
      s' = ⟨s.world, due, .afterKill job.jobNumber (pingFlags job byJob sig), reply⟩ := by
  obtain ⟨request, hrequest, hnext⟩ := Option.map_eq_some_iff.mp hsend
  cases request with
  | invalidSyntax =>
    refine .inl ⟨_, hnext.symm, fun job byJob dest sig h => ?_⟩
    rw [hrequest] at h
    cases h
  | noSuchProcess =>
    refine .inl ⟨_, hnext.symm, fun job byJob dest sig h => ?_⟩
    rw [hrequest] at h
    cases h
  | send job byJob dest sig =>
    dsimp only at hnext
    split at hnext
    · next hkill =>
      refine .inl ⟨_, hnext.symm, fun job' byJob' dest' sig' h => ?_⟩
      rw [hrequest] at h
      cases h
      exact hkill
    · next due hkill => exact .inr ⟨job, byJob, dest, sig, due, _, hrequest, hkill, hnext.symm⟩

theorem Sending.send {s s' : PingState} (h : Sending s) (hstage : s.stage = .checking)
    (hsend : pingSend k argv s = some s') : Sending s' := by
  rcases pingSend_cases hsend with ⟨reply, rfl, -⟩ | ⟨job, byJob, dest, sig, due, reply, -, -, rfl⟩
  · exact ⟨h.ok, h.procs, h.once, fun c hc _ => h.quiet c hc (.inl hstage),
      fun hdone => by cases hdone⟩
  · exact ⟨h.ok, h.procs, h.once, fun c hc _ => h.quiet c hc (.inl hstage),
      fun hchecking => absurd hchecking (PingStage.afterKill_ne_checking _ _)⟩

theorem pingStep_cases {s s' : PingState} {e : PingEvent} (hstep : pingStep k argv s e = some s') :
    (∃ f w, e = .event f ∧ s.allows f = true ∧ step s.world f = some w ∧
      s' = { s with world := w }) ∨
    (e = .send ∧ s.stage = .checking ∧ pingSend k argv s = some s') ∨
    (∃ p, e = .take p ∧ takeSignal s p = some s') ∨
    ∃ n b w, e = .mark ∧ s.stage = .marking n b ∧ step s.world (.main (pingMark n b)) = some w ∧
      s' = { s with world := w, stage := .done } := by
  cases e with
  | event f =>
    rw [pingStep] at hstep
    split at hstep
    · next hallows =>
      obtain ⟨w, hw, rfl⟩ := Option.map_eq_some_iff.mp hstep
      exact .inl ⟨f, w, rfl, hallows, hw, rfl⟩
    · cases hstep
  | send =>
    rw [pingStep] at hstep
    split at hstep
    · next hready => exact .inr (.inl ⟨rfl, hready.1, hstep⟩)
    · cases hstep
  | take p => exact .inr (.inr (.inl ⟨p, rfl, hstep⟩))
  | mark =>
    rw [pingStep] at hstep
    split at hstep
    · next n b hstage =>
      obtain ⟨w, hw, rfl⟩ := Option.map_eq_some_iff.mp hstep
      exact .inr (.inr (.inr ⟨n, b, w, rfl, hstage, hw, rfl⟩))
    · cases hstep

theorem Sending.step {s s' : PingState} (h : Sending s) {e : PingEvent}
    (hstep : pingStep k argv s e = some s') : Sending s' := by
  rcases pingStep_cases hstep with ⟨f, w, rfl, hallows, hw, rfl⟩ | ⟨rfl, hstage, hsend⟩ |
    ⟨p, rfl, htake⟩ | ⟨n, b, w, rfl, -, hw, rfl⟩
  · exact h.event hallows hw
  · exact h.send hstage hsend
  · exact h.take htake
  · exact h.mark hw

/-! ### A process that obeys -/

def PingState.shown (s : PingState) (pid p : Pid) : Bool := p = pid && p ∉ s.duePids

/-- **The invariant** for a process `pid` that obeys. If it has taken the signal, applying what
    is on its way would make its flag right. The flag that `ping` is going to write is right
    if it has taken the signal and nothing of it is on its way. -/
structure Pinging (pid : Pid) (s : PingState) : Prop extends Sending s where
  view : Faithful (s.world.view.only (s.shown pid))
  marking : ∀ n b, s.stage = .marking n b → ∀ j, findJob s.world.table n = some j → pid ∈ j.pids →
    ∀ c ∈ s.world.children, c.pid = pid → (∀ t, c.phase ≠ .zombie t) → c.pid ∉ s.duePids →
      s.world.view.onTheWay c = [] → decide (c.phase = .stopped) = b

section Obeys

variable {pid : Pid} {s s' : PingState}

theorem pinging_start (hok : WorldOk w) (h : Settled w) (pid : Pid) :
    Pinging pid (.start w) := by
  refine ⟨sending_start hok h, h.faithful.sublist List.filter_sublist, fun n b hstage => ?_⟩
  cases hstage

theorem Pinging.event (h : Pinging pid s) (hallows : s.allows e = true)
    (hstep : Shell.step s.world e = some w) : Pinging pid { s with world := w } := by
  refine ⟨h.toSending.event hallows hstep,
    ((h.toSending.view hallows hstep).only _).faithful h.view,
    fun n b hmarking j hj hmem c' hc' hself hlive hdue hway => ?_⟩
  have hmain := PingState.ne_main_of_allows hallows hmarking
  have hmove := step_moves hstep
  obtain ⟨c, hc, hpid, hphase, heq⟩ := hmove.onTheWay hmain
    (PingState.signal_of_allows hallows).2 h.ok.pids_nodup hc' hlive
  rw [← hphase]
  exact h.marking n b hmarking j (hmove.table hmain ▸ hj) hmem c hc (hpid.trans hself)
    (hphase ▸ hlive) (hpid ▸ hdue) (heq ▸ hway)

/-- A process has taken the signal, and its change is on its way, or it has ended. -/
theorem Faithful.taken (h : Faithful (v.only (s.shown pid)))
    (hnd : (v.procs.map BgProc.pid).Nodup)
    (hpending : ∀ c ∈ v.children, c.pid = p → (∀ t, c.phase ≠ .zombie t) → c.pending ≠ none) :
    Faithful (v.only
      (PingState.shown { s with due := s.due.filter (fun e => e.pid ≠ p) } pid)) := by
  refine h.reveal (hnd.sublist (List.filter_sublist.map _)) (fun q hq hne => ?_) hpending
  obtain ⟨hmem, hshown⟩ := List.mem_filter.mp hq
  refine List.mem_filter.mpr ⟨hmem, ?_⟩
  rw [PingState.shown, Bool.and_eq_true, decide_eq_true_iff, decide_eq_true_iff] at hshown ⊢
  exact ⟨hshown.1, fun hdue => hshown.2 (mem_pids_filter.mpr ⟨hdue, hne⟩)⟩

/-- A process that has just changed its state has a status to report. -/
theorem KernelEvent.apply_pending (e : KernelEvent) (c : Child)
    (hlive : ∀ t, (e.apply c).phase ≠ .zombie t) : (e.apply c).pending ≠ none := by
  cases e with
  | exit pid st => exact absurd rfl (hlive st)
  | stop pid sig => exact Option.some_ne_none _
  | cont pid => exact Option.some_ne_none _

theorem Pinging.change (h : Pinging pid s) {e : KernelEvent} (he : e ∈ s.due)
    (hstep : kernelStep s.world e = some w) :
    Pinging pid { s with world := w, due := s.due.filter (fun d => d.pid ≠ e.pid) } := by
  have hsending := h.toSending.change he hstep
  obtain ⟨⟨d, hfind, hwas⟩, rfl⟩ := kernelStep_cases hstep
  have hview := change_view h.ok.pids_nodup hfind hwas
  refine ⟨hsending, ((hview.only _).faithful h.view).taken h.procs ?_, ?_⟩
  · intro c' hc' hpid hlive
    rcases mem_changeChild hc' with ⟨-, hne⟩ | ⟨c, -, -, rfl⟩
    · exact absurd hpid hne
    · exact e.apply_pending c hlive
  · intro n b hstage j hj hmem c' hc' hself hlive hout hway
    by_cases hpid : c'.pid = e.pid
    · rcases mem_changeChild hc' with ⟨-, hne⟩ | ⟨c, -, -, rfl⟩
      · exact absurd hpid hne
      · -- its change is on its way
        obtain ⟨st, hst⟩ := Option.ne_none_iff_exists'.mp (e.apply_pending c hlive)
        have hnone := (List.append_eq_nil_iff.mp hway).2
        rw [hst] at hnone
        cases hnone
    · refine h.marking n b hstage j hj hmem c' (mem_changeChild_of_ne hc' hpid) hself hlive
        (fun hdue => ?_) hway
      exact hout (mem_pids_filter.mpr ⟨hdue, hpid⟩)

theorem Pinging.take (h : Pinging pid s) (htake : takeSignal s p = some s') :
    Pinging pid s' := by
  have hsending := h.toSending.take htake
  rcases takeSignal_cases h.ok.pids_nodup htake with ⟨e, he, rfl, w, hstep, rfl⟩ | ⟨hgone, rfl⟩
  · exact h.change he hstep
  · -- the process has ended before it could take the signal
    refine ⟨hsending, h.view.taken h.procs fun c hc hpid hlive => ?_, ?_⟩
    · obtain ⟨t, ht⟩ := hgone c hc hpid
      exact absurd ht (hlive t)
    · intro n b hstage j hj hmem c hc hself hlive hout hway
      refine h.marking n b hstage j hj hmem c hc hself hlive (fun hdue => ?_) hway
      refine hout (mem_pids_filter.mpr ⟨hdue, fun hpid => ?_⟩)
      obtain ⟨t, ht⟩ := hgone c hc hpid
      exact hlive t ht

theorem Pinging.mark (h : Pinging pid s) (hstage : s.stage = .marking n b)
    (hstep : Shell.step s.world (.main (pingMark n b)) = some w) :
    Pinging pid { s with world := w, stage := .done } := by
  have hsending := h.toSending.mark hstep
  obtain ⟨hview, hchildren, htable⟩ := step_pingMark hstep
  refine ⟨hsending, ?_, fun m b' hdone => by cases hdone⟩
  have hnd : (w.table.procs.map BgProc.pid).Nodup := hsending.procs
  rw [htable] at hnd
  show Faithful (w.view.only (s.shown pid))
  rw [hview]
  refine h.view.mark (hnd.sublist (List.filter_sublist.map _)) (fun q' hq' => ?_)
  obtain ⟨hmem, hshown⟩ := List.mem_filter.mp hq'
  rcases mem_markedTable h.ok.table hmem with hq | ⟨hflag, j, hj, q, hq, hpid⟩
  · exact .inl (List.mem_filter.mpr ⟨hq, hshown⟩)
  · obtain ⟨hself, hdue⟩ : q'.pid = pid ∧ q'.pid ∉ s.duePids := by
      simpa [PingState.shown] using hshown
    refine .inr ⟨⟨q, List.mem_filter.mpr ⟨?_, ?_⟩, hpid⟩, fun c hc hcpid hlive hnone => ?_⟩
    · exact List.mem_flatMap.mpr ⟨j, mem_of_findJob hj, hq⟩
    · rw [hpid]
      exact hshown
    · rw [hflag]
      refine h.marking n b hstage j hj ?_ c hc (hcpid.trans hself) hlive (hcpid ▸ hdue) hnone
      rw [← hself, ← hpid]
      exact List.mem_map_of_mem hq

/-- The job that the flags are written to is the one that was found. -/
theorem job_of_pingRequest (ht : TableOk t) {job : BgJob} {byJob : Bool}
    (h : pingRequest argv t = some (.send job byJob dest sig)) {j : BgJob}
    (hj : findJob t job.jobNumber = some j) : j = job :=
  List.inj_on_of_nodup_map ht.nodup (mem_of_findJob hj) (pingRequest_send h) (number_of_findJob hj)

theorem Pinging.send (h : Pinging pid s) (hok : Obeyed k argv pid s .send)
    (hstage : s.stage = .checking) (hsend : pingSend k argv s = some s') : Pinging pid s' := by
  have hsending := h.toSending.send hstage hsend
  rcases pingSend_cases hsend with ⟨reply, rfl, -⟩ |
    ⟨job, byJob, dest, sig, due, reply, hrequest, hkill, rfl⟩
  · exact ⟨hsending, h.view, fun n b hdone => by cases hdone⟩
  · refine ⟨hsending, ?_, ?_⟩
    · have hnone : s.duePids = [] := by rw [PingState.duePids, h.unsent hstage, List.map_nil]
      refine h.view.sublist (List.monotone_filter_right _ fun q hq => ?_)
      rw [PingState.shown, Bool.and_eq_true] at hq
      simp [PingState.shown, hnone, of_decide_eq_true hq.1]
    · intro n b hmarking j hj hmem c hc hself hlive hdue _
      obtain ⟨rfl, hflags⟩ := PingStage.afterKill_eq_marking.mp hmarking
      obtain rfl := job_of_pingRequest h.ok.table hrequest hj
      rw [Obeyed, hrequest] at hok
      have hobeys := hok (Option.isSome_of_mem hkill) hmem b hflags c hc hself
      exact hobeys.resolve_right fun htakes =>
        hdue ((Signalling.mem_pids_kill h.ok.pids_nodup hkill hc).mpr htakes)

/-- **Step lemma** for a process that obeys. -/
theorem Pinging.step (h : Pinging pid s) {e : PingEvent} (hok : Obeyed k argv pid s e)
    (hstep : pingStep k argv s e = some s') : Pinging pid s' := by
  rcases pingStep_cases hstep with ⟨f, w, rfl, hallows, hw, rfl⟩ | ⟨rfl, hstage, hsend⟩ |
    ⟨p, rfl, htake⟩ | ⟨n, b, w, rfl, hstage, hw, rfl⟩
  · exact h.event hallows hw
  · exact h.send hok hstage hsend
  · exact h.take htake
  · exact h.mark hstage hw

end Obeys

/-! ### A process that does not obey -/

def View.Flagged (v : View) (pid : Pid) (b : Bool) : Prop :=
  ∃ q ∈ v.procs, q.pid = pid ∧ q.stopped = b

/-- The process is alive, its state is not `b`, and nothing of it is on its way. -/
def View.Differs (v : View) (pid : Pid) (b : Bool) : Prop :=
  ∀ c ∈ v.children, c.pid = pid → (∀ t, c.phase ≠ .zombie t) →
    decide (c.phase = .stopped) ≠ b ∧ v.onTheWay c = []

/-- **The invariant** for a process `pid` that does not obey, as long as it lives: its state is
    not the one that `ping` writes, nothing of it is on its way, and the flag is going to be
    written or has been. -/
structure Defying (pid : Pid) (b : Bool) (s : PingState) : Prop extends Sending s where
  undue : pid ∉ s.duePids
  differs : s.world.view.Differs pid b
  flag : (∃ n j, s.stage = .marking n b ∧ findJob s.world.table n = some j ∧ pid ∈ j.pids) ∨
    s.stage = .done ∧ ((∃ c ∈ s.world.children, c.pid = pid ∧ ∀ t, c.phase ≠ .zombie t) →
      s.world.view.Flagged pid b)

section Defies

variable {pid : Pid} {b : Bool} {s s' : PingState}

theorem ViewStep.differs (hstep : ViewStep none v v') (hnd : (v.children.map Child.pid).Nodup)
    (h : v.Differs pid b) : v'.Differs pid b := by
  intro c' hc' hpid hlive
  obtain ⟨c, hc, hcpid, hphase, hle⟩ := hstep.onTheWay_le hnd hc'
  have heq := hphase hlive
  obtain ⟨hne, hway⟩ := h c hc (hcpid.trans hpid) (heq ▸ hlive)
  rw [hway] at hle
  exact ⟨heq ▸ hne, List.eq_nil_of_length_eq_zero (Nat.le_zero.mp hle)⟩

theorem mem_applyTo_of_ne {st : WaitStatus} {q : BgProc} (hq : q ∈ procs) (hne : q.pid ≠ p) :
    q ∈ applyTo procs p st := by
  rw [applyTo]
  split_ifs
  · exact (List.mem_eraseP_of_neg (by simpa using hne)).mpr hq
  · induction procs with
    | nil => cases hq
    | cons r rest ih =>
      rw [markFirst]
      split_ifs with hr
      · obtain rfl | hq := List.mem_cons.mp hq
        · exact absurd hr hne
        · exact List.mem_cons_of_mem _ hq
      · obtain rfl | hq := List.mem_cons.mp hq
        · exact List.mem_cons_self
        · exact List.mem_cons_of_mem _ (ih hq)

/-- Nothing is applied to a process of which nothing is on its way. -/
theorem ViewStep.flagged (hstep : ViewStep none v v') (hnd : (v.children.map Child.pid).Nodup)
    (hdiffers : v.Differs pid b) (hc' : c' ∈ v'.children) (hpid : c'.pid = pid)
    (hlive : ∀ t, c'.phase ≠ .zombie t) (h : v.Flagged pid b) : v'.Flagged pid b := by
  obtain ⟨q, hq, hqpid, hflag⟩ := h
  cases hstep with
  | skip => exact ⟨q, hq, hqpid, hflag⟩
  | exit st => exact ⟨q, hq, hqpid, hflag⟩
  | enqueue hwait => exact ⟨q, hq, hqpid, hflag⟩
  | @apply _ r rest hr =>
    have hne : q.pid ≠ r.pid := by
      intro heq
      have hway := (hdiffers c' hc' hpid hlive).2
      rw [View.onTheWay, hr, hpid, ← hqpid, heq, statusesOf_cons_self] at hway
      cases hway
    exact ⟨q, mem_applyTo_of_ne hq hne, hqpid, hflag⟩
  | @overtake _ c st hwait horder =>
    have hne : q.pid ≠ c.pid := by
      intro heq
      rcases takeStatus_cases hnd hwait hc' with ⟨-, hne⟩ | ⟨-, rfl, ch, hch, -⟩
      · exact hne (hpid.trans (hqpid.symm.trans heq))
      · have hway := (hdiffers c (waitpid_eq_some hwait).1 hpid hlive).2
        rw [View.onTheWay, Option.mem_def.mp hch] at hway
        cases (List.append_eq_nil_iff.mp hway).2
    exact ⟨q, mem_applyTo_of_ne hq hne, hqpid, hflag⟩

theorem Defying.event (h : Defying pid b s) (hallows : s.allows e = true)
    (hstep : Shell.step s.world e = some w) : Defying pid b { s with world := w } := by
  have hview := h.toSending.view hallows hstep
  refine ⟨h.toSending.event hallows hstep, h.undue, hview.differs h.ok.pids_nodup h.differs, ?_⟩
  rcases h.flag with ⟨n, j, hstage, hj, hmem⟩ | ⟨hstage, hflag⟩
  · have hmain := PingState.ne_main_of_allows hallows hstage
    exact .inl ⟨n, j, hstage, ((step_moves hstep).table hmain).symm ▸ hj, hmem⟩
  · refine .inr ⟨hstage, fun ⟨c', hc', hpid, hlive⟩ => ?_⟩
    obtain ⟨c, hc, hcpid, hphase, -⟩ := hview.onTheWay_le h.ok.pids_nodup hc'
    exact hview.flagged h.ok.pids_nodup h.differs hc' hpid hlive
      (hflag ⟨c, hc, hcpid.trans hpid, hphase hlive ▸ hlive⟩)

theorem Defying.take (h : Defying pid b s) (htake : takeSignal s p = some s') :
    Defying pid b s' := by
  have hsending := h.toSending.take htake
  rcases takeSignal_cases h.ok.pids_nodup htake with ⟨e, he, rfl, w, hstep, rfl⟩ | ⟨-, rfl⟩
  · have hother : ∀ c' ∈ w.children, c'.pid = pid → c' ∈ s.world.children := by
      intro c' hc' hpid
      obtain ⟨-, rfl⟩ := kernelStep_cases hstep
      refine mem_changeChild_of_ne hc' fun heq => h.undue ?_
      rw [← hpid, heq]
      exact List.mem_map_of_mem he
    obtain ⟨-, rfl⟩ := kernelStep_cases hstep
    refine ⟨hsending, fun hmem => h.undue (mem_pids_filter.mp hmem).1,
      fun c' hc' hpid hlive => h.differs c' (hother c' hc' hpid) hpid hlive, ?_⟩
    rcases h.flag with hmarking | ⟨hstage, hflag⟩
    · exact .inl hmarking
    · exact .inr ⟨hstage, fun ⟨c', hc', hpid, hlive⟩ =>
        hflag ⟨c', hother c' hc' hpid, hpid, hlive⟩⟩
  · exact ⟨hsending, fun hmem => h.undue (mem_pids_filter.mp hmem).1, h.differs, h.flag⟩

theorem flagged_markedTable (ht : TableOk t) {j : BgJob} (hj : findJob t n = some j)
    (hmem : pid ∈ j.pids) (b : Bool) :
    ∃ q ∈ (markedTable t n b).procs, q.pid = pid ∧ q.stopped = b := by
  have hmarked : ∀ k : BgJob, findJob (markedTable t n b) n = some (k.markAll b) →
      pid ∈ k.pids → ∃ q ∈ (markedTable t n b).procs, q.pid = pid ∧ q.stopped = b := by
    intro k hk hpid
    obtain ⟨q, hq, rfl⟩ := List.mem_map.mp hpid
    exact ⟨{ q with stopped := b },
      List.mem_flatMap.mpr ⟨_, mem_of_findJob hk, List.mem_map_of_mem hq⟩, rfl, rfl⟩
  cases b with
  | true =>
    have hkept : (j.kept j.pids).map BgProc.pid = j.pids :=
      pids_kept (ht.jobs j (mem_of_findJob hj)).length_pids_le fun _ hp => hp
    refine hmarked { j with procs := j.kept j.pids } ?_ (by rw [BgJob.pids, hkept]; exact hmem)
    rw [markedTable, if_pos rfl, stoppedPids_all hj]
    exact findJob_updateJob (f := fun k => k.keepStopped j.pids) (fun _ => rfl) hj
  | false =>
    refine hmarked j ?_ hmem
    exact findJob_updateJob (f := fun k => k.markAll false) (fun _ => rfl) hj

theorem Defying.mark (h : Defying pid b s) {b' : Bool} (hstage : s.stage = .marking n b')
    (hstep : Shell.step s.world (.main (pingMark n b')) = some w) :
    Defying pid b { s with world := w, stage := .done } := by
  have hsending := h.toSending.mark hstep
  obtain ⟨hview, hchildren, htable⟩ := step_pingMark hstep
  rcases h.flag with ⟨m, j, hmarking, hj, hmem⟩ | ⟨hdone, -⟩
  · rw [hstage] at hmarking
    cases hmarking
    refine ⟨hsending, h.undue, ?_, .inr ⟨rfl, fun _ => ?_⟩⟩
    · show w.view.Differs pid b
      rw [hview]
      exact h.differs
    · show w.view.Flagged pid b
      rw [hview]
      exact flagged_markedTable h.ok.table hj hmem b
  · rw [hstage] at hdone
    cases hdone

/-- **Step lemma** for a process that does not obey. -/
theorem Defying.step (h : Defying pid b s) {e : PingEvent} (hstep : pingStep k argv s e = some s') :
    Defying pid b s' := by
  rcases pingStep_cases hstep with ⟨f, w, rfl, hallows, hw, rfl⟩ | ⟨rfl, hstage, -⟩ |
    ⟨p, rfl, htake⟩ | ⟨n, b', w, rfl, hstage, hw, rfl⟩
  · exact h.event hallows hw
  · rcases h.flag with ⟨n, j, hmarking, -⟩ | ⟨hdone, -⟩
    · rw [hstage] at hmarking
      cases hmarking
    · rw [hstage] at hdone
      cases hdone
  · exact h.take htake
  · exact h.mark hstage hw

/-- A process that the signal does nothing to is not what `ping` will write. -/
theorem Sending.defying (h : Sending s) {e : PingEvent} (hok : ¬ Obeyed k argv pid s e)
    (hstep : pingStep k argv s e = some s') :
    ∃ b, Defying pid b s' := by
  have hsending := h.step hstep
  rcases pingStep_cases hstep with ⟨f, w, rfl, -⟩ | ⟨rfl, hstage, hsend⟩ | ⟨p, rfl, -⟩ |
    ⟨n, b, w, rfl, -⟩
  · exact absurd trivial hok
  · rcases pingSend_cases hsend with ⟨reply, rfl, hnone⟩ |
      ⟨job, byJob, dest, sig, due, reply, hrequest, hkill, rfl⟩
    · refine absurd ?_ hok
      rw [Obeyed]
      cases hrequest : pingRequest argv s.world.table with
      | none => trivial
      | some request =>
        cases request with
        | invalidSyntax => trivial
        | noSuchProcess => trivial
        | send job byJob dest sig =>
          intro hkill
          rw [hnone job byJob dest sig hrequest] at hkill
          cases hkill
    · rw [Obeyed, hrequest] at hok
      simp only [PingRequest.Obeyed, hkill, Option.isSome_some, not_forall] at hok
      obtain ⟨-, hmem, b, hflags, c, hc, hpid, hobeys⟩ := hok
      obtain ⟨hne, htakes⟩ := not_or.mp hobeys
      have hnone : ∀ c' ∈ s.world.children, c'.pid = pid → c' = c := fun c' hc' hpid' =>
        eq_of_pid h.ok.pids_nodup hc' hc (hpid'.trans hpid.symm)
      refine ⟨b, hsending, fun hdue => htakes ?_, fun c' hc' hpid' _ => ?_, .inl ?_⟩
      · exact (Signalling.mem_pids_kill h.ok.pids_nodup hkill hc).mp (hpid ▸ hdue)
      · cases hnone c' hc' hpid'
        exact ⟨hne, h.quiet c hc (.inl hstage)⟩
      · refine ⟨job.jobNumber, job, PingStage.afterKill_eq_marking.mpr ⟨rfl, hflags⟩, ?_, hmem⟩
        cases hfind : findJob s.world.table job.jobNumber with
        | none =>
          exact absurd (decide_eq_true rfl)
            (List.find?_eq_none.mp hfind job (pingRequest_send hrequest))
        | some j => rw [job_of_pingRequest h.ok.table hrequest hfind]
  · exact absurd trivial hok
  · exact absurd trivial hok

end Defies

/-! ### The command as a whole -/

/-- The command is done and nothing is on its way. -/
def PingState.Over (s : PingState) : Prop :=
  s.stage = .done ∧ s.due.isEmpty = true ∧ s.world.queue = [] ∧ s.world.pc.copied = [] ∧
    ∀ c ∈ s.world.children, c.status true = none

instance (s : PingState) : Decidable s.Over := inferInstanceAs (Decidable (_ ∧ _))

/-- **When `ping` keeps a flag right.** Take any state of the shell in which every flag is
    right and nothing is on its way, any arguments, and any recipients. Let the command run
    among steps of the handler and `check_bg_jobs` and ends of processes, until it is done,
    every recipient has taken the signal, and nothing is on its way. The flag of a process
    that is still there is right if and only if the process obeyed: if `ping` wrote its flag,
    it was in that state already, or the signal did something to it. -/
theorem ping_keeps_flags_iff {es₀ : List Event} {w₀ : World} (h₀ : exec step boot es₀ = some w₀)
    (hset : Settled w₀) (argv : List (List Byte)) {es : List PingEvent} {s : PingState}
    (h : exec (pingStep k argv) (.start w₀) es = some s) (hover : s.Over) :
    ∀ j ∈ s.world.table.jobs, ∀ q ∈ j.procs, ∀ c ∈ s.world.children, c.pid = q.pid →
      ((q.stopped = true ↔ c.phase = .stopped) ↔
        Guarded (pingStep k argv) (Obeyed k argv c.pid) (.start w₀) es) := by
  obtain ⟨hdone, hdue, hqueue, hcopied, hkernel⟩ := hover
  intro j hj q hq c hc hpid
  obtain ⟨hpending, hlive⟩ := Child.of_status_none (hkernel c hc)
  have hproc : q ∈ s.world.table.procs := List.mem_flatMap.mpr ⟨j, hj, hq⟩
  have hstart := pinging_start (exec_worldOk h₀) hset c.pid
  constructor
  · intro hright
    refine guarded_of_invariant (J := fun s => ∃ b, Defying c.pid b s)
      (fun _ _ _ hinv hok hstep => hinv.step hok hstep)
      (fun _ _ _ hinv hok hstep => hinv.toSending.defying hok hstep)
      (fun _ _ _ ⟨b, hinv⟩ hstep => ⟨b, hinv.step hstep⟩) hstart h ?_
    rintro ⟨b, hdefies⟩
    rcases hdefies.flag with ⟨n, j, hmarking, -⟩ | ⟨-, hflag⟩
    · rw [hdone] at hmarking
      cases hmarking
    · obtain ⟨q', hq', hpid', rfl⟩ := hflag ⟨c, hc, rfl, hlive⟩
      obtain rfl : q' = q := List.inj_on_of_nodup_map hdefies.procs hq' hproc (hpid'.trans hpid)
      refine (hdefies.differs c hc rfl hlive).1 ?_
      rw [Bool.eq_iff_iff, decide_eq_true_iff]
      exact hright.symm
  · intro hobey
    have hinv : Pinging c.pid s := exec_invariant_of_guarded (I := Pinging c.pid)
      (fun _ _ _ hinv hok hstep => hinv.step hok hstep) hstart hobey h
    have hshown : s.shown c.pid q.pid = true := by
      simp [PingState.shown, PingState.duePids, List.isEmpty_iff.mp hdue, hpid]
    have hbacklog : s.world.backlog = [] := by
      rw [World.backlog, hcopied, hqueue, List.nil_append]
    have hflag := hinv.view.follows q (List.mem_filter.mpr ⟨hproc, hshown⟩) c hc hpid hlive
    change settle q.stopped (s.world.view.onTheWay c) = _ at hflag
    rw [onTheWay_nil hbacklog hpending] at hflag
    rw [show q.stopped = decide (c.phase = .stopped) from hflag, decide_eq_true_iff]

/-- Every process treats every signal in the same way, and a handler does not stop it. -/
def uniform (d : Disposition) : Signalling where
  disposition _ _ := d
  handled _ _ := .goesOn
  pgid pid := pid
  permitted _ _ := true
  others _ := false

def pingTstp : List (List Byte) := [ascii "ping", ascii "%1", ascii "20"]

/-- The process takes the signal and the handler queues its stop; `ping` writes the flags, and
    the next `check_bg_jobs` applies the stop. -/
def stopTaken : List PingEvent :=
  [.send, .take 7, .event (.handler .enter), .event (.handler .iter), .event (.handler .iter),
    .mark, .event (.main .call), .event (.main .drainCopy), .event (.main .drainApply),
    .event (.main .drainEnd), .event (.main .sweepEnd)]

theorem ping_keeps_flags_stop :
    ∃ w₀ ∈ exec step boot launchOne, ∃ s ∈ exec (pingStep (uniform .dfl) pingTstp) (.start w₀)
      stopTaken, ∃ j ∈ s.world.table.jobs, ∃ q ∈ j.procs, q.stopped = true := by
  have hrun : ∃ w₀ ∈ exec step boot launchOne, Settled w₀ ∧
      ∃ s ∈ exec (pingStep (uniform .dfl) pingTstp) (.start w₀) stopTaken, s.Over ∧
        ∃ j ∈ s.world.table.jobs, ∃ q ∈ j.procs, ∃ c ∈ s.world.children, c.pid = q.pid ∧
          c.phase = .stopped ∧ Guarded (pingStep (uniform .dfl) pingTstp)
            (Obeyed (uniform .dfl) pingTstp c.pid) (.start w₀) stopTaken := by
    decide +kernel
  obtain ⟨w₀, hw₀, hset, s, hs, hover, j, hj, q, hq, c, hc, hpid, hphase, hobey⟩ := hrun
  have hiff := ping_keeps_flags_iff (Option.mem_def.mp hw₀) hset pingTstp (Option.mem_def.mp hs)
    hover j hj q hq c hc hpid
  exact ⟨w₀, hw₀, s, hs, j, hj, q, hq, (hiff.mpr hobey).mpr hphase⟩

/-- `ping` writes the flags, and `check_bg_jobs` finds nothing. -/
def stopHandled : List PingEvent :=
  [.send, .mark, .event (.main .call), .event (.main .drainCopy), .event (.main .drainEnd),
    .event (.main .sweepEnd)]

/-- **A handled stop signal marks a running process stopped**: the process handles SIGTSTP and
    goes on, there is nothing to report, and its flag says stopped. -/
theorem handled_stop_marks_running :
    ∃ w₀ ∈ exec step boot launchOne, Settled w₀ ∧
      ∃ s ∈ exec (pingStep (uniform .handler) pingTstp) (.start w₀) stopHandled, s.Over ∧
        ∃ j ∈ s.world.table.jobs, ∃ q ∈ j.procs, ∃ c ∈ s.world.children, c.pid = q.pid ∧
          q.stopped = true ∧ c.phase = .running := by
  decide +kernel

end MiniOs.Shell

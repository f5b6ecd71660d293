import MiniOs.Lib.Memory
import MiniOs.Shell.Paths
import MiniOs.Shell.Pipeline

/-!
# The bookkeeping of a background pipeline

The stage loop of `execute_pipeline_bg` as it runs: the process group is a variable that is
0 until the first stage is forked, each of the three places that fork puts the child into the
group from both sides, and `record_bg_stage` writes to arrays of the caller. A write behind
the arrays has no result.

`executePipelineBg` of the module on pipelines says what the function is for; the results here
connect the two.
-/

namespace MiniOs.Shell

open Memory

/-- The variables `pgid` and `rec`, the caller's arrays, and the calls of `setpgid` so far:
    a process and the group it is put into. -/
structure BgLoop where
  pgid : Pid
  recorded : ℕ
  outPids : List Pid
  outNames : List (List Byte)
  groups : List (Pid × Pid)

def recordStage (cap : ℕ) (pid : Pid) (name : List Byte) (s : BgLoop) : Option BgLoop :=
  if cap ≤ s.recorded then some s
  else do
    let outPids ← put s.outPids s.recorded pid
    let outNames ← put s.outNames s.recorded (snprintf bgNameMax name)
    pure { s with recorded := s.recorded + 1, outPids := outPids, outNames := outNames }

/-- The group that `setpgid` puts the process `pid` into; 0 stands for its own. -/
def setpgid (pid pgid : Pid) : Pid := if pgid = 0 then pid else pgid

/-- What the three places that fork have in common. The child calls `setpgid` with the group
    as it was before the fork, the parent after it has set it. -/
def forkedStage (cap : ℕ) (fork : Option Pid) (name : List Byte) (s : BgLoop) : Option BgLoop :=
  match fork with
  | none => some s
  | some pid =>
    let pgid := if s.pgid = 0 then pid else s.pgid
    recordStage cap pid name
      { s with
        pgid := pgid
        groups := s.groups ++ [(pid, setpgid pid s.pgid), (pid, setpgid pid pgid)] }

def bgStage (cap : ℕ) (o : StageOutcome) (start stop : List Token) (s : BgLoop) :
    Option BgLoop :=
  match stageArgv o start stop with
  | [] => forkedStage cap o.fork (ascii "?") s
  | name :: _ =>
    if isBuiltin name = false ∧ o.resolved = false then
      -- the name is copied before argv is freed
      forkedStage cap o.fork (name.take (bgNameMax - 1)) s
    else if o.redirsOpen = false then some s
    else forkedStage cap o.fork name s

/-- The stage loop over the segments that are left. -/
def bgLoop (cap : ℕ) (o : PipelineOutcome) :
    List ((List Token × List Token) × ℕ) → BgLoop → Option BgLoop
  | [], s => some s
  | x :: segments, s => do
    let s ← bgStage cap (o.stage x.2) x.1.1 x.1.2 s
    bgLoop cap o segments s

/-- What `execute_pipeline_bg` leaves: its return value, `out_count`, the arrays, and the
    calls of `setpgid`. -/
structure BgCall where
  ret : Pid
  outCount : ℕ
  outPids : List Pid
  outNames : List (List Byte)
  groups : List (Pid × Pid)

/-- `execute_pipeline_bg`, called with arrays of `cap` cells. -/
def executePipelineBgCall (o : PipelineOutcome) (start : List Token) (cap : ℕ)
    (outPids : List Pid) (outNames : List (List Byte)) : Option BgCall :=
  let a := executePipelineBgSegs start
  let failed : BgCall := ⟨0, 0, outPids, outNames, []⟩
  if o.segAlloc = false then some failed
  else if segmentsValid o a = false then some failed
  else if 1 < a.nCmds ∧ o.pipeAlloc = false then some failed
  else if pipesOpen o a = false then some failed
  else if o.stageAlloc = false then some failed
  else do
    let s ← bgLoop cap o a.segments ⟨0, 0, outPids, outNames, []⟩
    pure ⟨if 0 < s.recorded then s.pgid else 0, s.recorded, s.outPids, s.outNames, s.groups⟩

/-! ### The stages -/

/-- What the variables hold after the stages `forked`. -/
structure Booked (cap : ℕ) (forked : List (Pid × List Byte)) (s : BgLoop) : Prop where
  recorded : s.recorded = (forked.take cap).length
  pids : (forked.take cap).map Prod.fst <+: s.outPids
  names : (forked.take cap).map Prod.snd <+: s.outNames
  pidsRoom : s.outPids.length = cap
  namesRoom : s.outNames.length = cap
  pgid : s.pgid = (forked.head?.map Prod.fst).getD 0
  groups : s.groups = forked.flatMap (fun x => [(x.1, s.pgid), (x.1, s.pgid)])
  pos : ∀ x ∈ forked, 0 < x.1

variable {cap : ℕ} {forked : List (Pid × List Byte)} {s : BgLoop} {pid : Pid} {name : List Byte}

/-- The first stage that was forked gives the group its number. -/
theorem Booked.pgid_eq_zero (h : Booked cap forked s) : s.pgid = 0 ↔ forked = [] := by
  rw [h.pgid]
  cases forked with
  | nil => exact iff_of_true rfl rfl
  | cons x forked =>
    have hpos := h.pos x List.mem_cons_self
    exact iff_of_false hpos.ne' (List.cons_ne_nil _ _)

/-- **Recording a stage** when the array has room, and when it is full. -/
theorem recordStage_spec (hrec : s.recorded = (forked.take cap).length)
    (hpids : (forked.take cap).map Prod.fst <+: s.outPids)
    (hnames : (forked.take cap).map Prod.snd <+: s.outNames)
    (hpidsRoom : s.outPids.length = cap) (hnamesRoom : s.outNames.length = cap) (pid : Pid)
    (name : List Byte) :
    ∃ outPids outNames, recordStage cap pid name s =
        some { s with
          recorded := ((forked ++ [(pid, snprintf bgNameMax name)]).take cap).length
          outPids := outPids
          outNames := outNames } ∧
      ((forked ++ [(pid, snprintf bgNameMax name)]).take cap).map Prod.fst <+: outPids ∧
      ((forked ++ [(pid, snprintf bgNameMax name)]).take cap).map Prod.snd <+: outNames ∧
      outPids.length = cap ∧ outNames.length = cap := by
  rw [recordStage]
  by_cases hfull : cap ≤ s.recorded
  · have hlen : cap ≤ forked.length := by
      rw [hrec, List.length_take] at hfull
      omega
    rw [if_pos hfull, List.take_append_of_le_length hlen, ← hrec]
    exact ⟨s.outPids, s.outNames, rfl, hpids, hnames, hpidsRoom, hnamesRoom⟩
  · have hlen : forked.length < cap := by
      rw [hrec, List.length_take] at hfull
      omega
    have htake : forked.take cap = forked := List.take_of_length_le hlen.le
    have htake' : (forked ++ [(pid, snprintf bgNameMax name)]).take cap =
        forked ++ [(pid, snprintf bgNameMax name)] :=
      List.take_of_length_le (by rw [List.length_append, List.length_singleton]; exact hlen)
    rw [htake] at hrec hpids hnames
    have hrecPids : s.recorded = (forked.map Prod.fst).length := by rw [hrec, List.length_map]
    have hrecNames : s.recorded = (forked.map Prod.snd).length := by rw [hrec, List.length_map]
    obtain ⟨outPids, hput, hpids', hlenPids⟩ := put_next hpids (by rw [← hrecPids]; omega) pid
    obtain ⟨outNames, hput', hnames', hlenNames⟩ :=
      put_next hnames (by rw [← hrecNames]; omega) (snprintf bgNameMax name)
    rw [← hrecPids] at hput
    rw [← hrecNames] at hput'
    rw [if_neg hfull, hput, hput', htake', List.length_append, List.length_singleton, ← hrec,
      List.map_append, List.map_append]
    exact ⟨outPids, outNames, rfl, hpids', hnames', hlenPids.trans hpidsRoom,
      hlenNames.trans hnamesRoom⟩

theorem Booked.group_next (h : Booked cap forked s) (hpos : 0 < pid) (name : List Byte) :
    (if s.pgid = 0 then pid else s.pgid) =
        ((forked ++ [(pid, name)]).head?.map Prod.fst).getD 0 ∧
      s.groups = forked.flatMap (fun x =>
        [(x.1, if s.pgid = 0 then pid else s.pgid), (x.1, if s.pgid = 0 then pid else s.pgid)]) ∧
      (if s.pgid = 0 then pid else s.pgid) ≠ 0 := by
  have hgroups := h.groups
  by_cases hnil : forked = []
  · rw [if_pos (h.pgid_eq_zero.mpr hnil), hgroups, hnil]
    exact ⟨rfl, rfl, hpos.ne'⟩
  · have hne := mt h.pgid_eq_zero.mp hnil
    rw [if_neg hne, List.head?_append_of_ne_nil _ hnil]
    exact ⟨h.pgid, hgroups, hne⟩

/-- **Step lemma**: a stage that is forked. -/
theorem Booked.forkedStage (h : Booked cap forked s) (hpos : 0 < pid) (name : List Byte) :
    ∃ s', forkedStage cap (some pid) name s = some s' ∧
      Booked cap (forked ++ [(pid, snprintf bgNameMax name)]) s' := by
  obtain ⟨hpgid, hgroups, hne⟩ := h.group_next hpos (snprintf bgNameMax name)
  obtain ⟨outPids, outNames, hrecord, hpids, hnames, hpidsRoom, hnamesRoom⟩ :=
    recordStage_spec (s := { s with
        pgid := if s.pgid = 0 then pid else s.pgid
        groups := s.groups ++ [(pid, setpgid pid s.pgid),
          (pid, setpgid pid (if s.pgid = 0 then pid else s.pgid))] })
      h.recorded h.pids h.names h.pidsRoom h.namesRoom pid name
  refine ⟨_, hrecord, rfl, hpids, hnames, hpidsRoom, hnamesRoom, hpgid, ?_, ?_⟩
  · -- the child passes 0 for the first stage, the parent the pid: the same group
    have hparent : setpgid pid (if s.pgid = 0 then pid else s.pgid) =
        if s.pgid = 0 then pid else s.pgid := if_neg hne
    rw [List.flatMap_append, List.flatMap_singleton]
    show s.groups ++ [(pid, setpgid pid s.pgid), (pid, setpgid pid _)] = _
    rw [hparent, ← hgroups]
    rfl
  · intro x hx
    rcases List.mem_append.mp hx with hx | hx
    · exact h.pos x hx
    · cases List.mem_singleton.mp hx
      exact hpos

/-- **Step lemma**: one round of the loop. -/
theorem Booked.stage (h : Booked cap forked s) {o : StageOutcome}
    (hpos : ∀ pid, o.fork = some pid → 0 < pid) (start stop : List Token) :
    ∃ s', bgStage cap o start stop s = some s' ∧
      Booked cap (forked ++ (launchStage (ascii "?") o start stop).toList) s' := by
  -- a place that forks, with the name it records
  have hplace : ∀ name cut, snprintf bgNameMax name = cut →
      ∃ s', MiniOs.Shell.forkedStage cap o.fork name s = some s' ∧
        Booked cap (forked ++ (o.fork.map (fun pid => (pid, cut))).toList) s' := by
    rintro name _ rfl
    cases hfork : o.fork with
    | none =>
      refine ⟨s, rfl, ?_⟩
      rw [Option.map_none, Option.toList_none, List.append_nil]
      exact h
    | some pid => exact h.forkedStage (hpos pid hfork) name
  unfold bgStage launchStage
  cases stageArgv o start stop with
  | nil => exact hplace _ _ rfl
  | cons name args =>
    dsimp only
    split_ifs with hmissing hredirs
    · refine hplace _ _ ?_
      rw [snprintf, List.take_take, Nat.min_self]
    · refine ⟨s, rfl, ?_⟩
      rw [Option.toList_none, List.append_nil]
      exact h
    · exact hplace _ _ rfl

/-- **Run lemma**: the stage loop. -/
theorem bgLoop_booked {o : PipelineOutcome} (hpos : ∀ i pid, (o.stage i).fork = some pid → 0 < pid)
    (segments : List ((List Token × List Token) × ℕ)) (h : Booked cap forked s) :
    ∃ s', bgLoop cap o segments s = some s' ∧
      Booked cap (forked ++ (segments.map (fun x =>
        launchStage (ascii "?") (o.stage x.2) x.1.1 x.1.2)).reduceOption) s' := by
  induction segments generalizing forked s with
  | nil =>
    refine ⟨s, rfl, ?_⟩
    change Booked cap (forked ++ []) s
    rw [List.append_nil]
    exact h
  | cons x segments ih =>
    obtain ⟨s₁, hstage, h₁⟩ := h.stage (hpos x.2) x.1.1 x.1.2
    obtain ⟨s', hrest, h'⟩ := ih h₁
    refine ⟨s', ?_, ?_⟩
    · rw [bgLoop, hstage]
      exact hrest
    · rw [List.append_assoc] at h'
      rw [List.map_cons]
      cases hlaunch : launchStage (ascii "?") (o.stage x.2) x.1.1 x.1.2 <;>
        rw [hlaunch] at h' <;> exact h'

/-! ### The function -/

def BgLaunch.lead (l : BgLaunch) : Pid := (l.forked.head?.map Prod.fst).getD 0

/-- The call hands out a launch: the recorded stages stand at the front of the arrays, and
    every forked stage is put into the group of the first one, by itself and by the shell. -/
structure HandsOut (cap : ℕ) (l : BgLaunch) (r : BgCall) : Prop where
  ret : r.ret = l.pgid
  count : r.outCount = l.out.length
  pids : l.out.map Prod.fst <+: r.outPids
  names : l.out.map Prod.snd <+: r.outNames
  pidsRoom : r.outPids.length = cap
  namesRoom : r.outNames.length = cap
  pos : ∀ x ∈ l.forked, 0 < x.1
  groups : r.groups = l.forked.flatMap (fun x => [(x.1, l.lead), (x.1, l.lead)])

theorem booked_start {cap : ℕ} {pids : List Pid} {names : List (List Byte)}
    (hpids : pids.length = cap) (hnames : names.length = cap) :
    Booked cap [] ⟨0, 0, pids, names, []⟩ := by
  refine ⟨?_, ?_, ?_, hpids, hnames, rfl, rfl, fun x hx => absurd hx List.not_mem_nil⟩
  · rw [List.take_nil]
    rfl
  · rw [List.take_nil]
    exact List.nil_prefix
  · rw [List.take_nil]
    exact List.nil_prefix

/-- **The call is the launch that the module on pipelines describes.** -/
theorem executePipelineBgCall_handsOut {o : PipelineOutcome}
    (hpos : ∀ i pid, (o.stage i).fork = some pid → 0 < pid) (start : List Token) (cap : ℕ)
    (old : Disposition) {pids : List Pid} {names : List (List Byte)} (hpids : pids.length = cap)
    (hnames : names.length = cap) :
    ∃ r, executePipelineBgCall o start cap pids names = some r ∧
      HandsOut cap (executePipelineBg o start cap old) r := by
  have hfailed : ∃ r, some (⟨0, 0, pids, names, []⟩ : BgCall) = some r ∧
      HandsOut cap (BgLaunch.none old) r :=
    ⟨_, rfl, rfl, rfl, List.nil_prefix, List.nil_prefix, hpids, hnames,
      fun x hx => absurd hx List.not_mem_nil, rfl⟩
  unfold executePipelineBgCall executePipelineBg
  dsimp only
  split_ifs
  · exact hfailed
  · exact hfailed
  · exact hfailed
  · exact hfailed
  · exact hfailed
  · obtain ⟨s, hrun, h⟩ := bgLoop_booked hpos (executePipelineBgSegs start).segments
      (booked_start hpids hnames)
    rw [List.nil_append] at h
    rw [hrun]
    change Booked cap (launchStages (ascii "?") o (executePipelineBgSegs start)).reduceOption s at h
    set forked := (launchStages (ascii "?") o (executePipelineBgSegs start)).reduceOption
    have hout : forked.foldl (recordBgStage cap) [] = forked.take cap :=
      foldl_recordBgStage cap [] forked (Nat.zero_le cap)
    rw [hout]
    refine ⟨_, rfl, ?_, h.recorded, h.pids, h.names, h.pidsRoom, h.namesRoom, h.pos, ?_⟩
    · show (if 0 < s.recorded then s.pgid else 0) = resultPgid forked (forked.take cap)
      rw [h.recorded, h.pgid, resultPgid]
      by_cases hnil : forked.take cap = []
      · rw [if_pos hnil, hnil]
        rfl
      · rw [if_neg hnil, if_pos (List.length_pos_iff.mpr hnil)]
    · show s.groups = _
      rw [h.groups, h.pgid]
      rfl

theorem executePipelineBg_pgid (o : PipelineOutcome) (start : List Token) (cap : ℕ)
    (old : Disposition) : (executePipelineBg o start cap old).pgid =
      resultPgid (executePipelineBg o start cap old).forked
        (executePipelineBg o start cap old).out := by
  unfold executePipelineBg
  dsimp only
  split_ifs <;> rfl

theorem take_recorded {α β : Type} {f : α → β} {forked : List α} {cells : List β} {cap n : ℕ}
    (hcells : (forked.take cap).map f <+: cells) (hn : n = (forked.take cap).length) :
    cells.take n = (forked.map f).take cap := by
  have hlen : ((forked.take cap).map f).length = n := by rw [List.length_map, hn]
  rw [← hlen, ← List.prefix_iff_eq_take.mp hcells, List.map_take]

/-- **The bookkeeping of a background pipeline is exact.** For every pipeline and every
    pattern of failures, with arrays of `MAX_JOB_PROCS` cells: the call writes inside them;
    they start with the pids and names of the first `MAX_JOB_PROCS` stages that were forked,
    in pipeline order; both calls of `setpgid` for a forked stage name the pid of the first
    one as the group; and the return value is `out_pids[0]`, or 0 exactly if no stage was
    forked. -/
theorem bg_bookkeeping_exact (o : PipelineOutcome)
    (hpos : ∀ i pid, (o.stage i).fork = some pid → 0 < pid) (start : List Token)
    (old : Disposition) (pids : List Pid) (names : List (List Byte))
    (hpids : pids.length = maxJobProcs) (hnames : names.length = maxJobProcs)
    (forked : List (Pid × List Byte))
    (hforked : forked = (executePipelineBg o start maxJobProcs old).forked) :
    ∃ r, executePipelineBgCall o start maxJobProcs pids names = some r ∧
      r.outCount = min maxJobProcs forked.length ∧
      r.outPids.take r.outCount = (forked.map Prod.fst).take maxJobProcs ∧
      r.outNames.take r.outCount = (forked.map Prod.snd).take maxJobProcs ∧
      (∀ x ∈ forked, (∃ g, (x.1, g) ∈ r.groups) ∧
        ∀ g, (x.1, g) ∈ r.groups → forked.head?.map Prod.fst = some g) ∧
      (forked ≠ [] → r.outPids.head? = some r.ret) ∧ (r.ret = 0 ↔ forked = []) := by
  obtain ⟨r, hcall, h⟩ := executePipelineBgCall_handsOut hpos start maxJobProcs old hpids hnames
  have hout : (executePipelineBg o start maxJobProcs old).out = forked.take maxJobProcs := by
    rw [hforked]
    exact executePipelineBg_out o start maxJobProcs old
  have hret : r.ret = resultPgid forked (forked.take maxJobProcs) := by
    rw [h.ret, executePipelineBg_pgid, hout, ← hforked]
  obtain ⟨-, hcount, hpids, hnames, -, -, hposAll, hgroups⟩ := h
  have hlead : (executePipelineBg o start maxJobProcs old).lead =
      (forked.head?.map Prod.fst).getD 0 := by
    rw [BgLaunch.lead, hforked]
  rw [hlead, ← hforked] at hgroups
  rw [← hforked] at hposAll
  rw [hout] at hcount hpids hnames
  refine ⟨r, hcall, ?_, ?_, ?_, fun x hx => ⟨?_, fun g hg => ?_⟩, ?_, ?_⟩
  · rw [hcount, List.length_take]
  · exact take_recorded hpids hcount
  · exact take_recorded hnames hcount
  · refine ⟨(forked.head?.map Prod.fst).getD 0, ?_⟩
    rw [hgroups]
    exact List.mem_flatMap.mpr ⟨x, hx, List.mem_cons_self⟩
  · rw [hgroups] at hg
    obtain ⟨y, hy, hmem⟩ := List.mem_flatMap.mp hg
    have hg : g = (forked.head?.map Prod.fst).getD 0 := by
      simp only [List.mem_cons, Prod.mk.injEq, List.not_mem_nil, or_false, or_self] at hmem
      exact hmem.2
    cases forked with
    | nil => cases hx
    | cons z forked => exact congrArg some hg.symm
  · intro hne
    cases forked with
    | nil => exact absurd rfl hne
    | cons z forked =>
      obtain ⟨rest, hrest⟩ := hpids
      rw [hret, ← hrest]
      rfl
  · cases forked with
    | nil => exact iff_of_true hret rfl
    | cons z forked =>
      refine iff_of_false ?_ (List.cons_ne_nil _ _)
      rw [hret]
      exact (hposAll z List.mem_cons_self).ne'

/-- `a | b | c &`: the first stage cannot be forked, and the second command is not found. -/
def partlyForked : PipelineOutcome :=
  ⟨true, fun _ _ => true, true, fun _ => true, true, fun i =>
    if i = 0 then ⟨true, true, true, none⟩
    else if i = 1 then ⟨true, false, true, some 8⟩ else ⟨true, true, true, some 9⟩⟩

theorem bg_bookkeeping_exact_partly :
    ∃ r, executePipelineBgCall partlyForked
        [⟨.word, [97]⟩, ⟨.opPipe, [124]⟩, ⟨.word, [98]⟩, ⟨.opPipe, [124]⟩, ⟨.word, [99]⟩,
          ⟨.opAmp, [38]⟩] maxJobProcs (List.replicate 16 0) (List.replicate 16 []) = some r ∧
      r.outPids.take r.outCount = [8, 9] ∧ r.outNames.take r.outCount = [[98], [99]] ∧
      r.outPids.head? = some r.ret := by
  have hpos : ∀ i pid, (partlyForked.stage i).fork = some pid → 0 < pid := by
    intro i pid hfork
    unfold partlyForked at hfork
    dsimp only at hfork
    split_ifs at hfork
    · cases hfork
      decide
    · cases hfork
      decide
  obtain ⟨r, hcall, -, hpids, hnames, -, hhead, -⟩ := bg_bookkeeping_exact partlyForked hpos
    [⟨.word, [97]⟩, ⟨.opPipe, [124]⟩, ⟨.word, [98]⟩, ⟨.opPipe, [124]⟩, ⟨.word, [99]⟩,
      ⟨.opAmp, [38]⟩] .dfl (List.replicate 16 0) (List.replicate 16 []) rfl rfl
    [(8, [98]), (9, [99])] (by decide +kernel)
  exact ⟨r, hcall, hpids, hnames, hhead (List.cons_ne_nil _ _)⟩

end MiniOs.Shell

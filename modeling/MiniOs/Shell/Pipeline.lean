import MiniOs.Lib.Trace
import MiniOs.Shell.JobTable
import MiniOs.Shell.Segments

/-!
# Launching pipelines

`execute_pipeline` and `execute_pipeline_bg` ignore SIGPIPE, take what they need step
by step, with an early exit at each step, fork the stages, and set SIGPIPE back. The
two functions were written separately: the background one sets the signal back at
every exit, the foreground one at its end only.

Every call that can fail is an entry of `PipelineOutcome`, so the results hold for
every pattern of failures.
-/

namespace MiniOs.Shell

open Trace

inductive Disposition where
  | dfl
  | ign
  | handler
  deriving DecidableEq, Repr

/-- What can go wrong for one stage: `malloc` in `extract_segment_argv`,
    `resolve_command`, `redirs_open` and `fork`. -/
structure StageOutcome where
  argvAlloc : Bool
  resolved : Bool
  redirsOpen : Bool
  fork : Option Pid

/-- What can go wrong in a pipeline: the `malloc`s of the segment arrays, the `n`-th
    `open` of `redirs_validate` for segment `i`, the `malloc` of `pipefds`, the `pipe`
    calls, the `malloc`s for the stages, and the stages. -/
structure PipelineOutcome where
  segAlloc : Bool
  canOpen : ℕ → ℕ → Bool
  pipeAlloc : Bool
  pipe : ℕ → Bool
  stageAlloc : Bool
  stage : ℕ → StageOutcome

def builtinNames : List String :=
  ["peek", "reveal", "locate", "hop", "activities", "ping", "spy", "snoop", "resume"]

def isBuiltin (name : List Byte) : Bool := builtinNames.any (fun s => ascii s = name)

/-- `argv` of a stage; empty if it could not be allocated. -/
def stageArgv (o : StageOutcome) (start stop : List Token) : List (List Byte) :=
  if o.argvAlloc then ((extractSegmentArgv start stop).map Argv.argv).getD [] else []

/-- One round of the stage loop: the pid of the stage and its name, if it was forked.
    A stage without words and one whose command is not found are forked as well, and
    exit at once. -/
def launchStage (emptyName : List Byte) (o : StageOutcome) (start stop : List Token) :
    Option (Pid × List Byte) :=
  match stageArgv o start stop with
  | [] => o.fork.map (fun pid => (pid, emptyName))
  | name :: _ =>
    let cut := name.take (bgNameMax - 1)
    if isBuiltin name = false ∧ o.resolved = false then o.fork.map (fun pid => (pid, cut))
    else if o.redirsOpen = false then none
    else o.fork.map (fun pid => (pid, cut))

/-- The stage goes on to run a builtin or a program. -/
def runsCommand (o : StageOutcome) (start stop : List Token) : Bool :=
  match stageArgv o start stop with
  | [] => false
  | name :: _ => (isBuiltin name || o.resolved) && o.redirsOpen && o.fork.isSome

/-- The pointers of the segments, with their index. -/
def SegArrays.segments (a : SegArrays) : List ((List Token × List Token) × ℕ) :=
  (a.starts.zip a.ends).zipIdx

def launchStages (emptyName : List Byte) (o : PipelineOutcome) (a : SegArrays) :
    List (Option (Pid × List Byte)) :=
  a.segments.map (fun s => launchStage emptyName (o.stage s.2) s.1.1 s.1.2)

def segmentsValid (o : PipelineOutcome) (a : SegArrays) : Bool :=
  a.segments.all (fun s => (redirsValidate (o.canOpen s.2) s.1.2 0 s.1.1).ret = 1)

/-- Every call of `pipe` succeeds. -/
def pipesOpen (o : PipelineOutcome) (a : SegArrays) : Bool := (List.range (a.nCmds - 1)).all o.pipe

/-- The disposition after `execute_pipeline`, and for each stage its pid and name if it
    was forked: the arrays `pids` and `names`. -/
structure FgLaunch where
  sigpipe : Disposition
  stages : List (Option (Pid × List Byte))

/-- `execute_pipeline`, called with the disposition `old`. Its early exits return
    without a call of `signal`. -/
def executePipeline (o : PipelineOutcome) (start : List Token) (old : Disposition) : FgLaunch :=
  let a := executePipelineSegs start
  if o.segAlloc = false then ⟨.ign, []⟩
  else if segmentsValid o a = false then ⟨.ign, []⟩
  else if 1 < a.nCmds ∧ o.pipeAlloc = false then ⟨.ign, []⟩
  else if pipesOpen o a = false then ⟨.ign, []⟩
  else if o.stageAlloc = false then ⟨.ign, []⟩
  else ⟨old, launchStages [] o a⟩

/-- `record_bg_stage`, with the output arrays as one list. -/
def recordBgStage (cap : ℕ) (out : List (Pid × List Byte)) (s : Pid × List Byte) :
    List (Pid × List Byte) :=
  if cap ≤ out.length then out else out ++ [s]

/-- The disposition after `execute_pipeline_bg`, the stages it forked, and what it hands
    to its caller: the recorded stages and the process group. -/
structure BgLaunch where
  sigpipe : Disposition
  forked : List (Pid × List Byte)
  out : List (Pid × List Byte)
  pgid : Pid

/-- An exit before any stage is forked. -/
def BgLaunch.none (sigpipe : Disposition) : BgLaunch := ⟨sigpipe, [], [], 0⟩

/-- `result_pgid`: the pid of the first forked stage, if a stage was recorded. -/
def resultPgid (forked out : List (Pid × List Byte)) : Pid :=
  if out = [] then 0 else (forked.head?.map (·.1)).getD 0

def executePipelineBg (o : PipelineOutcome) (start : List Token) (cap : ℕ) (old : Disposition) :
    BgLaunch :=
  let a := executePipelineBgSegs start
  if o.segAlloc = false then .none old
  else if segmentsValid o a = false then .none old
  else if 1 < a.nCmds ∧ o.pipeAlloc = false then .none old
  else if pipesOpen o a = false then .none old
  else if o.stageAlloc = false then .none old
  else
    let forked := (launchStages (ascii "?") o a).reduceOption
    let out := forked.foldl (recordBgStage cap) []
    ⟨old, forked, out, resultPgid forked out⟩

/-- Nothing fails before the first fork. -/
structure SetupOk (o : PipelineOutcome) (a : SegArrays) : Prop where
  segAlloc : o.segAlloc = true
  valid : segmentsValid o a = true
  pipeAlloc : 1 < a.nCmds → o.pipeAlloc = true
  pipes : pipesOpen o a = true
  stageAlloc : o.stageAlloc = true

/-- The stages that `record_bg_stage` stores are the first ones. -/
theorem foldl_recordBgStage (cap : ℕ) (out stages : List (Pid × List Byte))
    (hout : out.length ≤ cap) :
    stages.foldl (recordBgStage cap) out = (out ++ stages).take cap := by
  induction stages generalizing out with
  | nil => rw [List.foldl_nil, List.append_nil, List.take_of_length_le hout]
  | cons s stages ih =>
    rw [List.foldl_cons, recordBgStage]
    by_cases hfull : cap ≤ out.length
    · have hlen : out.length = cap := le_antisymm hout hfull
      rw [if_pos hfull, ih out hout, List.take_append_of_le_length hfull,
        List.take_append_of_le_length hfull]
    · rw [if_neg hfull, ih (out ++ [s]), List.append_assoc, List.singleton_append]
      rw [List.length_append, List.length_singleton]
      omega

/-- **`execute_pipeline_bg` hands out the first `cap` of the forked stages.** -/
theorem executePipelineBg_out (o : PipelineOutcome) (start : List Token) (cap : ℕ)
    (old : Disposition) :
    (executePipelineBg o start cap old).out =
      (executePipelineBg o start cap old).forked.take cap := by
  have hnone : (BgLaunch.none old).out = (BgLaunch.none old).forked.take cap := List.take_nil.symm
  unfold executePipelineBg
  dsimp only
  split_ifs
  · exact hnone
  · exact hnone
  · exact hnone
  · exact hnone
  · exact hnone
  · exact foldl_recordBgStage cap [] _ (Nat.zero_le cap)

/-! ### The disposition -/

theorem executePipelineBg_sigpipe (o : PipelineOutcome) (start : List Token) (cap : ℕ)
    (old : Disposition) : (executePipelineBg o start cap old).sigpipe = old := by
  unfold executePipelineBg
  dsimp only
  split_ifs <;> rfl

/-- What `execute_pipeline` leaves: the old disposition, or SIGPIPE ignored after an
    early exit. -/
theorem executePipeline_sigpipe (o : PipelineOutcome) (start : List Token) (old : Disposition) :
    SetupOk o (executePipelineSegs start) ∧ (executePipeline o start old).sigpipe = old ∨
      ¬ SetupOk o (executePipelineSegs start) ∧ (executePipeline o start old).sigpipe = .ign := by
  unfold executePipeline
  dsimp only
  split_ifs with hseg hvalid hpipe hopen hstage
  · exact Or.inr ⟨fun h => by simp [h.segAlloc] at hseg, rfl⟩
  · exact Or.inr ⟨fun h => by simp [h.valid] at hvalid, rfl⟩
  · exact Or.inr ⟨fun h => by simp [h.pipeAlloc hpipe.1] at hpipe, rfl⟩
  · exact Or.inr ⟨fun h => by simp [h.pipes] at hopen, rfl⟩
  · exact Or.inr ⟨fun h => by simp [h.stageAlloc] at hstage, rfl⟩
  · refine Or.inl ⟨⟨by simpa using hseg, by simpa using hvalid, fun h => ?_, by simpa using hopen,
      by simpa using hstage⟩, rfl⟩
    simpa [h] using hpipe

/-- The disposition of the shell, and those with which background commands started. -/
structure SigState where
  sigpipe : Disposition
  launched : List Disposition
  deriving DecidableEq

/-- A call that `run_sequence` makes, with what goes wrong in it. -/
structure GroupRun where
  call : SeqStep
  outcome : PipelineOutcome

/-- A background command without a pipe is started. -/
def launchBgCommand (o : StageOutcome) (start : List Token) : Bool :=
  match if o.argvAlloc then ((extractBgArgv start).map Argv.argv).getD [] else [] with
  | [] => false
  | name :: _ => (isBuiltin name || o.resolved) && o.fork.isSome && o.redirsOpen

/-- What a group does to the disposition. A stage of a background pipeline sets SIGPIPE
    to its default; a background command without a pipe runs `bg_child_setup`, which
    does not, and so starts with the disposition of the shell. -/
def groupStep (s : SigState) (g : GroupRun) : Option SigState :=
  match g.call with
  | .skip _ => some s
  | .fg start =>
    if runGroupHasPipe start then
      some { s with sigpipe := (executePipeline g.outcome start s.sigpipe).sigpipe }
    else some s
  | .bg start =>
    if runBgGroupHasPipe start then
      let r := executePipelineBg g.outcome start maxJobProcs s.sigpipe
      let running := (executePipelineBgSegs start).segments.filter
        (fun x => runsCommand (g.outcome.stage x.2) x.1.1 x.1.2)
      some ⟨r.sigpipe, s.launched ++ if r.forked = [] then [] else running.map (fun _ => .dfl)⟩
    else if launchBgCommand (g.outcome.stage 0) start then
      some { s with launched := s.launched ++ [s.sigpipe] }
    else some s

/-- A foreground pipeline does not exit early, unless SIGPIPE is ignored anyway. -/
def CleanGroup (s : SigState) (g : GroupRun) : Prop :=
  s.sigpipe = .ign ∨ ∀ start, g.call = .fg start → runGroupHasPipe start = true →
    SetupOk g.outcome (executePipelineSegs start)

/-- One clean group keeps the disposition, and starts its commands with it or with the
    default. -/
theorem groupStep_clean {s t : SigState} {g : GroupRun} (hclean : CleanGroup s g)
    (h : groupStep s g = some t) :
    t.sigpipe = s.sigpipe ∧
      ∀ d ∈ t.launched, d ∈ s.launched ∨ d = s.sigpipe ∨ d = .dfl := by
  obtain ⟨call, o⟩ := g
  cases call with
  | skip head =>
    cases h
    exact ⟨rfl, fun d hd => Or.inl hd⟩
  | fg start =>
    rw [groupStep] at h
    by_cases hpipe : runGroupHasPipe start = true
    · simp only [if_pos hpipe, Option.some.injEq] at h
      subst h
      refine ⟨?_, fun d hd => Or.inl hd⟩
      rcases executePipeline_sigpipe o start s.sigpipe with ⟨-, hsig⟩ | ⟨hsetup, hsig⟩
      · exact hsig
      · rcases hclean with hign | hok
        · rw [hign] at hsig ⊢
          exact hsig
        · exact absurd (hok start rfl hpipe) hsetup
    · simp only [if_neg hpipe, Option.some.injEq] at h
      subst h
      exact ⟨rfl, fun d hd => Or.inl hd⟩
  | bg start =>
    rw [groupStep] at h
    by_cases hpipe : runBgGroupHasPipe start = true
    · simp only [if_pos hpipe, Option.some.injEq] at h
      subst h
      refine ⟨executePipelineBg_sigpipe o start maxJobProcs s.sigpipe, fun d hd => ?_⟩
      rcases List.mem_append.mp hd with hd | hd
      · exact Or.inl hd
      · split at hd
        · cases hd
        · obtain ⟨-, -, rfl⟩ := List.mem_map.mp hd
          exact Or.inr (Or.inr rfl)
    · simp only [if_neg hpipe] at h
      split at h
      · cases h
        refine ⟨rfl, fun d hd => ?_⟩
        rcases List.mem_append.mp hd with hd | hd
        · exact Or.inl hd
        · exact Or.inr (Or.inl (List.mem_singleton.mp hd))
      · cases h
        exact ⟨rfl, fun d hd => Or.inl hd⟩

/-- **The SIGPIPE disposition.** `execute_pipeline_bg` always leaves the disposition it
    found. `execute_pipeline` does exactly when SIGPIPE was ignored already or none of
    its calls before the first fork fails. After any number of command lines in which
    every foreground pipeline is of that kind, the disposition is the one at the start,
    and every background command was started with it or with the default. -/
theorem sigpipe_restored_iff (old : Disposition) :
    (∀ o start, (executePipeline o start old).sigpipe = old ↔
      old = .ign ∨ SetupOk o (executePipelineSegs start)) ∧
    (∀ o start cap, (executePipelineBg o start cap old).sigpipe = old) ∧
    ∀ gs t, Guarded groupStep CleanGroup ⟨old, []⟩ gs →
      exec groupStep ⟨old, []⟩ gs = some t →
      t.sigpipe = old ∧ ∀ d ∈ t.launched, d = old ∨ d = .dfl := by
  refine ⟨fun o start => ?_, fun o start cap => executePipelineBg_sigpipe o start cap old,
    fun gs t hclean h => ?_⟩
  · rcases executePipeline_sigpipe o start old with ⟨hok, hsig⟩ | ⟨hbad, hsig⟩
    · exact ⟨fun _ => Or.inr hok, fun _ => hsig⟩
    · rw [hsig]
      constructor
      · exact fun h => Or.inl h.symm
      · rintro (rfl | hok)
        · rfl
        · exact absurd hok hbad
  · refine exec_invariant_of_guarded
      (I := fun t => t.sigpipe = old ∧ ∀ d ∈ t.launched, d = old ∨ d = .dfl)
      (fun s g s' hI hok hst => ?_) ⟨rfl, by simp⟩ hclean h
    obtain ⟨hsig, hlaunched⟩ := groupStep_clean hok hst
    rw [hI.1] at hsig hlaunched
    refine ⟨hsig, fun d hd => ?_⟩
    rcases hlaunched d hd with hd | hd
    · exact hI.2 d hd
    · exact hd

/-- An outcome in which only the opening of the files may fail. -/
def onlyOpen (canOpen : Bool) : PipelineOutcome :=
  ⟨true, fun _ _ => canOpen, true, fun _ => true, true, fun _ => ⟨true, true, true, some 7⟩⟩

/-- `w < f | w`, where `f` does not exist, and then `w &`: the pipeline leaves SIGPIPE
    ignored, and the background command starts with it ignored. -/
theorem sigpipe_left_ignored :
    ∃ pipeline later : List Token,
      (validateGrammar pipeline).1 = 0 ∧ (validateGrammar later).1 = 0 ∧
      (executePipeline (onlyOpen false) pipeline .dfl).sigpipe = .ign ∧
      exec groupStep ⟨.dfl, []⟩
        [⟨.fg pipeline, onlyOpen false⟩, ⟨.bg later, onlyOpen true⟩] = some ⟨.ign, [.ign]⟩ := by
  refine ⟨[⟨.word, [119]⟩, ⟨.opLt, [60]⟩, ⟨.word, [102]⟩, ⟨.opPipe, [124]⟩, ⟨.word, [119]⟩],
    [⟨.word, [119]⟩, ⟨.opAmp, [38]⟩], by decide, by decide, by decide, by decide +kernel⟩

/-- With the file there, both the pipeline and the line behind it are clean. -/
theorem sigpipe_restored_open :
    let pipeline : List Token :=
      [⟨.word, [119]⟩, ⟨.opLt, [60]⟩, ⟨.word, [102]⟩, ⟨.opPipe, [124]⟩, ⟨.word, [119]⟩]
    (executePipeline (onlyOpen true) pipeline .dfl).sigpipe = .dfl := by
  intro pipeline
  refine ((sigpipe_restored_iff .dfl).1 (onlyOpen true) pipeline).mpr (Or.inr ?_)
  exact ⟨rfl, by decide, fun _ => rfl, by decide, rfl⟩

end MiniOs.Shell

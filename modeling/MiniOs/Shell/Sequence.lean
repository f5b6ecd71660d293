import MiniOs.Lib.Runs
import MiniOs.Shell.LineGrammar

/-!
# Command groups

`run_sequence` of `seq.c` cuts the line at `;` and `&` and calls `run_group` or
`run_bg_group` with a pointer to the first token of each group. The callee gets no
end pointer: every scan in it finds the end of the group again, at a `;` or `&` in
the foreground and at a `&` only in the background.

A `Token *` is the list from that node on.
-/

namespace MiniOs.Shell

/-- The operators that end a command group. -/
def TokenType.EndsGroup (t : TokenType) : Prop := t = .opSemi ∨ t = .opAmp

instance (t : TokenType) : Decidable t.EndsGroup := inferInstanceAs (Decidable (_ ∨ _))

/-- What `run_sequence` does at a group head. `start` is the pointer it passes. -/
inductive SeqStep where
  | skip (head : Token)
  | bg (start : List Token)
  | fg (start : List Token)
  deriving DecidableEq, Repr

/-- The inner loop of `run_sequence`: from `group` to the operator behind it. -/
def groupEnd (group : List Token) : List Token :=
  group.dropWhile (fun t => ¬ t.type.EndsGroup)

theorem length_groupEnd_le (group : List Token) : (groupEnd group).length ≤ group.length :=
  (List.dropWhile_suffix _).length_le

/-- The loop of `run_sequence`. The `n`-th call returns `rc n`; `run_bg_group`'s
    return value is not looked at. -/
def runSequenceFrom (rc : ℕ → Int) (n : ℕ) : List Token → List SeqStep
  | [] => []
  | t :: l =>
    if t.type ≠ .word then .skip t :: runSequenceFrom rc n l
    else
      match h : groupEnd (t :: l) with
      -- op == NULL: the last group, and `group` becomes NULL too
      | [] => [.fg (t :: l)]
      | op :: rest =>
        have hlt : rest.length < l.length + 1 := by
          have hle := length_groupEnd_le (t :: l)
          rw [h, List.length_cons, List.length_cons] at hle
          omega
        if op.type = .opAmp then .bg (t :: l) :: runSequenceFrom rc (n + 1) rest
        else if rc n ≠ 0 then [.fg (t :: l)]
        else .fg (t :: l) :: runSequenceFrom rc (n + 1) rest
  termination_by l => l.length
  decreasing_by
    · exact Nat.lt_succ_self l.length
    · exact hlt
    · exact hlt

def runSequence (rc : ℕ → Int) (tokens : List Token) : List SeqStep := runSequenceFrom rc 0 tokens

section Scan

variable (stop : TokenType → Prop) [DecidablePred stop]

/-- The tokens that `for (t = start; t != NULL; t = t->next)` visits when it breaks
    at the types in `stop`. -/
def scanUntil (start : List Token) : List Token := start.takeWhile (fun t => ¬ stop t.type)

def hasPipe : List Token → Bool
  | [] => false
  | t :: l =>
    if stop t.type then false
    else if t.type = .opPipe then true
    else hasPipe l

end Scan

/-- The tokens that a loop of `run_group`, `execute_pipeline` or
    `token_group_to_string` visits. -/
def runGroupScan : List Token → List Token := scanUntil TokenType.EndsGroup

/-- The tokens that a loop of `run_bg_group` or `execute_pipeline_bg` visits. -/
def runBgGroupScan : List Token → List Token := scanUntil (· = .opAmp)

def runGroupHasPipe : List Token → Bool := hasPipe TokenType.EndsGroup

def runBgGroupHasPipe : List Token → Bool := hasPipe (· = .opAmp)

def isPipe (t : Token) : Bool := t.type = .opPipe

/-- The call for a group `g` with `rest` behind it. -/
def callOf : List Token × List Token → SeqStep
  | (g, rest) => if rest.head?.map (·.type) = some .opAmp then .bg (g ++ rest) else .fg (g ++ rest)

variable {l : List Token}

theorem hasPipe_eq (stop : TokenType → Prop) [DecidablePred stop] (l : List Token) :
    hasPipe stop l = (scanUntil stop l).any isPipe := by
  induction l with
  | nil => rfl
  | cons t l ih =>
    rw [hasPipe, ih]
    by_cases hend : stop t.type
    · simp [scanUntil, hend]
    · have hscan : scanUntil stop (t :: l) = t :: scanUntil stop l := by simp [scanUntil, hend]
      rw [hscan, List.any_cons, if_neg hend]
      by_cases hp : t.type = .opPipe <;> simp [isPipe, hp]

/-! ### The groups of a valid line -/

/-- A word begins behind every separator, or the list ends there. -/
def SepFollowed (p : Token → Prop) (l : List Token) : Prop :=
  ∀ pre s post, l = pre ++ s :: post → p s → StartsWord post ∨ post = []

theorem OperatorsFollowed.sepFollowed {p : Token → Prop} (hp : ∀ t, p t → t.type ≠ .word)
    (h : OperatorsFollowed l) : SepFollowed p l := by
  intro pre s post hl hs
  exact (h pre s post hl (hp s hs)).imp_right And.right

theorem SepFollowed.of_append {p : Token → Prop} {g : List Token} (h : SepFollowed p (g ++ l)) :
    SepFollowed p l := by
  intro pre s post hl
  exact h (g ++ pre) s post (by rw [hl, List.append_assoc])

/-- A list of words and operators in which a word follows every separator is cut
    into runs that begin with a word. -/
theorem runs_of_followed {p : Token → Prop} (hp : ∀ t, p t → t.type ≠ .word)
    (hl : StartsWord l ∨ l = []) (hsep : SepFollowed p l) :
    ∃ gs, Runs p l gs ∧ ∀ r ∈ gs, StartsWord r.1 := by
  classical
  induction hn : l.length using Nat.strongRecOn generalizing l with
  | _ n ih =>
  subst hn
  rcases hl with ⟨w, l', rfl, hw⟩ | rfl
  · have hline := List.takeWhile_append_dropWhile (p := fun t => ¬ p t) (l := l')
    set g := l'.takeWhile (fun t => ¬ p t)
    -- the first word and what stands in front of the next separator
    have hfree : ∀ t ∈ w :: g, ¬ p t := by
      refine List.forall_mem_cons.mpr ⟨fun h => hp w h hw, fun t ht => ?_⟩
      simpa using List.mem_takeWhile_imp ht
    cases hend : l'.dropWhile (fun t => ¬ p t) with
    | nil =>
      rw [hend, List.append_nil] at hline
      rw [hline] at hfree
      exact ⟨[(w :: l', [])], .last (List.cons_ne_nil _ _) hfree, by simpa using hw⟩
    | cons s rest =>
      have hs : p s := by
        have h := List.head?_dropWhile_not (fun t => ¬ p t) l'
        rw [hend] at h
        simpa using h
      rw [hend] at hline
      have hsplit : w :: l' = w :: g ++ s :: rest := by rw [List.cons_append, hline]
      rw [hsplit] at hsep
      have hrest : SepFollowed p rest := by
        refine SepFollowed.of_append (g := w :: g ++ [s]) ?_
        simpa using hsep
      have hlt : rest.length < (w :: l').length := by
        rw [hsplit, List.length_append, List.length_cons (a := s)]
        omega
      obtain ⟨gs, hgs, hwords⟩ := ih rest.length hlt (hsep (w :: g) s rest rfl hs) hrest rfl
      rw [hsplit]
      refine ⟨(w :: g, s :: rest) :: gs, .cons (List.cons_ne_nil _ _) hfree hs hgs, ?_⟩
      exact List.forall_mem_cons.mpr ⟨startsWord_cons.mpr hw, hwords⟩
  · exact ⟨[], .nil, by simp⟩

abbrev GroupSep (t : Token) : Prop := t.type.EndsGroup

theorem GroupSep.ne_word (t : Token) (h : GroupSep t) : t.type ≠ .word := by
  rcases h with h | h <;> rw [h] <;> decide

theorem runs_of_valid (h : (validateGrammar l).1 = 0) :
    ∃ gs, Runs GroupSep l gs ∧ ∀ r ∈ gs, StartsWord r.1 := by
  rcases (validateGrammar_iff l).mp h with rfl | ⟨hw, hops⟩
  · exact ⟨[], .nil, by simp⟩
  · exact runs_of_followed GroupSep.ne_word (Or.inl hw) (hops.sepFollowed GroupSep.ne_word)

/-! ### The calls -/

/-- `k` of the calls are made: all of them, or those up to the first foreground
    call that returns nonzero. The first call is the `n`-th of the line. -/
structure MadeCalls (rc : ℕ → Int) (n : ℕ) (calls : List SeqStep) (k : ℕ) : Prop where
  le : k ≤ calls.length
  before : ∀ i start, i + 1 < k → calls[i]? = some (.fg start) → rc (n + i) = 0
  stop : k < calls.length →
    ∃ i start, i + 1 = k ∧ calls[i]? = some (.fg start) ∧ rc (n + i) ≠ 0

variable {rc : ℕ → Int} {n k : ℕ} {calls : List SeqStep} {c : SeqStep}

theorem MadeCalls.cons (h : MadeCalls rc (n + 1) calls k)
    (hc : ∀ start, c = .fg start → rc n = 0) : MadeCalls rc n (c :: calls) (k + 1) where
  le := by simpa using h.le
  before i start hi hcall := by
    cases i with
    | zero => exact hc start (by simpa using hcall)
    | succ i =>
      rw [List.getElem?_cons_succ] at hcall
      rw [← h.before i start (by omega) hcall]
      congr 1
      omega
  stop hk := by
    obtain ⟨i, start, rfl, hcall, hrc⟩ := h.stop (by simpa using hk)
    refine ⟨i + 1, start, rfl, by rwa [List.getElem?_cons_succ], ?_⟩
    have hidx : n + (i + 1) = n + 1 + i := by omega
    rwa [hidx]

theorem MadeCalls.fail {start : List Token} (hrc : rc n ≠ 0) :
    MadeCalls rc n (.fg start :: calls) 1 where
  le := by simp
  before i _ hi := by omega
  stop _ := ⟨0, start, rfl, rfl, by simpa using hrc⟩

theorem madeCalls_nil (rc : ℕ → Int) (n : ℕ) : MadeCalls rc n [] 0 where
  le := le_rfl
  before i _ hi := by omega
  stop hk := absurd hk (lt_irrefl 0)

/-- A last group is called, and the line ends whatever it returns. -/
theorem madeCalls_last (rc : ℕ → Int) (n : ℕ) (c : SeqStep) : MadeCalls rc n [c] 1 where
  le := le_rfl
  before i _ hi := by omega
  stop hk := absurd hk (lt_irrefl 1)

theorem runSequenceFrom_last {t : Token} (ht : t.type = .word) (hend : groupEnd (t :: l) = []) :
    runSequenceFrom rc n (t :: l) = [.fg (t :: l)] := by
  rw [runSequenceFrom, if_neg (not_not.mpr ht)]
  split
  · rfl
  · next op rest h =>
    rw [hend] at h
    cases h

theorem runSequenceFrom_group {t op : Token} {rest : List Token} (ht : t.type = .word)
    (hend : groupEnd (t :: l) = op :: rest) :
    runSequenceFrom rc n (t :: l) =
      if op.type = .opAmp then .bg (t :: l) :: runSequenceFrom rc (n + 1) rest
      else if rc n ≠ 0 then [.fg (t :: l)]
      else .fg (t :: l) :: runSequenceFrom rc (n + 1) rest := by
  rw [runSequenceFrom, if_neg (not_not.mpr ht)]
  split
  · next h =>
    rw [hend] at h
    cases h
  · next op' rest' h =>
    rw [hend] at h
    cases h
    rfl

/-- On the groups of a valid line, `run_sequence` makes one call after the other. -/
theorem runSequenceFrom_runs {gs : List (List Token × List Token)} (hgs : Runs GroupSep l gs)
    (hwords : ∀ r ∈ gs, StartsWord r.1) (n : ℕ) :
    ∃ k, runSequenceFrom rc n l = (gs.map callOf).take k ∧ MadeCalls rc n (gs.map callOf) k := by
  induction hgs generalizing n with
  | nil => exact ⟨0, by rw [runSequenceFrom]; rfl, madeCalls_nil rc n⟩
  | @last g hne hg =>
    obtain ⟨w, l', rfl, hw⟩ := hwords (g, []) List.mem_cons_self
    have hrun : IsRun GroupSep (w :: l') [] := ⟨hne, hg, by simp⟩
    have hend : groupEnd (w :: l') = [] := by
      have h := hrun.dropWhile
      rwa [List.append_nil] at h
    refine ⟨1, ?_, madeCalls_last rc n _⟩
    rw [runSequenceFrom_last hw hend]
    simp [callOf]
  | @cons g l s gs hne hg hs h ih =>
    obtain ⟨⟨w, g', rfl, hw⟩, hwords'⟩ := List.forall_mem_cons.mp hwords
    have hrun : IsRun GroupSep (w :: g') (s :: l) := ⟨hne, hg, by simpa using hs⟩
    have hend : groupEnd (w :: (g' ++ s :: l)) = s :: l := hrun.dropWhile
    obtain ⟨k, hk, hmade⟩ := ih hwords' (n + 1)
    rw [List.cons_append, runSequenceFrom_group hw hend, hk, List.map_cons]
    by_cases hamp : s.type = .opAmp
    · have hcall : callOf (w :: g', s :: l) = .bg (w :: (g' ++ s :: l)) := by simp [callOf, hamp]
      rw [if_pos hamp, hcall]
      exact ⟨k + 1, rfl, hmade.cons (by simp)⟩
    · have hcall : callOf (w :: g', s :: l) = .fg (w :: (g' ++ s :: l)) := by simp [callOf, hamp]
      rw [if_neg hamp, hcall]
      by_cases hrc : rc n = 0
      · rw [if_neg (not_not.mpr hrc)]
        exact ⟨k + 1, rfl, hmade.cons (fun _ _ => hrc)⟩
      · rw [if_pos hrc]
        exact ⟨1, rfl, .fail hrc⟩

/-- The scans of the callees stay inside the group they were called for. In the
    background the scan does not stop at a `;`, but there is none before the `&`. -/
theorem scans_of_isRun {g rest : List Token} (h : IsRun GroupSep g rest) :
    runGroupScan (g ++ rest) = g ∧
      (rest.head?.map (·.type) = some .opAmp → runBgGroupScan (g ++ rest) = g) := by
  refine ⟨h.takeWhile, fun hamp => ?_⟩
  have hrun : IsRun (fun t : Token => t.type = .opAmp) g rest := by
    refine ⟨h.ne_nil, fun t ht hamp => h.free t ht (Or.inr hamp), fun s hs => ?_⟩
    rw [Option.mem_def.mp hs] at hamp
    simpa using hamp
  exact hrun.takeWhile

/-- **The command groups partition the line.** `run_sequence` calls `run_group` and
    `run_bg_group` on the maximal runs between `;` and `&`, in order and without
    passing over a token; a run in front of a `&` goes to the background. It stops
    early only behind the first foreground call that returns nonzero, and the scans
    of the callee visit exactly the tokens of the run. -/
theorem run_sequence_partition (rc : ℕ → Int) (l : List Token)
    (hvalid : (validateGrammar l).1 = 0) :
    ∃ gs, Runs (fun t : Token => t.type = .opSemi ∨ t.type = .opAmp) l gs ∧
      l = gs.flatMap (fun r => r.1 ++ r.2.head?.toList) ∧
      (∀ g rest, (g, rest) ∈ gs → StartsWord g ∧
        runGroupScan (g ++ rest) = g ∧ runGroupHasPipe (g ++ rest) = g.any isPipe ∧
        (rest.head?.map (·.type) = some .opAmp →
          runBgGroupScan (g ++ rest) = g ∧ runBgGroupHasPipe (g ++ rest) = g.any isPipe)) ∧
      ∃ k, runSequence rc l = (gs.map callOf).take k ∧ k ≤ gs.length ∧
        (∀ i start, i + 1 < k → (gs.map callOf)[i]? = some (.fg start) → rc i = 0) ∧
        (k < gs.length →
          ∃ i start, i + 1 = k ∧ (gs.map callOf)[i]? = some (.fg start) ∧ rc i ≠ 0) := by
  obtain ⟨gs, hgs, hwords⟩ := runs_of_valid hvalid
  refine ⟨gs, hgs, hgs.flatten.symm, fun g rest hr => ?_, ?_⟩
  · obtain ⟨hscan, hbg⟩ := scans_of_isRun (hgs.isRun hr)
    refine ⟨hwords _ hr, hscan, ?_, fun hamp => ⟨hbg hamp, ?_⟩⟩
    · rw [runGroupHasPipe, hasPipe_eq]
      exact congrArg (List.any · isPipe) hscan
    · rw [runBgGroupHasPipe, hasPipe_eq]
      exact congrArg (List.any · isPipe) (hbg hamp)
  · obtain ⟨k, hk, hmade⟩ := runSequenceFrom_runs hgs hwords 0
    refine ⟨k, hk, by simpa using hmade.le, ?_, ?_⟩
    · simpa using hmade.before
    · simpa using hmade.stop

/-- `w ; w & w`, with a first group that fails: that group is the only call, the
    first of the calls for the groups of the line. -/
theorem run_sequence_partition_fail :
    let l : List Token :=
      [⟨.word, [119]⟩, ⟨.opSemi, [59]⟩, ⟨.word, [119]⟩, ⟨.opAmp, [38]⟩, ⟨.word, [119]⟩]
    ∃ gs k, Runs (fun t : Token => t.type = .opSemi ∨ t.type = .opAmp) l gs ∧
      [.fg l] = (gs.map callOf).take k ∧ k ≤ gs.length := by
  intro l
  have hrun : runSequence (fun _ => 1) l = [.fg l] := by
    rw [runSequence, runSequenceFrom_group rfl rfl, if_neg (by decide), if_pos (by decide)]
  obtain ⟨gs, hgs, -, -, k, hk, hle, -⟩ := run_sequence_partition (fun _ => 1) l (by decide)
  exact ⟨gs, k, hgs, hrun ▸ hk, hle⟩

end MiniOs.Shell

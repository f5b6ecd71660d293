import MiniOs.Shell.Grammar

/-!
# Argument vectors

Three functions build the `argv` of a command: `extract_group` in the foreground,
`extract_bg_argv` in the background and `extract_segment_argv` in a pipeline. Each
walks the tokens twice, first to count the words and then to store them. The last
two skip a redirection with its target and go on; `extract_group` stops at the
first redirection.

A `Token *` is the list from that node on. Within one list two pointers are equal
exactly when these lists are.
-/

namespace MiniOs.Shell

/-- A built argument vector: the strings in front of the final `NULL`, and
    `*out_argc`. -/
structure Argv where
  argv : List (List Byte)
  argc : ℕ
  deriving DecidableEq, Repr

/-- The operators at which `extract_group` breaks. -/
def breaksGroup (t : TokenType) : Prop :=
  t = .opSemi ∨ t = .opAmp ∨ t = .opLt ∨ t = .opGt ∨ t = .opGtgt ∨ t = .opPipe

instance (t : TokenType) : Decidable (breaksGroup t) :=
  inferInstanceAs (Decidable (_ ∨ _ ∨ _ ∨ _ ∨ _ ∨ _))

def groupCount : List Token → ℕ
  | [] => 0
  | t :: l =>
    if breaksGroup t.type then 0
    else if t.type = .word then groupCount l + 1
    else groupCount l

/-- The storing loop of `extract_group`. -/
def groupWords : List Token → List (List Byte)
  | [] => []
  | t :: l =>
    if breaksGroup t.type then []
    else if t.type = .word then t.value :: groupWords l
    else groupWords l

def extractGroup (start : List Token) : Argv := ⟨groupWords start, groupCount start⟩

section Skipping

variable (stop : List Token → Bool)

/-- The counting loop of the two functions that skip redirections, with
    `skip_next`; `stop` is the negated loop condition. Without a stop the loop would
    go on through a null pointer. -/
def skipCount : Bool → List Token → Option ℕ
  | _, [] => if stop [] then some 0 else none
  | skip, t :: l =>
    if stop (t :: l) then some 0
    else if t.type.IsRedir then skipCount true l
    else if skip then skipCount false l
    else if t.type = .word then (skipCount false l).map (· + 1)
    else skipCount false l

/-- Their storing loop. -/
def skipWords : Bool → List Token → Option (List (List Byte))
  | _, [] => if stop [] then some [] else none
  | skip, t :: l =>
    if stop (t :: l) then some []
    else if t.type.IsRedir then skipWords true l
    else if skip then skipWords false l
    else if t.type = .word then (skipWords false l).map (t.value :: ·)
    else skipWords false l

/-- Both loops. -/
def extractSkipping (start : List Token) : Option Argv := do
  let count ← skipCount stop false start
  let words ← skipWords stop false start
  pure ⟨words, count⟩

end Skipping

def atAmp : List Token → Bool
  | [] => true
  | t :: _ => t.type = .opAmp

def extractBgArgv (start : List Token) : Option Argv := extractSkipping atAmp start

/-- `extract_segment_argv`; `stop` is its parameter `end`. -/
def extractSegmentArgv (start stop : List Token) : Option Argv :=
  extractSkipping (fun t => t = stop) start

/-- The words that are not redirection targets, in order. -/
def args : List Token → List (List Byte)
  | [] => []
  | [t] => if t.type = .word then [t.value] else []
  | t :: w :: l =>
    if t.type = .word then t.value :: args (w :: l)
    else if t.type.IsRedir then args l
    else args (w :: l)

def isWord (t : Token) : Bool := t.type = .word

/-- No argument stands behind the first redirection. -/
def TrailingRedirs (g : List Token) : Prop := args (g.dropWhile isWord) = []

instance (g : List Token) : Decidable (TrailingRedirs g) := inferInstanceAs (Decidable (_ = _))

variable {t w : Token} {l g post : List Token}

theorem isWord_of_word (ht : t.type = .word) : isWord t = true := decide_eq_true ht

theorem not_isWord_of_redir (ht : t.type.IsRedir) : ¬ isWord t = true := by
  intro h
  rw [of_decide_eq_true h] at ht
  exact absurd ht (by decide)

theorem args_word (ht : t.type = .word) : args (t :: l) = t.value :: args l := by
  cases l <;> simp [args, ht]

theorem args_redir (ht : t.type.IsRedir) : args (t :: w :: l) = args l := by
  have hne : t.type ≠ .word := fun h => not_isWord_of_redir ht (isWord_of_word h)
  simp [args, hne, ht]

theorem not_redir_of_word (ht : t.type = .word) : ¬ t.type.IsRedir := by
  rw [ht]
  decide

/-- The two loops of `extract_group` agree on the number of words. -/
theorem groupCount_eq (l : List Token) : groupCount l = (groupWords l).length := by
  induction l with
  | nil => rfl
  | cons t l ih =>
    rw [groupCount, groupWords, ih]
    split
    · rfl
    · split <;> rfl

theorem skipCount_eq (stop : List Token → Bool) (skip : Bool) (l : List Token) :
    skipCount stop skip l = (skipWords stop skip l).map List.length := by
  induction l generalizing skip with
  | nil =>
    rw [skipCount, skipWords]
    split <;> rfl
  | cons t l ih =>
    rw [skipCount, skipWords, ih, ih]
    by_cases hstop : stop (t :: l) = true
    · rw [if_pos hstop, if_pos hstop]
      rfl
    · rw [if_neg hstop, if_neg hstop]
      by_cases hredir : t.type.IsRedir
      · rw [if_pos hredir, if_pos hredir]
      · rw [if_neg hredir, if_neg hredir]
        split
        · rfl
        · split
          · cases skipWords stop false l <;> rfl
          · rfl

/-- The skipping loops store the arguments of a command when they stop right behind
    it. -/
theorem skipWords_of_argTail {stop : List Token → Bool} (hg : ArgTail g)
    (hin : ∀ l t l', g = l ++ t :: l' → ¬ stop (t :: (l' ++ post)) = true)
    (hend : stop post = true) : skipWords stop false (g ++ post) = some (args g) := by
  induction hg with
  | nil =>
    rw [List.nil_append, args]
    cases post with
    | nil => exact if_pos hend
    | cons t post => exact if_pos hend
  | @word t g ht hl ih =>
    have hwords := ih (fun l t' l' h => hin (t :: l) t' l' (by rw [h]; rfl))
    rw [List.cons_append, skipWords, if_neg (hin [] t g rfl), if_neg (not_redir_of_word ht),
      if_neg Bool.false_ne_true, if_pos ht, hwords, args_word ht]
    rfl
  | @redir t w g ht hw hl ih =>
    have hwords := ih (fun l t' l' h => hin (t :: w :: l) t' l' (by rw [h]; rfl))
    rw [List.cons_append, skipWords, if_neg (hin [] t (w :: g) rfl), if_pos ht, List.cons_append,
      skipWords, if_neg (hin [t] w g rfl), if_neg (not_redir_of_word hw), if_pos rfl, hwords,
      args_redir ht]

theorem extractSkipping_of_argTail {stop : List Token → Bool} (hg : ArgTail g)
    (hin : ∀ l t l', g = l ++ t :: l' → ¬ stop (t :: (l' ++ post)) = true)
    (hend : stop post = true) :
    extractSkipping stop (g ++ post) = some ⟨args g, (args g).length⟩ := by
  rw [extractSkipping, skipCount_eq, skipWords_of_argTail hg hin hend]
  rfl

theorem ArgTail.not_sep (hg : ArgTail g) : ∀ t ∈ g, ¬ t.type.IsSep := by
  have hword : ∀ t : Token, t.type = .word → ¬ t.type.IsSep := by
    intro t ht
    rw [ht]
    decide
  have hredir : ∀ t : Token, t.type.IsRedir → ¬ t.type.IsSep := by
    intro t ht
    rcases ht with ht | ht | ht <;> rw [ht] <;> decide
  induction hg with
  | nil => simp
  | word ht hl ih => exact List.forall_mem_cons.mpr ⟨hword _ ht, ih⟩
  | redir ht hw hl ih =>
    exact List.forall_mem_cons.mpr ⟨hredir _ ht, List.forall_mem_cons.mpr ⟨hword _ hw, ih⟩⟩

theorem extractBgArgv_of_argTail {a : Token} (hg : ArgTail g) (ha : a.type = .opAmp) :
    extractBgArgv (g ++ a :: post) = some ⟨args g, (args g).length⟩ := by
  refine extractSkipping_of_argTail hg ?_ (decide_eq_true ha)
  intro l t l' h hstop
  have hamp : t.type = .opAmp := of_decide_eq_true hstop
  refine hg.not_sep t (by rw [h]; simp) ?_
  rw [hamp]
  decide

theorem extractSegmentArgv_of_argTail (hg : ArgTail g) :
    extractSegmentArgv (g ++ post) post = some ⟨args g, (args g).length⟩ := by
  refine extractSkipping_of_argTail hg ?_ (decide_eq_true rfl)
  intro l t l' _ hstop
  have hlen := congrArg List.length (of_decide_eq_true hstop)
  simp only [List.length_cons, List.length_append] at hlen
  omega

/-- In the foreground the words up to the first operator are stored. -/
theorem groupWords_of_argTail (hg : ArgTail g) (hpost : ∀ t ∈ post.head?, t.type.IsSep) :
    groupWords (g ++ post) = args (g.takeWhile isWord) := by
  induction hg with
  | nil =>
    cases post with
    | nil => rfl
    | cons t post =>
      have hbreak : breaksGroup t.type := by
        rcases hpost t rfl with ht | ht | ht <;> rw [ht] <;> decide
      exact if_pos hbreak
  | @word t g ht hl ih =>
    have hgo : ¬ breaksGroup t.type := by
      rw [ht]
      decide
    rw [List.cons_append, groupWords, if_neg hgo, if_pos ht, ih,
      List.takeWhile_cons_of_pos (isWord_of_word ht), args_word ht]
  | @redir t w g ht hw hl ih =>
    have hbreak : breaksGroup t.type := by
      rcases ht with ht | ht | ht <;> rw [ht] <;> decide
    rw [List.cons_append, groupWords, if_pos hbreak,
      List.takeWhile_cons_of_neg (not_isWord_of_redir ht), args]

/-- The arguments in front of the first redirection and those behind it. -/
theorem args_takeWhile_append (hg : ArgTail g) :
    args g = args (g.takeWhile isWord) ++ args (g.dropWhile isWord) := by
  induction hg with
  | nil => rfl
  | @word t g ht hl ih =>
    rw [List.takeWhile_cons_of_pos (isWord_of_word ht),
      List.dropWhile_cons_of_pos (isWord_of_word ht), args_word ht, args_word ht, List.cons_append,
      ← ih]
  | @redir t w g ht hw hl ih =>
    rw [List.takeWhile_cons_of_neg (not_isWord_of_redir ht),
      List.dropWhile_cons_of_neg (not_isWord_of_redir ht), args, List.nil_append]

theorem extractGroup_eq_iff (hg : ArgTail g) (hpost : ∀ t ∈ post.head?, t.type.IsSep) :
    extractGroup (g ++ post) = ⟨args g, (args g).length⟩ ↔ TrailingRedirs g := by
  rw [extractGroup, groupCount_eq, groupWords_of_argTail hg hpost, TrailingRedirs,
    args_takeWhile_append hg]
  constructor
  · intro h
    have hwords := congrArg Argv.argv h
    exact List.append_right_eq_self.mp hwords.symm
  · intro h
    rw [h, List.append_nil]

theorem IsCommand.argTail (hg : IsCommand g) : ArgTail g := by
  cases hg with
  | mk ht hl => exact .word ht hl

/-- **The three argument vectors.** For every command `g` of a line that
    `validate_grammar` accepts, the foreground, background and pipeline code build
    the same `argv`, namely the words that are not redirection targets, exactly when
    no argument stands behind a redirection. -/
theorem argv_agree_iff (pre g post : List Token)
    (hvalid : (validateGrammar (pre ++ g ++ post)).1 = 0) (hg : CommandAt pre g post) :
    (extractGroup (g ++ post) = ⟨args g, (args g).length⟩ ∧
      (∀ amp post', amp.type = .opAmp →
        extractBgArgv (g ++ amp :: post') = some ⟨args g, (args g).length⟩) ∧
      ∀ post', extractSegmentArgv (g ++ post') post' = some ⟨args g, (args g).length⟩) ↔
    TrailingRedirs g := by
  have htail := (isCommand_of_valid hvalid hg).argTail
  constructor
  · intro h
    exact (extractGroup_eq_iff htail hg.after).mp h.1
  · intro h
    exact ⟨(extractGroup_eq_iff htail hg.after).mpr h,
      fun _ _ hamp => extractBgArgv_of_argTail htail hamp,
      fun _ => extractSegmentArgv_of_argTail htail⟩

/-- `w > f a`, with one-letter words: the argument `a` behind the target `f` reaches
    the command in the background and in a pipeline, but not in the foreground. -/
theorem foreground_drops_argument :
    ∃ g amp : List Token, (validateGrammar g).1 = 0 ∧ CommandAt [] g [] ∧
      (extractGroup g).argv = [[119]] ∧
      (extractBgArgv (g ++ amp)).map Argv.argv = some [[119], [97]] ∧
      (extractSegmentArgv g []).map Argv.argv = some [[119], [97]] := by
  refine ⟨[⟨.word, [119]⟩, ⟨.opGt, [62]⟩, ⟨.word, [102]⟩, ⟨.word, [97]⟩], [⟨.opAmp, [38]⟩],
    by decide, ⟨by decide, by decide, by decide, by decide⟩, by decide, by decide, by decide⟩

/-- `w a > f` is built alike in all three ways. -/
theorem argv_agree_trailing :
    let g : List Token := [⟨.word, [119]⟩, ⟨.word, [97]⟩, ⟨.opGt, [62]⟩, ⟨.word, [102]⟩]
    extractGroup g = ⟨[[119], [97]], 2⟩ ∧
      extractSegmentArgv (g ++ [⟨.opPipe, [124]⟩]) [⟨.opPipe, [124]⟩] =
        some ⟨[[119], [97]], 2⟩ := by
  have hagree := (argv_agree_iff [] [⟨.word, [119]⟩, ⟨.word, [97]⟩, ⟨.opGt, [62]⟩, ⟨.word, [102]⟩]
    [] (by decide) ⟨by decide, by decide, by decide, by decide⟩).mpr (by decide)
  exact ⟨hagree.1, hagree.2.2 _⟩

end MiniOs.Shell

import MiniOs.Shell.Token

/-!
# The grammar check

`validate_grammar` of `lexer.c`: a recursive descent over the token list, one
function for each nonterminal of

    LINE  -> epsilon | WORD ARG
    ARG   -> epsilon | WORD ARG | OP_LT TGT | OP_GT TGT | OP_GTGT TGT
                     | OP_PIPE CMD | OP_SEMI CMD | OP_AMP BG
    CMD   -> WORD ARG
    TGT   -> WORD ARG
    BG    -> epsilon | WORD ARG
-/

namespace MiniOs.Shell

/-- The return value of a parse function and what it prints on `stderr`. -/
abbrev Verdict := Int × List String

def grammarError : Verdict := (-1, ["cshell: invalid syntax"])

mutual

def parseArg : List Token → Verdict
  | [] => (0, [])
  | t :: l =>
    match t.type with
    | .word => parseArg l
    | .opLt | .opGt | .opGtgt => parseTgt l
    | .opPipe | .opSemi => parseCmd l
    | .opAmp => parseBg l

def parseCmd : List Token → Verdict
  | [] => grammarError
  | t :: l => if t.type = .word then parseArg l else grammarError

def parseTgt : List Token → Verdict
  | [] => grammarError
  | t :: l => if t.type = .word then parseArg l else grammarError

def parseBg : List Token → Verdict
  | [] => (0, [])
  | t :: l => if t.type = .word then parseArg l else grammarError

end

def validateGrammar : List Token → Verdict
  | [] => (0, [])
  | t :: l => if t.type ≠ .word then grammarError else parseArg l

def TokenType.IsRedir (t : TokenType) : Prop := t = .opLt ∨ t = .opGt ∨ t = .opGtgt

instance (t : TokenType) : Decidable t.IsRedir := inferInstanceAs (Decidable (_ ∨ _ ∨ _))

/-- The operators that end a command. -/
def TokenType.IsSep (t : TokenType) : Prop := t = .opPipe ∨ t = .opSemi ∨ t = .opAmp

instance (t : TokenType) : Decidable t.IsSep := inferInstanceAs (Decidable (_ ∨ _ ∨ _))

theorem TokenType.cases_kind (t : TokenType) : t = .word ∨ t.IsRedir ∨ t.IsSep := by
  cases t <;> decide

/-- Words and redirections with their targets, in any order. -/
inductive ArgTail : List Token → Prop where
  | nil : ArgTail []
  | word {t : Token} {l : List Token} (ht : t.type = .word) (hl : ArgTail l) : ArgTail (t :: l)
  | redir {t w : Token} {l : List Token} (ht : t.type.IsRedir) (hw : w.type = .word)
      (hl : ArgTail l) : ArgTail (t :: w :: l)

inductive IsCommand : List Token → Prop where
  | mk {t : Token} {l : List Token} (ht : t.type = .word) (hl : ArgTail l) : IsCommand (t :: l)

/-- `g` stands between `pre` and `post` as one command of the line: it holds no
    separator, and it begins and ends where the line does or at a separator. -/
structure CommandAt (pre g post : List Token) : Prop where
  nonempty : g ≠ []
  inside : ∀ t ∈ g, ¬ t.type.IsSep
  before : ∀ t ∈ pre.getLast?, t.type.IsSep
  after : ∀ t ∈ post.head?, t.type.IsSep

variable {t : Token} {l g pre post : List Token}

theorem parseArg_word (ht : t.type = .word) : parseArg (t :: l) = parseArg l := by
  rw [parseArg, ht]

theorem parseArg_redir (ht : t.type.IsRedir) : parseArg (t :: l) = parseTgt l := by
  rcases ht with ht | ht | ht <;> rw [parseArg, ht]

theorem parseTgt_valid (h : (parseTgt l).1 = 0) :
    ∃ w l', l = w :: l' ∧ w.type = .word ∧ (parseArg l').1 = 0 := by
  cases l with
  | nil => cases h
  | cons w l' =>
    rw [parseTgt] at h
    split at h
    · next hw => exact ⟨w, l', rfl, hw, h⟩
    · cases h

/-- Behind a separator a command begins, or the line ends. -/
theorem parseArg_sep (ht : t.type.IsSep) (h : (parseArg (t :: l)).1 = 0) :
    ∀ w ∈ l.head?, w.type = .word ∧ (parseArg l.tail).1 = 0 := by
  rintro w hw
  cases l with
  | nil => cases hw
  | cons w' l' =>
    obtain rfl : w' = w := Option.some.inj hw
    have hnext : (if w'.type = .word then parseArg l' else grammarError).1 = 0 := by
      rcases ht with ht | ht | ht <;> rw [parseArg, ht] at h <;> exact h
    split at hnext
    · next hword => exact ⟨hword, hnext⟩
    · cases hnext

/-- The words and redirections in front of the next separator. -/
theorem argTail_of_valid (hg : ∀ t ∈ g, ¬ t.type.IsSep) (hpost : ∀ t ∈ post.head?, t.type.IsSep)
    (h : (parseArg (g ++ post)).1 = 0) : ArgTail g := by
  induction hn : g.length using Nat.strongRecOn generalizing g with
  | _ n ih =>
  subst hn
  cases g with
  | nil => exact .nil
  | cons t g =>
    rw [List.cons_append] at h
    rcases t.type.cases_kind with ht | ht | ht
    · rw [parseArg_word ht] at h
      exact .word ht (ih _ (by simp) (fun t' h' => hg t' (List.mem_cons_of_mem t h')) h rfl)
    · rw [parseArg_redir ht] at h
      obtain ⟨w, l', hl, hw, hrest⟩ := parseTgt_valid h
      cases g with
      | nil =>
        -- the target would be the separator
        rw [List.nil_append] at hl
        subst hl
        have hsep := hpost w rfl
        rw [hw] at hsep
        exact absurd hsep (by decide)
      | cons w' g =>
        rw [List.cons_append, List.cons.injEq] at hl
        obtain ⟨rfl, rfl⟩ := hl
        refine .redir ht hw (ih g.length ?_ (fun t' h' => hg t' ?_) hrest rfl)
        · simp only [List.length_cons]
          omega
        · exact List.mem_cons_of_mem t (List.mem_cons_of_mem w' h')
    · exact absurd ht (hg t List.mem_cons_self)

theorem word_after_sep {s : Token} (hs : s.type.IsSep)
    (h : (parseArg (pre ++ s :: l)).1 = 0) :
    ∀ w ∈ l.head?, w.type = .word ∧ (parseArg l.tail).1 = 0 := by
  induction hn : pre.length using Nat.strongRecOn generalizing pre with
  | _ n ih =>
  subst hn
  cases pre with
  | nil => exact parseArg_sep hs h
  | cons t pre =>
    rw [List.cons_append] at h
    rcases t.type.cases_kind with ht | ht | ht
    · rw [parseArg_word ht] at h
      exact ih _ (by simp) h rfl
    · rw [parseArg_redir ht] at h
      obtain ⟨w, l', hl, hw, hrest⟩ := parseTgt_valid h
      cases pre with
      | nil =>
        rw [List.nil_append, List.cons.injEq] at hl
        obtain ⟨rfl, -⟩ := hl
        rw [hw] at hs
        exact absurd hs (by decide)
      | cons w' pre =>
        rw [List.cons_append, List.cons.injEq] at hl
        obtain ⟨rfl, rfl⟩ := hl
        refine ih pre.length ?_ hrest rfl
        simp only [List.length_cons]
        omega
    · cases pre with
      | nil =>
        have hword := (parseArg_sep ht h s rfl).1
        rw [hword] at hs
        exact absurd hs (by decide)
      | cons w pre =>
        have hrest := (parseArg_sep ht h w rfl).2
        rw [List.cons_append, List.tail_cons] at hrest
        refine ih pre.length ?_ hrest rfl
        simp only [List.length_cons]
        omega

/-- **The groups of a valid line are commands.** -/
theorem isCommand_of_valid (hvalid : (validateGrammar (pre ++ g ++ post)).1 = 0)
    (hg : CommandAt pre g post) : IsCommand g := by
  obtain ⟨t, g, rfl⟩ := List.exists_cons_of_ne_nil hg.nonempty
  have hstart : t.type = .word ∧ (parseArg (g ++ post)).1 = 0 := by
    rcases List.eq_nil_or_concat' pre with rfl | ⟨pre, s, rfl⟩
    · rw [List.nil_append, List.cons_append, validateGrammar] at hvalid
      split at hvalid
      · cases hvalid
      · next ht => exact ⟨not_not.mp ht, hvalid⟩
    · have hs : s.type.IsSep := hg.before s (by simp)
      cases pre with
      | nil =>
        rw [List.nil_append, List.singleton_append, List.cons_append, validateGrammar] at hvalid
        split at hvalid
        · cases hvalid
        · next hword =>
          rw [not_not.mp hword] at hs
          exact absurd hs (by decide)
      | cons w pre =>
        have hline : w :: pre ++ [s] ++ t :: g ++ post =
            w :: (pre ++ s :: (t :: g ++ post)) := by simp
        rw [hline, validateGrammar] at hvalid
        split at hvalid
        · cases hvalid
        · exact word_after_sep hs hvalid t rfl
  exact .mk hstart.1 (argTail_of_valid
    (fun t' h' => hg.inside t' (List.mem_cons_of_mem t h')) hg.after hstart.2)

end MiniOs.Shell

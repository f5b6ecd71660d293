import MiniOs.Lib.RightLinear
import MiniOs.Shell.Grammar

/-!
# What `validate_grammar` accepts

The comment in `lexer.h` gives a right-linear grammar. The recursive descent accepts
exactly the words of that grammar, and these are the lines in which every operator
is followed by a word, with one exception for a closing `&`.
-/

namespace MiniOs.Shell

inductive Nonterminal where
  | line
  | arg
  | cmd
  | tgt
  | bg
  deriving DecidableEq, Repr

/-- The grammar in `lexer.h`. -/
def lineGrammar : RightLinear TokenType Nonterminal where
  initial := .line
  stops := {.line, .arg, .bg}
  arcs := {
    (.line, .word, .arg),
    (.arg, .word, .arg),
    (.arg, .opLt, .tgt),
    (.arg, .opGt, .tgt),
    (.arg, .opGtgt, .tgt),
    (.arg, .opPipe, .cmd),
    (.arg, .opSemi, .cmd),
    (.arg, .opAmp, .bg),
    (.cmd, .word, .arg),
    (.tgt, .word, .arg),
    (.bg, .word, .arg)}

def StartsWord (l : List Token) : Prop := ∃ w l', l = w :: l' ∧ w.type = .word

/-- Every operator is immediately followed by a word; a `&` may also be the last
    token. -/
def OperatorsFollowed (l : List Token) : Prop :=
  ∀ pre op post, l = pre ++ op :: post → op.type ≠ .word →
    StartsWord post ∨ op.type = .opAmp ∧ post = []

variable {t : Token} {l : List Token}

@[simp]
theorem startsWord_cons : StartsWord (t :: l) ↔ t.type = .word := by
  unfold StartsWord
  constructor
  · rintro ⟨w, l', h, hw⟩
    cases h
    exact hw
  · exact fun ht => ⟨t, l, rfl, ht⟩

@[simp]
theorem not_startsWord_nil : ¬ StartsWord [] := by
  rintro ⟨w, l', h, -⟩
  cases h

theorem operatorsFollowed_nil : OperatorsFollowed [] := by
  intro pre op post h
  simp at h

theorem operatorsFollowed_cons :
    OperatorsFollowed (t :: l) ↔
      (t.type ≠ .word → StartsWord l ∨ t.type = .opAmp ∧ l = []) ∧ OperatorsFollowed l := by
  constructor
  · intro h
    refine ⟨h [] t l rfl, fun pre op post hl => ?_⟩
    exact h (t :: pre) op post (by rw [hl, List.cons_append])
  · rintro ⟨ht, hl⟩ pre op post h
    cases pre with
    | nil =>
      cases h
      exact ht
    | cons t' pre =>
      rw [List.cons_append, List.cons.injEq] at h
      exact hl pre op post h.2

/-! ### The recursive descent -/

theorem word_then_arg (t : Token) (l : List Token) :
    (if t.type = .word then parseArg l else grammarError).1 = 0 ↔
      t.type = .word ∧ (parseArg (t :: l)).1 = 0 := by
  by_cases ht : t.type = .word
  · simp [ht, parseArg_word ht]
  · simp [ht, grammarError]

theorem parseCmd_iff (l : List Token) :
    (parseCmd l).1 = 0 ↔ StartsWord l ∧ (parseArg l).1 = 0 := by
  cases l with
  | nil => simp [parseCmd, grammarError]
  | cons t l => rw [parseCmd, word_then_arg, startsWord_cons]

theorem parseTgt_iff (l : List Token) :
    (parseTgt l).1 = 0 ↔ StartsWord l ∧ (parseArg l).1 = 0 := by
  cases l with
  | nil => simp [parseTgt, grammarError]
  | cons t l => rw [parseTgt, word_then_arg, startsWord_cons]

theorem parseBg_iff (l : List Token) :
    (parseBg l).1 = 0 ↔ (StartsWord l ∨ l = []) ∧ (parseArg l).1 = 0 := by
  cases l with
  | nil => simp [parseBg, parseArg]
  | cons t l =>
    rw [parseBg, word_then_arg, startsWord_cons]
    simp

theorem parseArg_iff (l : List Token) : (parseArg l).1 = 0 ↔ OperatorsFollowed l := by
  induction l with
  | nil => simp [parseArg, operatorsFollowed_nil]
  | cons t l ih =>
    rw [operatorsFollowed_cons, ← ih, parseArg]
    cases ht : t.type <;> simp [parseCmd_iff, parseTgt_iff, parseBg_iff]

theorem validateGrammar_iff (l : List Token) :
    (validateGrammar l).1 = 0 ↔ l = [] ∨ StartsWord l ∧ OperatorsFollowed l := by
  cases l with
  | nil => simp [validateGrammar]
  | cons t l =>
    by_cases ht : t.type = .word
    · simp [validateGrammar, ht, parseArg_iff, operatorsFollowed_cons]
    · simp [validateGrammar, ht, grammarError]

/-! ### The grammar -/

theorem accepts_word_arg {A : Nonterminal} (hA : A = .cmd ∨ A = .tgt) (l : List Token) :
    lineGrammar.Accepts A (l.map (·.type)) ↔
      StartsWord l ∧ lineGrammar.Accepts .arg (l.map (·.type)) := by
  cases l with
  | nil => rcases hA with rfl | rfl <;> simp [RightLinear.accepts_nil, lineGrammar]
  | cons t l =>
    rw [List.map_cons, RightLinear.accepts_cons, RightLinear.accepts_cons, startsWord_cons]
    rcases hA with rfl | rfl <;> cases t.type <;> simp [lineGrammar]

theorem accepts_bg (l : List Token) :
    lineGrammar.Accepts .bg (l.map (·.type)) ↔
      (StartsWord l ∨ l = []) ∧ lineGrammar.Accepts .arg (l.map (·.type)) := by
  cases l with
  | nil => simp [RightLinear.accepts_nil, lineGrammar]
  | cons t l =>
    rw [List.map_cons, RightLinear.accepts_cons, RightLinear.accepts_cons, startsWord_cons]
    cases t.type <;> simp [lineGrammar]

def argRule : TokenType → Nonterminal
  | .word => .arg
  | .opLt | .opGt | .opGtgt => .tgt
  | .opPipe | .opSemi => .cmd
  | .opAmp => .bg

theorem mem_arcs_arg (a : TokenType) (B : Nonterminal) :
    (Nonterminal.arg, a, B) ∈ lineGrammar.arcs ↔ B = argRule a := by
  cases a <;> cases B <;> decide

theorem accepts_arg_iff (l : List Token) :
    lineGrammar.Accepts .arg (l.map (·.type)) ↔ OperatorsFollowed l := by
  induction l with
  | nil => simp [RightLinear.accepts_nil, lineGrammar, operatorsFollowed_nil]
  | cons t l ih =>
    rw [operatorsFollowed_cons, ← ih, List.map_cons, RightLinear.accepts_cons]
    simp only [mem_arcs_arg, exists_eq_left]
    have hcmd := accepts_word_arg (A := .cmd) (Or.inl rfl) l
    have htgt := accepts_word_arg (A := .tgt) (Or.inr rfl) l
    have hbg := accepts_bg l
    cases t.type <;> simp [argRule, hcmd, htgt, hbg]

theorem accepts_line_iff (l : List Token) :
    lineGrammar.Accepts .line (l.map (·.type)) ↔ l = [] ∨ StartsWord l ∧ OperatorsFollowed l := by
  cases l with
  | nil => simp [RightLinear.accepts_nil, lineGrammar]
  | cons t l =>
    rw [List.map_cons, RightLinear.accepts_cons, operatorsFollowed_cons, startsWord_cons,
      ← accepts_arg_iff]
    cases t.type <;> simp [lineGrammar]

/-- **`validate_grammar` accepts exactly its grammar**: it returns 0 on the lines
    whose token types the grammar of `lexer.h` derives, which are the empty line and
    the lines that begin with a word and have every operator followed by one. -/
theorem validate_grammar_exact (l : List Token) :
    ((validateGrammar l).1 = 0 ↔ l.map (·.type) ∈ lineGrammar.toContextFree.language) ∧
    ((validateGrammar l).1 = 0 ↔
      l = [] ∨ (∃ w l', l = w :: l' ∧ w.type = .word) ∧
        ∀ pre op post, l = pre ++ op :: post → op.type ≠ .word →
          (∃ w post', post = w :: post' ∧ w.type = .word) ∨ op.type = .opAmp ∧ post = []) := by
  constructor
  · rw [RightLinear.mem_language_iff, validateGrammar_iff]
    exact (accepts_line_iff l).symm
  · exact validateGrammar_iff l

end MiniOs.Shell

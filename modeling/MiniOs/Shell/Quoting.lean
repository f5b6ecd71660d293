import MiniOs.Shell.QuoteAutomaton

/-!
# Writing tokens down

How a user can write a token so that the lexer reads it back. An operator is its symbol. A
word can be put in single quotes, in double quotes or behind backslashes, each with its
own way to write the characters that would end it, and a word without special characters
can be written as it is.

Each way of writing is undone by the quote automaton from the state it puts the automaton
in, and every piece leaves the automaton between tokens as soon as a blank follows. So the
pieces of a line can be read one after the other.
-/

namespace MiniOs.Shell

/-- A character that means nothing to the lexer. -/
def Plain (c : Byte) : Prop :=
  ¬ isspace c ∧ ¬ isOp c ∧ c ≠ Byte.backslash ∧ c ≠ Byte.squote ∧ c ≠ Byte.dquote

instance (c : Byte) : Decidable (Plain c) := inferInstanceAs (Decidable (_ ∧ _ ∧ _ ∧ _ ∧ _))

def TokenType.symbol : TokenType → List Byte
  | .word => []
  | .opPipe => [Byte.bar]
  | .opAmp => [Byte.amp]
  | .opGt => [Byte.gt]
  | .opGtgt => [Byte.gt, Byte.gt]
  | .opLt => [Byte.lt]
  | .opSemi => [Byte.semi]

inductive Piece where
  | single (w : List Byte)
  | double (w : List Byte)
  /-- There is no way to write the empty word with backslashes. -/
  | escaped (w : List Byte) (hw : w ≠ [])
  | plain (w : List Byte) (hw : w ≠ []) (hplain : ∀ c ∈ w, Plain c)
  | op (type : TokenType) (hop : type ≠ .word)

def Piece.token : Piece → Token
  | .single w => ⟨.word, w⟩
  | .double w => ⟨.word, w⟩
  | .escaped w _ => ⟨.word, w⟩
  | .plain w _ _ => ⟨.word, w⟩
  | .op type _ => ⟨type, type.symbol⟩

/-- A character in single quotes; the quote itself is written outside them. -/
def singleChar (c : Byte) : List Byte :=
  if c = Byte.squote then [Byte.squote, Byte.backslash, Byte.squote, Byte.squote] else [c]

def doubleChar (c : Byte) : List Byte :=
  if c = Byte.dquote ∨ c = Byte.backslash then [Byte.backslash, c] else [c]

def escapedChar (c : Byte) : List Byte := [Byte.backslash, c]

def Piece.text : Piece → List Byte
  | .single w => Byte.squote :: (w.flatMap singleChar ++ [Byte.squote])
  | .double w => Byte.dquote :: (w.flatMap doubleChar ++ [Byte.dquote])
  | .escaped w _ => w.flatMap escapedChar
  | .plain w _ _ => w
  | .op type _ => type.symbol

/-- A line of pieces, each with the blanks behind it. -/
def writeLine (l : List (Piece × List Byte)) : List Byte := l.flatMap (fun x => x.1.text ++ x.2)

variable {c : Byte} {t w buf : List Byte} {toks : List Token}

/-! ### The automaton inside a word -/

/-- The automaton reads a written character and appends it to the word. -/
theorem rest_flatMap (st : List Byte → Scan) (write : Byte → List Byte)
    (hchar : ∀ buf t, ∀ c ∈ w, rest (st buf) toks (write c ++ t) = rest (st (buf ++ [c])) toks t) :
    rest (st buf) toks (w.flatMap write ++ t) = rest (st (buf ++ w)) toks t := by
  induction w generalizing buf with
  | nil => rw [List.append_nil, List.flatMap_nil, List.nil_append]
  | cons c w ih =>
    rw [List.flatMap_cons, List.append_assoc, hchar buf _ c List.mem_cons_self,
      ih (fun buf t d hd => hchar buf t d (List.mem_cons_of_mem c hd)), List.append_assoc,
      List.singleton_append]

theorem rest_word_backslash : rest (.word buf) toks (Byte.backslash :: c :: t) =
    rest (.word (buf ++ [c])) toks t := by
  rw [rest_word_char buf (by decide)]
  rfl

theorem rest_word_squote : rest (.word buf) toks (Byte.squote :: t) =
    rest (.single buf) toks t := by
  rw [rest_word_char buf (by decide)]
  rfl

theorem rest_word_dquote : rest (.word buf) toks (Byte.dquote :: t) =
    rest (.double buf false) toks t := by
  rw [rest_word_char buf (by decide)]
  rfl

theorem rest_word_plain (hc : Plain c) : rest (.word buf) toks (c :: t) =
    rest (.word (buf ++ [c])) toks t := by
  obtain ⟨hspace, hop, hbs, hsq, hdq⟩ := hc
  rw [rest_word_char buf (not_or.mpr ⟨hspace, hop⟩), wordChar, if_neg hbs, if_neg hsq, if_neg hdq]

theorem rest_singleChar : rest (.single buf) toks (singleChar c ++ t) =
    rest (.single (buf ++ [c])) toks t := by
  by_cases hc : c = Byte.squote
  · -- the quotes are left, the escaped quote is read, and the quotes are opened again
    have hclose : rest (.single buf) toks (Byte.squote :: Byte.backslash :: c :: Byte.squote :: t) =
        rest (.word buf) toks (Byte.backslash :: c :: Byte.squote :: t) := rfl
    rw [singleChar, if_pos hc, ← hc]
    rw [← hc] at hclose
    rw [List.cons_append, List.cons_append, List.cons_append, List.cons_append, List.nil_append,
      hclose, rest_word_backslash, hc, rest_word_squote]
  · rw [singleChar, if_neg hc, List.singleton_append, rest_cons, scanStep, if_neg hc]

theorem rest_doubleChar : rest (.double buf false) toks (doubleChar c ++ t) =
    rest (.double (buf ++ [c]) false) toks t := by
  by_cases hc : c = Byte.dquote ∨ c = Byte.backslash
  · have hopen : rest (.double buf false) toks (Byte.backslash :: c :: t) =
        rest (.double buf true) toks (c :: t) := rfl
    rw [doubleChar, if_pos hc, List.cons_append, List.singleton_append, hopen, rest_cons, scanStep,
      if_pos hc]
  · rw [doubleChar, if_neg hc, List.singleton_append]
    rw [not_or] at hc
    rw [rest_cons, scanStep, if_neg hc.1, if_neg hc.2]

/-! ### The automaton between tokens -/

def Ends (t : List Byte) : Prop := ∀ c ∈ t.head?, isspace c

theorem rest_word_ends (ht : Ends t) : rest (.word w) toks t =
    rest (.between false) (toks ++ [⟨.word, w⟩]) t := by
  cases t with
  | nil => rfl
  | cons c t => exact rest_word_delim w (.inl (ht c rfl))

theorem rest_blanks (hw : ∀ c ∈ w, isspace c) :
    rest (.between false) toks (w ++ t) = rest (.between false) toks t := by
  induction w with
  | nil => rfl
  | cons c w ih =>
    rw [List.cons_append, rest_between_space (hw c List.mem_cons_self),
      ih (fun d hd => hw d (List.mem_cons_of_mem c hd))]

theorem rest_op {type : TokenType} (hop : type ≠ .word) (ht : Ends t) :
    rest (.between false) toks (type.symbol ++ t) =
      rest (.between false) (toks ++ [⟨type, type.symbol⟩]) t := by
  cases type with
  | word => exact absurd rfl hop
  | opGt =>
    -- the blank keeps the symbol from becoming `>>`
    refine rest_between_gt (fun d hd heq => ?_)
    have hspace := ht d hd
    rw [heq] at hspace
    exact absurd hspace (by decide)
  | _ => rfl

/-- A word that does not start with a blank or an operator character. -/
theorem rest_between_text (hhead : ∀ c ∈ w.head?, ¬ (isspace c ∨ isOp c)) (hw : w ≠ []) :
    rest (.between false) toks (w ++ t) = rest (.word []) toks (w ++ t) := by
  cases w with
  | nil => exact absurd rfl hw
  | cons c w => exact rest_between_word (hhead c rfl)

/-- **One piece.** Behind a piece that is followed by a blank or by the end of the line, the
    automaton is between tokens and has emitted the token. -/
theorem rest_piece (p : Piece) (ht : Ends t) :
    rest (.between false) toks (p.text ++ t) = rest (.between false) (toks ++ [p.token]) t := by
  cases p with
  | single w =>
    have hword : rest (.word []) toks ((Piece.single w).text ++ t) = rest (.word w) toks t := by
      rw [Piece.text, List.cons_append, List.append_assoc, rest_word_squote,
        rest_flatMap Scan.single singleChar (fun _ _ _ _ => rest_singleChar)]
      rfl
    have hquote : ∀ c ∈ (Piece.single w).text.head?, ¬ (isspace c ∨ isOp c) := by
      rintro c ⟨⟩
      decide
    rw [rest_between_text hquote (by simp [Piece.text]), hword]
    exact rest_word_ends ht
  | double w =>
    have hword : rest (.word []) toks ((Piece.double w).text ++ t) = rest (.word w) toks t := by
      rw [Piece.text, List.cons_append, List.append_assoc, rest_word_dquote,
        rest_flatMap (Scan.double · false) doubleChar (fun _ _ _ _ => rest_doubleChar)]
      rfl
    have hquote : ∀ c ∈ (Piece.double w).text.head?, ¬ (isspace c ∨ isOp c) := by
      rintro c ⟨⟩
      decide
    rw [rest_between_text hquote (by simp [Piece.text]), hword]
    exact rest_word_ends ht
  | escaped w hw =>
    have hword : rest (.word []) toks (w.flatMap escapedChar ++ t) = rest (.word w) toks t :=
      rest_flatMap Scan.word escapedChar (fun _ _ _ _ => rest_word_backslash)
    have hstart : rest (.between false) toks (w.flatMap escapedChar ++ t) =
        rest (.word []) toks (w.flatMap escapedChar ++ t) := by
      cases w with
      | nil => exact absurd rfl hw
      | cons c w => exact rest_between_word (c := Byte.backslash) (by decide)
    exact (hstart.trans hword).trans (rest_word_ends ht)
  | plain w hw hplain =>
    have hword : rest (.word []) toks (w ++ t) = rest (.word w) toks t := by
      have hflat : rest (.word []) toks (w.flatMap (fun c => [c]) ++ t) = rest (.word w) toks t :=
        rest_flatMap Scan.word _ (fun _ _ c hc => rest_word_plain (hplain c hc))
      rwa [List.flatMap_singleton'] at hflat
    have hhead : ∀ c ∈ w.head?, ¬ (isspace c ∨ isOp c) := by
      intro c hc
      obtain ⟨hspace, hop, -⟩ := hplain c (List.mem_of_mem_head? hc)
      exact not_or.mpr ⟨hspace, hop⟩
    rw [Piece.text, rest_between_text hhead hw, hword]
    exact rest_word_ends ht
  | op type hop => exact rest_op hop ht

/-! ### Whole lines -/

/-- Consecutive pieces are separated: the blanks behind a piece are blanks, and only the
    last piece may have none. -/
structure Separated (l : List (Piece × List Byte)) : Prop where
  blanks : ∀ x ∈ l, ∀ c ∈ x.2, isspace c
  apart : ∀ x ∈ l.dropLast, x.2 ≠ []

def WordsNulFree (l : List (Piece × List Byte)) : Prop := ∀ x ∈ l, NulFree x.1.token.value

variable {x : Piece × List Byte} {l : List (Piece × List Byte)}

theorem Separated.tail (h : Separated (x :: l)) : Separated l := by
  refine ⟨fun y hy => h.blanks y (List.mem_cons_of_mem x hy), fun y hy => ?_⟩
  cases l with
  | nil => cases hy
  | cons z l => exact h.apart y (List.mem_cons_of_mem x hy)

theorem Separated.ends (h : Separated (x :: l)) : Ends (x.2 ++ writeLine l) := by
  intro c hc
  cases hblanks : x.2 with
  | cons d bs =>
    rw [hblanks] at hc
    cases hc
    exact h.blanks x List.mem_cons_self c (by simp [hblanks])
  | nil =>
    -- nothing stands behind the last piece
    cases l with
    | nil =>
      rw [hblanks] at hc
      cases hc
    | cons z l => exact absurd hblanks (h.apart x List.mem_cons_self)

/-- **Run lemma**: the automaton reads a line piece by piece. -/
theorem rest_writeLine (h : Separated l) : rest (.between false) toks (writeLine l) =
    some (toks ++ l.map (fun x => x.1.token)) := by
  induction l generalizing toks with
  | nil =>
    rw [List.map_nil, List.append_nil]
    rfl
  | cons x l ih =>
    have hline : writeLine (x :: l) = x.1.text ++ (x.2 ++ writeLine l) := by
      rw [writeLine, List.flatMap_cons, List.append_assoc]
      rfl
    rw [hline, rest_piece x.1 h.ends, rest_blanks (h.blanks x List.mem_cons_self), ih h.tail,
      List.append_assoc, List.singleton_append, List.map_cons]

/-- Writing a piece puts only quotes, backslashes and operators next to its characters. -/
theorem nulFree_text {p : Piece} (hp : NulFree p.token.value) : NulFree p.text := by
  have hflat : ∀ {w : List Byte} {write : Byte → List Byte}, NulFree w →
      (∀ c, c ≠ Byte.nul → NulFree (write c)) → NulFree (w.flatMap write) := by
    intro w write hw hwrite d hd
    obtain ⟨c, hc, hd⟩ := List.mem_flatMap.mp hd
    exact hwrite c (hw c hc) d hd
  have hquoted : ∀ {q : Byte} {t : List Byte}, q ≠ Byte.nul → NulFree t →
      NulFree (q :: (t ++ [q])) := by
    intro q t hq ht d hd
    rw [List.mem_cons, List.mem_append, List.mem_singleton] at hd
    rcases hd with rfl | hd | rfl
    · exact hq
    · exact ht d hd
    · exact hq
  cases p with
  | single w =>
    refine hquoted (by decide) (hflat hp fun c hc => ?_)
    unfold singleChar
    split
    · decide
    · exact nulFree_cons.mpr ⟨hc, by simp [NulFree]⟩
  | double w =>
    refine hquoted (by decide) (hflat hp fun c hc => ?_)
    unfold doubleChar
    split
    · exact nulFree_cons.mpr ⟨by decide, nulFree_cons.mpr ⟨hc, by simp [NulFree]⟩⟩
    · exact nulFree_cons.mpr ⟨hc, by simp [NulFree]⟩
  | escaped w hw =>
    refine hflat hp fun c hc => ?_
    exact nulFree_cons.mpr ⟨by decide, nulFree_cons.mpr ⟨hc, by simp [NulFree]⟩⟩
  | plain w hw hplain => exact hp
  | op type hop => exact hp

theorem nul_not_isspace : ¬ isspace Byte.nul := by decide

theorem nulFree_writeLine (h : Separated l) (hl : WordsNulFree l) : NulFree (writeLine l) := by
  intro c hc
  obtain ⟨x, hx, hc⟩ := List.mem_flatMap.mp hc
  rcases List.mem_append.mp hc with hc | hc
  · exact nulFree_text (hl x hx) c hc
  · rintro rfl
    exact nul_not_isspace (h.blanks x hx _ hc)

theorem tokenize_eq_rest {s : List Byte} (hs : NulFree s) :
    tokenize s = .ok (lexed (rest (.between false) [] s)) :=
  tokenizeLoop_spec (Nat.lt_succ_self s.length) hs []

/-- **Quoting round trip.** Write the words of any list of tokens in single quotes, in
    double quotes, behind backslashes or, if no character needs it, as they are, write the
    operators by their symbols, and put one or more blanks between consecutive tokens:
    `tokenize` returns exactly the tokens. -/
theorem quoting_round_trip (l : List (Piece × List Byte)) (hsep : Separated l)
    (hnul : WordsNulFree l) :
    tokenize (writeLine l) = .ok
      { ret := 0, list := ⟨l.map (fun x => x.1.token), l.length⟩, err := [] } := by
  rw [tokenize_eq_rest (nulFree_writeLine hsep hnul), rest_writeLine hsep, List.nil_append, lexed,
    List.length_map]

/-- The words `it's`, `"\` and the empty word around `>` and `>>`. -/
def quotedLine : List (Piece × List Byte) :=
  [(.single [105, 116, 39, 115], [32]), (.op .opGt (by simp), [9, 10]), (.double [34, 92], [32]),
    (.op .opGtgt (by simp), [32]), (.single [], [32]), (.escaped [39, 59, 32] (by simp), [])]

theorem quoting_round_trip_line :
    ∃ r, tokenize (writeLine quotedLine) = .ok r ∧ r.ret = 0 ∧
      r.list.tokens = [⟨.word, [105, 116, 39, 115]⟩, ⟨.opGt, [62]⟩, ⟨.word, [34, 92]⟩,
        ⟨.opGtgt, [62, 62]⟩, ⟨.word, []⟩, ⟨.word, [39, 59, 32]⟩] := by
  have hsep : Separated quotedLine := ⟨by decide +kernel, by decide⟩
  have hnul : WordsNulFree quotedLine := by
    unfold WordsNulFree
    decide
  exact ⟨_, quoting_round_trip quotedLine hsep hnul, rfl, rfl⟩

end MiniOs.Shell

import Mathlib.Data.List.TakeWhile
import MiniOs.Shell.Lexer

/-!
# The lexer as a quote automaton

The language of words, quotes and operators, told by a transducer that reads the
line once from left to right. Its five states carry what it needs of the past: a
`>` that may still become `>>`, the word read so far, and in double quotes a
backslash that may still turn out to escape something.

`tokenize` reaches the same tokens with nested loops, lookahead and a buffer. Each
loop is related to the automaton by what is left to do: running the automaton
from the state the loop stands for on the rest of the line gives the same result
before and after the loop.
-/

namespace MiniOs.Shell

/-- The states of the automaton. -/
inductive Scan where
  /-- Between tokens; `gt` after a `>` that may become `>>`. -/
  | between (gt : Bool)
  /-- In a word, outside quotes. -/
  | word (buf : List Byte)
  /-- After an unquoted backslash. -/
  | escape (buf : List Byte)
  /-- In single quotes. -/
  | single (buf : List Byte)
  /-- In double quotes; `bs` after a backslash. -/
  | double (buf : List Byte) (bs : Bool)
  deriving DecidableEq, Repr

/-- The token of a one-character operator. -/
def opToken (c : Byte) : Token :=
  if c = Byte.lt then ⟨.opLt, [Byte.lt]⟩
  else if c = Byte.bar then ⟨.opPipe, [Byte.bar]⟩
  else if c = Byte.amp then ⟨.opAmp, [Byte.amp]⟩
  else if c = Byte.gt then ⟨.opGt, [Byte.gt]⟩
  else ⟨.opSemi, [Byte.semi]⟩

/-- A character of a word, outside quotes. -/
def wordChar (buf : List Byte) (c : Byte) : Scan :=
  if c = Byte.backslash then .escape buf
  else if c = Byte.squote then .single buf
  else if c = Byte.dquote then .double buf false
  else .word (buf ++ [c])

def betweenChar (toks : List Token) (c : Byte) : Scan × List Token :=
  if isspace c then (.between false, toks)
  else if c = Byte.gt then (.between true, toks)
  else if isOp c then (.between false, toks ++ [opToken c])
  else (wordChar [] c, toks)

/-- One step of the automaton: the next state, and the tokens emitted so far. -/
def scanStep : Scan × List Token → Byte → Scan × List Token
  | (.between false, toks), c => betweenChar toks c
  | (.between true, toks), c =>
    if c = Byte.gt then (.between false, toks ++ [⟨.opGtgt, [Byte.gt, Byte.gt]⟩])
    else betweenChar (toks ++ [opToken Byte.gt]) c
  | (.word buf, toks), c =>
    if isspace c ∨ isOp c then betweenChar (toks ++ [⟨.word, buf⟩]) c
    else (wordChar buf c, toks)
  | (.escape buf, toks), c => (.word (buf ++ [c]), toks)
  | (.single buf, toks), c =>
    if c = Byte.squote then (.word buf, toks) else (.single (buf ++ [c]), toks)
  | (.double buf false, toks), c =>
    if c = Byte.dquote then (.word buf, toks)
    else if c = Byte.backslash then (.double buf true, toks)
    else (.double (buf ++ [c]) false, toks)
  | (.double buf true, toks), c =>
    if c = Byte.dquote ∨ c = Byte.backslash then (.double (buf ++ [c]) false, toks)
    else (.double (buf ++ [Byte.backslash, c]) false, toks)

/-- The automaton on a whole line. -/
def scan (s : List Byte) : Scan × List Token := s.foldl scanStep (.between false, [])

/-- An open quote, or a backslash with nothing behind it. -/
def Scan.Incomplete : Scan → Prop
  | .between _ => False
  | .word _ => False
  | .escape _ => True
  | .single _ => True
  | .double _ _ => True

instance (st : Scan) : Decidable st.Incomplete := by
  cases st <;> unfold Scan.Incomplete <;> infer_instance

/-- The tokens of a line that ends in the given state. -/
def Scan.tokens : Scan × List Token → List Token
  | (.between true, toks) => toks ++ [opToken Byte.gt]
  | (.word buf, toks) => toks ++ [⟨.word, buf⟩]
  | (_, toks) => toks

/-- The outcome of the automaton on the rest `t` of a line. -/
def rest (st : Scan) (toks : List Token) (t : List Byte) : Option (List Token) :=
  let e := t.foldl scanStep (st, toks)
  if e.1.Incomplete then none else some (Scan.tokens e)

def NulFree (t : List Byte) : Prop := ∀ c ∈ t, c ≠ Byte.nul

instance (t : List Byte) : Decidable (NulFree t) :=
  List.decidableBAll (fun c => c ≠ Byte.nul) t

variable {buf : Buf} {c : Byte} {t : List Byte} {toks : List Token} {st : Scan}

theorem nulFree_cons : NulFree (c :: t) ↔ c ≠ Byte.nul ∧ NulFree t := List.forall_mem_cons

theorem rest_cons : rest st toks (c :: t) =
    rest (scanStep (st, toks) c).1 (scanStep (st, toks) c).2 t := rfl

theorem push_bytes (buf : Buf) (c : Byte) : (buf.push c).bytes = buf.bytes ++ [c] := by
  unfold Buf.push
  split <;> rfl

theorem nulFree_push (hb : NulFree buf.bytes) (hc : c ≠ Byte.nul) :
    NulFree (buf.push c).bytes := by
  intro d hd
  rw [push_bytes, List.mem_append, List.mem_singleton] at hd
  rcases hd with hd | rfl
  · exact hb d hd
  · exact hc

theorem value_of_nulFree (hb : NulFree buf.bytes) : buf.value = buf.bytes := by
  rw [Buf.value, List.takeWhile_eq_self_iff]
  intro c hc
  exact decide_eq_true (hb c hc)

/-- What a loop that starts behind an opening quote comes to: either the line ends
    inside the quote, which the loop shows by its flag or by stopping at the NUL, or
    it stops at the closing quote and the automaton is back in the word. -/
inductive QuoteEnd (st : Scan) (t : List Byte) : Buf → List Byte → Bool → Prop where
  | unclosed {buf : Buf} {d : Byte} {p : List Byte} {bad : Bool}
      (hd : bad = true ∨ d = Byte.nul) (h : ∀ toks, rest st toks t = none) :
      QuoteEnd st t buf (d :: p) bad
  | closed {buf : Buf} {q : Byte} {v : List Byte} (hq : q ≠ Byte.nul) (hv : NulFree v)
      (hlen : v.length < t.length) (hb : NulFree buf.bytes)
      (h : ∀ toks, rest st toks t = rest (.word buf.bytes) toks v) :
      QuoteEnd st t buf (q :: (v ++ [Byte.nul])) false

/-- A character that the automaton reads without leaving the quote. -/
theorem QuoteEnd.cons {st' : Scan} {u p : List Byte} {bad : Bool} {buf' : Buf}
    (hlen : t.length ≤ u.length) (hstep : ∀ toks, rest st toks u = rest st' toks t)
    (h : QuoteEnd st' t buf' p bad) : QuoteEnd st u buf' p bad := by
  cases h with
  | unclosed hd h => exact .unclosed hd (fun toks => (hstep toks).trans (h toks))
  | closed hq hv hlt hb h =>
    exact .closed hq hv (by omega) hb (fun toks => (hstep toks).trans (h toks))

theorem singleLoop_spec (ht : NulFree t) (hb : NulFree buf.bytes) :
    ∃ buf' p, singleLoop buf (t ++ [Byte.nul]) = .ok (buf', p) ∧
      QuoteEnd (.single buf.bytes) t buf' p false := by
  induction t generalizing buf with
  | nil => exact ⟨buf, [Byte.nul], rfl, .unclosed (Or.inr rfl) (fun _ => rfl)⟩
  | cons c t ih =>
    rw [nulFree_cons] at ht
    rw [List.cons_append, singleLoop]
    by_cases hq : c = Byte.squote
    · refine ⟨buf, c :: (t ++ [Byte.nul]), if_neg (fun h => h.2 hq), ?_⟩
      refine .closed ht.1 ht.2 (by simp) hb (fun toks => ?_)
      rw [rest_cons, scanStep, if_pos hq]
    · rw [if_pos ⟨ht.1, hq⟩]
      obtain ⟨buf', p, hrun, hend⟩ := ih ht.2 (nulFree_push hb ht.1)
      refine ⟨buf', p, hrun, hend.cons (by simp) (fun toks => ?_)⟩
      rw [rest_cons, scanStep, if_neg hq, push_bytes]

theorem doubleLoop_spec (ht : NulFree t) (hb : NulFree buf.bytes) :
    ∃ buf' p bad, doubleLoop buf (t ++ [Byte.nul]) = .ok (buf', p, bad) ∧
      QuoteEnd (.double buf.bytes false) t buf' p bad := by
  -- an escape takes two characters, so the induction is on the length
  induction hn : t.length using Nat.strong_induction_on generalizing t buf with
  | _ n ih =>
  subst hn
  cases t with
  | nil => exact ⟨buf, [Byte.nul], false, rfl, .unclosed (Or.inr rfl) (fun _ => rfl)⟩
  | cons c t =>
    rw [nulFree_cons] at ht
    rw [List.cons_append]
    by_cases hq : c = Byte.dquote
    · refine ⟨buf, c :: (t ++ [Byte.nul]), false, ?_, ?_⟩
      · rw [doubleLoop.eq_def]
        exact if_neg (fun h => h.2 hq)
      · refine .closed ht.1 ht.2 (by simp) hb (fun toks => ?_)
        rw [rest_cons, scanStep, if_pos hq]
    · by_cases hbs : c = Byte.backslash
      · subst hbs
        cases t with
        | nil => exact ⟨buf, _, true, rfl, .unclosed (Or.inl rfl) (fun _ => rfl)⟩
        | cons d u =>
          rw [nulFree_cons] at ht
          obtain ⟨hc, hd, hu⟩ := ht
          by_cases hesc : d = Byte.dquote ∨ d = Byte.backslash
          · obtain ⟨buf', p, bad, hrun, hend⟩ :=
              ih u.length (by simp only [List.length_cons]; omega) hu (nulFree_push hb hd) rfl
            refine ⟨buf', p, bad, ?_, hend.cons ?_ (fun toks => ?_)⟩
            · rw [doubleLoop.eq_def]
              simp [hc, hq, hd, hesc, hrun]
            · simp only [List.length_cons]
              omega
            · rw [rest_cons, scanStep, if_neg hq, if_pos rfl, rest_cons, scanStep, if_pos hesc,
                push_bytes]
          · obtain ⟨buf', p, bad, hrun, hend⟩ :=
              ih (d :: u).length (by simp) (nulFree_cons.mpr ⟨hd, hu⟩) (nulFree_push hb hc) rfl
            refine ⟨buf', p, bad, ?_, hend.cons (by simp) (fun toks => ?_)⟩
            · rw [doubleLoop.eq_def]
              simp only [List.cons_append, ne_eq, hc, hq, hd, hesc, not_false_eq_true, and_self,
                if_true, if_false]
              exact hrun
            · rw [not_or] at hesc
              rw [rest_cons, scanStep, if_neg hq, if_pos rfl, rest_cons, scanStep,
                if_neg (not_or.mpr hesc), rest_cons, scanStep, if_neg hesc.1, if_neg hesc.2,
                push_bytes, List.append_assoc, List.singleton_append]
      · obtain ⟨buf', p, bad, hrun, hend⟩ :=
          ih t.length (by simp) ht.2 (nulFree_push hb ht.1) rfl
        refine ⟨buf', p, bad, ?_, hend.cons (by simp) (fun toks => ?_)⟩
        · rw [doubleLoop.eq_def]
          simp [ht.1, hq, hbs, hrun]
        · rw [rest_cons, scanStep, if_neg hq, if_neg hbs, push_bytes]

/-- What the word loop comes to: a syntax error, or a stop before a blank, an
    operator or the NUL with the word in the buffer. -/
inductive WordEnd (bytes t : List Byte) : Buf → List Byte → Bool → Prop where
  | error {buf : Buf} {p : List Byte} (h : ∀ toks, rest (.word bytes) toks t = none) :
      WordEnd bytes t buf p true
  | done {buf : Buf} {v : List Byte} (hv : NulFree v) (hb : NulFree buf.bytes)
      (hle : v.length ≤ t.length)
      (hlt : (∀ c ∈ t.head?, ¬ (isspace c ∨ isOp c)) → t ≠ [] → v.length < t.length)
      (h : ∀ toks, rest (.word bytes) toks t =
        rest (.between false) (toks ++ [⟨.word, buf.bytes⟩]) v) :
      WordEnd bytes t buf (v ++ [Byte.nul]) false

/-- A piece `u` of the word that leaves the automaton in the word. -/
theorem WordEnd.append {bytes bytes' p v u : List Byte} {bad : Bool}
    (hlen : v.length < u.length)
    (hstep : ∀ toks, rest (.word bytes) toks u = rest (.word bytes') toks v)
    (h : WordEnd bytes' v buf p bad) : WordEnd bytes u buf p bad := by
  cases h with
  | error h => exact .error (fun toks => (hstep toks).trans (h toks))
  | done hv hb hle hlt h =>
    exact .done hv hb (by omega) (fun _ _ => by omega) (fun toks => (hstep toks).trans (h toks))

theorem QuoteEnd.wordEnd {f : ℕ} {bytes u p : List Byte} {bad : Bool} {buf' : Buf} {st : Scan}
    (hquote : QuoteEnd st t buf' p bad) (hlen : t.length < u.length)
    (hopen : ∀ toks, rest (.word bytes) toks u = rest st toks t)
    (ih : ∀ {buf : Buf} {v : List Byte}, NulFree v → NulFree buf.bytes → v.length < t.length →
      ∃ buf' p bad, wordLoop f buf (v ++ [Byte.nul]) = .ok (buf', p, bad) ∧
        WordEnd buf.bytes v buf' p bad) :
    ∃ buf'' p' bad', (do
      let d ← deref p
      if bad = true ∨ d = Byte.nul then pure (buf', p, true) else wordLoop f buf' p.tail) =
        Except.ok (buf'', p', bad') ∧ WordEnd bytes u buf'' p' bad' := by
  cases hquote with
  | @unclosed d p _ hd h =>
    refine ⟨buf', d :: p, true, if_pos hd, .error (fun toks => ?_)⟩
    rw [hopen, h]
  | @closed q v hq hv hlt hb h =>
    obtain ⟨buf'', p', bad', hrun, hend⟩ := ih hv hb hlt
    refine ⟨buf'', p', bad', ?_, hend.append (by omega) (fun toks => (hopen toks).trans (h toks))⟩
    have hgo : ¬ (false = true ∨ q = Byte.nul) := by simp [hq]
    exact (if_neg hgo).trans hrun

theorem rest_word_delim (bytes : List Byte) (hc : isspace c ∨ isOp c) :
    rest (.word bytes) toks (c :: t) =
      rest (.between false) (toks ++ [⟨.word, bytes⟩]) (c :: t) := by
  have hstep : scanStep (.word bytes, toks) c = betweenChar (toks ++ [⟨.word, bytes⟩]) c :=
    if_pos hc
  rw [rest_cons, rest_cons, hstep]
  rfl

theorem rest_word_char (bytes : List Byte) (hc : ¬ (isspace c ∨ isOp c)) :
    rest (.word bytes) toks (c :: t) = rest (wordChar bytes c) toks t := by
  rw [rest_cons, scanStep, if_neg hc]

theorem wordLoop_spec {f : ℕ} (hf : t.length < f) (ht : NulFree t) (hb : NulFree buf.bytes) :
    ∃ buf' p bad, wordLoop f buf (t ++ [Byte.nul]) = .ok (buf', p, bad) ∧
      WordEnd buf.bytes t buf' p bad := by
  induction f generalizing t buf with
  | zero => omega
  | succ f ih =>
    cases t with
    | nil =>
      exact ⟨buf, [Byte.nul], false, rfl, .done ht hb (Nat.le_refl _) (fun _ h => absurd rfl h)
        (fun _ => rfl)⟩
    | cons c t =>
      rw [List.length_cons] at hf
      have hne := (nulFree_cons.mp ht).1
      have hrest := (nulFree_cons.mp ht).2
      by_cases hdelim : isspace c ∨ isOp c
      · refine ⟨buf, c :: t ++ [Byte.nul], false, ?_, ?_⟩
        · exact (if_neg hne).trans (if_pos hdelim)
        · exact .done ht hb (Nat.le_refl _) (fun h _ => absurd hdelim (h c rfl))
            (fun toks => rest_word_delim _ hdelim)
      have hchar : ∀ toks, rest (.word buf.bytes) toks (c :: t) =
          rest (wordChar buf.bytes c) toks t := fun _ => rest_word_char buf.bytes hdelim
      -- the loop body at a character of the word
      have hbody : wordLoop (f + 1) buf (c :: t ++ [Byte.nul]) = _ :=
        (if_neg hne).trans (if_neg hdelim)
      rw [hbody]
      by_cases hbs : c = Byte.backslash
      · simp only [wordChar, if_pos hbs] at hchar
        rw [if_pos hbs]
        cases t with
        | nil => exact ⟨buf, [Byte.nul], true, rfl, .error hchar⟩
        | cons d u =>
          rw [nulFree_cons] at hrest
          rw [List.length_cons] at hf
          obtain ⟨buf', p, bad, hrun, hend⟩ :=
            ih (by omega) hrest.2 (nulFree_push hb hrest.1)
          refine ⟨buf', p, bad, (if_neg hrest.1).trans hrun, hend.append ?_ (fun toks => ?_)⟩
          · simp only [List.length_cons]
            omega
          · rw [hchar, rest_cons, scanStep, push_bytes]
      simp only [wordChar, if_neg hbs] at hchar
      rw [if_neg hbs]
      by_cases hsq : c = Byte.squote
      · simp only [if_pos hsq] at hchar
        rw [if_pos hsq]
        obtain ⟨buf', p, hrun, hquote⟩ := singleLoop_spec hrest hb
        obtain ⟨buf'', p', bad', hrun', hend⟩ := hquote.wordEnd (u := c :: t) (by simp) hchar
          (fun hv hb hlt => ih (by omega) hv hb)
        refine ⟨buf'', p', bad', ?_, hend⟩
        rw [List.cons_append, List.tail_cons, hrun]
        simp only [Bool.false_eq_true, false_or] at hrun'
        exact hrun'
      simp only [if_neg hsq] at hchar
      rw [if_neg hsq]
      by_cases hdq : c = Byte.dquote
      · simp only [if_pos hdq] at hchar
        rw [if_pos hdq]
        obtain ⟨buf', p, bad, hrun, hquote⟩ := doubleLoop_spec hrest hb
        obtain ⟨buf'', p', bad', hrun', hend⟩ := hquote.wordEnd (u := c :: t) (by simp) hchar
          (fun hv hb hlt => ih (by omega) hv hb)
        refine ⟨buf'', p', bad', ?_, hend⟩
        rw [List.cons_append, List.tail_cons, hrun]
        exact hrun'
      · simp only [if_neg hdq] at hchar
        rw [if_neg hdq]
        obtain ⟨buf', p, bad, hrun, hend⟩ := ih (by omega) hrest (nulFree_push hb hne)
        refine ⟨buf', p, bad, hrun, hend.append (by simp) (fun toks => ?_)⟩
        rw [hchar, push_bytes]

theorem rest_between_space (hc : isspace c) :
    rest (.between false) toks (c :: t) = rest (.between false) toks t := by
  have hstep : scanStep (.between false, toks) c = (.between false, toks) := if_pos hc
  rw [rest_cons, hstep]

theorem skipSpaces_spec (ht : NulFree t) :
    ∃ v, skipSpaces (t ++ [Byte.nul]) = .ok (v ++ [Byte.nul]) ∧ NulFree v ∧
      v.length ≤ t.length ∧ (∀ c ∈ v.head?, ¬ isspace c) ∧
      ∀ toks, rest (.between false) toks t = rest (.between false) toks v := by
  induction t with
  | nil => exact ⟨[], rfl, ht, Nat.le_refl _, by simp, fun _ => rfl⟩
  | cons c t ih =>
    rw [List.cons_append, skipSpaces]
    by_cases hc : isspace c
    · obtain ⟨v, hrun, hv, hlen, hhead, hrest⟩ := ih (nulFree_cons.mp ht).2
      refine ⟨v, (if_pos ⟨(nulFree_cons.mp ht).1, hc⟩).trans hrun, hv, ?_, hhead, fun toks => ?_⟩
      · rw [List.length_cons]
        omega
      · rw [rest_between_space hc, hrest]
    · exact ⟨c :: t, if_neg (fun h => hc h.2), ht, Nat.le_refl _, by simpa using hc,
        fun _ => rfl⟩

theorem rest_between_gt (h : ∀ d ∈ t.head?, d ≠ Byte.gt) :
    rest (.between false) toks (Byte.gt :: t) =
      rest (.between false) (toks ++ [opToken Byte.gt]) t := by
  have hstep : scanStep (.between false, toks) Byte.gt = (.between true, toks) := by
    rw [scanStep, betweenChar, if_neg (by decide), if_pos rfl]
  rw [rest_cons, hstep]
  cases t with
  | nil => rfl
  | cons d u =>
    have hnext : scanStep (.between true, toks) d = betweenChar (toks ++ [opToken Byte.gt]) d :=
      if_neg (h d rfl)
    rw [rest_cons, rest_cons, hnext]
    rfl

/-- An operator character yields the automaton's token and moves past it. -/
theorem readOp_spec (ht : NulFree t) (hs : ¬ isspace c) (hc : isOp c) :
    ∃ tok v, readOp (c :: (t ++ [Byte.nul])) = .ok (tok, v ++ [Byte.nul]) ∧ NulFree v ∧
      v.length ≤ t.length ∧
      ∀ toks, rest (.between false) toks (c :: t) = rest (.between false) (toks ++ [tok]) v := by
  by_cases hgt : c = Byte.gt
  · subst hgt
    cases t with
    | nil =>
      exact ⟨opToken Byte.gt, [], rfl, ht, Nat.le_refl _, fun _ => rest_between_gt (by simp)⟩
    | cons d u =>
      by_cases hd : d = Byte.gt
      · subst hd
        exact ⟨_, u, rfl, (nulFree_cons.mp ht).2, by simp, fun _ => rfl⟩
      · refine ⟨opToken Byte.gt, d :: u, if_neg hd, ht, Nat.le_refl _, fun _ => ?_⟩
        exact rest_between_gt (by simpa using hd)
  · refine ⟨opToken c, t, ?_, ht, Nat.le_refl _, fun toks => ?_⟩
    · rw [readOp, if_neg hgt, opToken]
      by_cases hlt : c = Byte.lt
      · rw [if_pos hlt, if_pos hlt]
        rfl
      · rw [if_neg hlt, if_neg hlt, if_neg hgt]
        split
        · rfl
        · split <;> rfl
    · have hstep : scanStep (.between false, toks) c = (.between false, toks ++ [opToken c]) := by
        rw [scanStep, betweenChar, if_neg hs, if_neg hgt, if_pos hc]
      rw [rest_cons, hstep]

/-- A character that is neither a blank nor an operator starts a word. -/
theorem rest_between_word (hc : ¬ (isspace c ∨ isOp c)) :
    rest (.between false) toks (c :: t) = rest (.word []) toks (c :: t) := by
  have hgt : c ≠ Byte.gt := fun h => hc (Or.inr (Or.inr (Or.inr (Or.inl h))))
  have hstep : scanStep (.between false, toks) c = (wordChar [] c, toks) := by
    rw [scanStep, betweenChar, if_neg (fun h => hc (Or.inl h)), if_neg hgt,
      if_neg (fun h => hc (Or.inr h))]
  rw [rest_word_char [] hc, rest_cons, hstep]

/-- What `tokenize` leaves for an outcome of the automaton. -/
def lexed : Option (List Token) → Lexed
  | none => ⟨-1, .empty, ["cshell: invalid syntax"]⟩
  | some toks => ⟨0, ⟨toks, toks.length⟩, []⟩

theorem appendToken_counted (toks : List Token) (tok : Token) :
    appendToken ⟨toks, toks.length⟩ tok = ⟨toks ++ [tok], (toks ++ [tok]).length⟩ := by
  rw [appendToken, List.length_append, List.length_singleton]

theorem tokenizeLoop_spec {f : ℕ} (hf : t.length < f) (ht : NulFree t) (toks : List Token) :
    tokenizeLoop f (t ++ [Byte.nul]) ⟨toks, toks.length⟩ =
      .ok (lexed (rest (.between false) toks t)) := by
  induction f generalizing t toks with
  | zero => omega
  | succ f ih =>
    cases t with
    | nil => rfl
    | cons c t =>
      obtain ⟨v, hskip, hv, hlen, hhead, hrest⟩ := skipSpaces_spec ht
      rw [hrest]
      change (if c = Byte.nul then _ else skipSpaces (c :: t ++ [Byte.nul]) >>= _) = _
      rw [if_neg (nulFree_cons.mp ht).1, hskip]
      rw [List.length_cons] at hf hlen
      cases v with
      | nil => rfl
      | cons d u =>
        have hd := (nulFree_cons.mp hv).1
        have hu := (nulFree_cons.mp hv).2
        have hs : ¬ isspace d := hhead d rfl
        rw [List.length_cons] at hlen
        by_cases hop : isOp d
        · obtain ⟨tok, w, hread, hw, hwlen, hafter⟩ := readOp_spec hu hs hop
          change (if d = Byte.nul then _ else if isOp d then
            readOp (d :: (u ++ [Byte.nul])) >>= _ else _) = _
          rw [if_neg hd, if_pos hop, hread, hafter]
          change tokenizeLoop f (w ++ [Byte.nul]) (appendToken ⟨toks, toks.length⟩ tok) = _
          rw [appendToken_counted]
          exact ih (by omega) hw (toks ++ [tok])
        · have hword : ¬ (isspace d ∨ isOp d) := not_or.mpr ⟨hs, hop⟩
          have hempty : NulFree Buf.alloc.bytes := by simp [NulFree, Buf.alloc]
          obtain ⟨buf, p, bad, hrun, hend⟩ := wordLoop_spec
            (f := (d :: u ++ [Byte.nul]).length) (by simp) hv hempty
          change (if d = Byte.nul then _ else if isOp d then _ else
            wordLoop (d :: u ++ [Byte.nul]).length .alloc (d :: u ++ [Byte.nul]) >>= _) = _
          rw [if_neg hd, if_neg hop, hrun, rest_between_word hword]
          cases hend with
          | error h =>
            rw [show rest (.word []) toks (d :: u) = none from h toks]
            rfl
          | @done w hw hb hle hlt h =>
            have hshort := hlt (by simpa using hword) (by simp)
            rw [List.length_cons] at hshort
            rw [show rest (.word []) toks (d :: u) = _ from h toks]
            change tokenizeLoop f (w ++ [Byte.nul])
              (appendToken ⟨toks, toks.length⟩ ⟨.word, buf.value⟩) = _
            rw [appendToken_counted, value_of_nulFree hb]
            exact ih (by omega) hw (toks ++ [⟨.word, buf.bytes⟩])

/-- **The lexer is the quote automaton**: on every string, `tokenize` stays within
    the string and returns; it fails with an empty list exactly when the automaton
    ends in an open quote or after a pending backslash, and otherwise returns the
    automaton's tokens with their number as `count`. -/
theorem tokenize_eq_scan (s : List Byte) (hs : ∀ c ∈ s, c ≠ Byte.nul) :
    tokenize s = .ok (if (scan s).1.Incomplete then
        { ret := -1, list := .empty, err := ["cshell: invalid syntax"] }
      else
        { ret := 0, list := ⟨Scan.tokens (scan s), (Scan.tokens (scan s)).length⟩,
          err := [] }) := by
  have hloop := tokenizeLoop_spec (Nat.lt_succ_self s.length) hs []
  rw [tokenize]
  refine hloop.trans (congrArg Except.ok ?_)
  rw [rest]
  change lexed (if (scan s).1.Incomplete then none else some (Scan.tokens (scan s))) = _
  split <;> rfl

/-- The line `a">"'' >>\;`: two words around an append operator. -/
theorem tokenize_eq_scan_line :
    tokenize [97, 34, 62, 34, 39, 39, 32, 62, 62, 92, 59] = .ok
      { ret := 0
        list := ⟨[⟨.word, [97, 62]⟩, ⟨.opGtgt, [62, 62]⟩, ⟨.word, [59]⟩], 3⟩
        err := [] } := by
  rw [tokenize_eq_scan _ (by decide +kernel)]
  decide

end MiniOs.Shell

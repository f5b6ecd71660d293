import MiniOs.Lib.Memory
import MiniOs.Shell.InputLine
import MiniOs.Shell.Quoting
import MiniOs.Shell.Sequence

/-!
# Job labels

`token_group_to_string` of `lexer.c` writes the command line of a group into a buffer of the
caller, which later shows it as the label of a job. It stops before the first piece that
does not fit with its separator and its terminator.

The buffer is a block of memory with any contents, and a write outside it has no result.
-/

namespace MiniOs.Shell

open Memory

variable {t : Token}

def Byte.blank : Byte := 32

def opText : TokenType → Option (List Byte)
  | .opPipe => some [Byte.bar]
  | .opGt => some [Byte.gt]
  | .opGtgt => some [Byte.gt, Byte.gt]
  | .opLt => some [Byte.lt]
  | _ => none

def pieceOf (t : Token) : Option (List Byte) :=
  if t.type = .word then some (cstr t.value) else opText t.type

def putBlank (out : List Byte) (len : ℕ) : Option (List Byte × ℕ) :=
  if len = 0 then some (out, len) else (put out len Byte.blank).map (·, len + 1)

/-- The end of the loop body: the separator, the piece and the terminator. -/
def appendPiece (out : List Byte) (len : ℕ) (piece : List Byte) : Option (List Byte × ℕ) := do
  let s ← putBlank out len
  let out ← putAll s.1 s.2 piece
  let out ← put out (s.2 + piece.length) Byte.nul
  pure (out, s.2 + piece.length)

def labelLoop (size : ℕ) : List Token → ℕ → List Byte → Option (List Byte)
  | [], _, out => some out
  | t :: l, len, out =>
    if t.type.EndsGroup then some out
    else
      match pieceOf t with
      | none => labelLoop size l len out
      | some piece =>
        if size < len + piece.length + (if len = 0 then 0 else 1) + 1 then some out
        else do
          let s ← appendPiece out len piece
          labelLoop size l s.2 s.1

/-- `token_group_to_string`, on a buffer with the contents `out`. -/
def tokenGroupToString (start : List Token) (out : List Byte) : Option (List Byte) :=
  if out.length = 0 then some out
  else do
    let out' ← put out 0 Byte.nul
    labelLoop out.length start 0 out'

def Token.text (t : Token) : List Byte := if t.type = .word then t.value else t.type.symbol

/-- Words with single blanks between them. -/
def spaced : List (List Byte) → List Byte
  | [] => []
  | [p] => p
  | p :: ps => p ++ Byte.blank :: spaced ps

def addPiece (text piece : List Byte) : List Byte :=
  if text = [] then piece else text ++ Byte.blank :: piece

/-- The pieces are added to the text as long as it stays shorter than `size`. -/
def extend (size : ℕ) (text : List Byte) : List (List Byte) → List Byte
  | [] => text
  | p :: ps =>
    if (addPiece text p).length < size then extend size (addPiece text p) ps else text

variable {size : ℕ} {out text piece : List Byte} {ps qs : List (List Byte)} {l : List Token}

/-! ### The loop stays in the buffer -/

theorem length_addPiece (text piece : List Byte) :
    (addPiece text piece).length =
      text.length + piece.length + if text.length = 0 then 0 else 1 := by
  unfold addPiece
  by_cases htext : text = []
  · simp [htext]
  · have hlen : text.length ≠ 0 := fun h => htext (List.length_eq_zero_iff.mp h)
    rw [if_neg htext, if_neg hlen, List.length_append, List.length_cons]
    omega

theorem putBlank_next (h : text <+: out) (hroom : text.length < out.length) :
    ∃ out' text', putBlank out text.length = some (out', text'.length) ∧ text' <+: out' ∧
      out'.length = out.length ∧ ∀ piece, addPiece text piece = text' ++ piece := by
  by_cases htext : text = []
  · refine ⟨out, text, ?_, h, rfl, fun piece => ?_⟩
    · rw [putBlank, if_pos (List.length_eq_zero_iff.mpr htext)]
    · rw [addPiece, if_pos htext, htext, List.nil_append]
  · have hlen : text.length ≠ 0 := fun h => htext (List.length_eq_zero_iff.mp h)
    obtain ⟨out', hput, hout, hsame⟩ := put_next h hroom Byte.blank
    refine ⟨out', text ++ [Byte.blank], ?_, hout, hsame, fun piece => ?_⟩
    · rw [putBlank, if_neg hlen, hput, List.length_append, List.length_singleton]
      rfl
    · rw [addPiece, if_neg htext, List.append_assoc, List.singleton_append]

/-- **The end of the loop body**, when the piece fits. -/
theorem appendPiece_next (h : text ++ [Byte.nul] <+: out)
    (hroom : (addPiece text piece).length < out.length) :
    ∃ out', appendPiece out text.length piece = some (out', (addPiece text piece).length) ∧
      addPiece text piece ++ [Byte.nul] <+: out' ∧ out'.length = out.length := by
  have htext : text <+: out := (List.prefix_append text _).trans h
  have hlt : text.length < out.length := by
    have := h.length_le
    rw [List.length_append, List.length_singleton] at this
    omega
  obtain ⟨out₁, text', hblank, hout₁, hlen₁, hadd⟩ := putBlank_next htext hlt
  rw [hadd] at hroom ⊢
  rw [List.length_append] at hroom
  obtain ⟨out₂, hall, hout₂, hlen₂⟩ := putAll_next hout₁ (l := piece) (by omega)
  have hroom₂ : (text' ++ piece).length < out₂.length := by
    rw [List.length_append]
    omega
  obtain ⟨out₃, hput, hout₃, hlen₃⟩ := put_next hout₂ hroom₂ Byte.nul
  refine ⟨out₃, ?_, hout₃, by omega⟩
  rw [List.length_append] at hput ⊢
  rw [appendPiece, hblank]
  show (putAll out₁ text'.length piece).bind (fun out => (put out _ _).bind _) = _
  rw [hall, Option.bind_some, hput]
  rfl

theorem cstr_of_prefix (h : text ++ [Byte.nul] <+: out) (htext : Byte.nul ∉ text) :
    cstr out = text := by
  obtain ⟨rest, rfl⟩ := h
  rw [cstr, List.append_assoc, List.takeWhile_append_of_pos]
  · simp
  · exact fun c hc => decide_eq_true fun h => htext (h ▸ hc)

theorem nul_notMem_cstr (s : List Byte) : Byte.nul ∉ cstr s := by
  intro h
  have hne := List.mem_takeWhile_imp h
  simp at hne

theorem nul_notMem_pieceOf (h : pieceOf t = some piece) : Byte.nul ∉ piece := by
  unfold pieceOf at h
  split at h
  · cases h
    exact nul_notMem_cstr t.value
  · cases htype : t.type <;> rw [htype] at h <;> cases h <;> decide

theorem nul_notMem_addPiece (htext : Byte.nul ∉ text) (hpiece : Byte.nul ∉ piece) :
    Byte.nul ∉ addPiece text piece := by
  unfold addPiece
  split
  · exact hpiece
  · rw [List.mem_append, List.mem_cons]
    rintro (h | h | h)
    · exact htext h
    · exact absurd h (by decide)
    · exact hpiece h

/-- **The loop** stays in the buffer and leaves a terminated text, the one that `extend`
    makes of the pieces up to the end of the group. -/
theorem labelLoop_eq (hsize : out.length = size) (h : text ++ [Byte.nul] <+: out)
    (htext : Byte.nul ∉ text) :
    ∃ out', labelLoop size l text.length out = some out' ∧ out'.length = size ∧
      extend size text ((runGroupScan l).filterMap pieceOf) ++ [Byte.nul] <+: out' ∧
      Byte.nul ∉ extend size text ((runGroupScan l).filterMap pieceOf) := by
  induction l generalizing out text with
  | nil => exact ⟨out, rfl, hsize, h, htext⟩
  | cons t l ih =>
    rw [labelLoop]
    by_cases hend : t.type.EndsGroup
    · have hscan : runGroupScan (t :: l) = [] := by simp [runGroupScan, scanUntil, hend]
      rw [hscan, if_pos hend]
      exact ⟨out, rfl, hsize, h, htext⟩
    · have hscan : runGroupScan (t :: l) = t :: runGroupScan l := by
        simp [runGroupScan, scanUntil, hend]
      rw [hscan, if_neg hend, List.filterMap_cons]
      cases hpiece : pieceOf t with
      | none => exact ih hsize h htext
      | some piece =>
        dsimp only
        rw [extend]
        by_cases hroom : (addPiece text piece).length < size
        · -- the test of the loop is the length of the longer text
          have htest : ¬ size < text.length + piece.length +
              (if text.length = 0 then 0 else 1) + 1 := by
            rw [← length_addPiece]
            omega
          rw [← hsize] at hroom
          obtain ⟨out', hrun, hout', hlen⟩ := appendPiece_next h hroom
          rw [hsize] at hroom
          obtain ⟨out'', hloop, hrest⟩ := ih (hlen.trans hsize) hout'
            (nul_notMem_addPiece htext (nul_notMem_pieceOf hpiece))
          rw [if_neg htest, if_pos hroom, hrun]
          exact ⟨out'', hloop, hrest⟩
        · have htest : size < text.length + piece.length +
              (if text.length = 0 then 0 else 1) + 1 := by
            rw [← length_addPiece]
            omega
          rw [if_pos htest, if_neg hroom]
          exact ⟨out, rfl, hsize, h, htext⟩

/-! ### The longest prefix -/

theorem spaced_cons (hps : ps ≠ []) (p : List Byte) :
    spaced (p :: ps) = p ++ Byte.blank :: spaced ps := by
  cases ps with
  | nil => exact absurd rfl hps
  | cons q ps => rfl

theorem spaced_concat (hqs : qs ≠ []) (p : List Byte) :
    spaced (qs ++ [p]) = spaced qs ++ Byte.blank :: p := by
  induction qs with
  | nil => exact absurd rfl hqs
  | cons q qs ih =>
    by_cases hnil : qs = []
    · rw [hnil]
      rfl
    · have hne : qs ++ [p] ≠ [] := by simp
      rw [List.cons_append, spaced_cons hne, ih hnil, spaced_cons hnil, List.append_assoc,
        List.cons_append]

theorem spaced_ne_nil (hqs : qs ≠ []) (hwords : ∀ q ∈ qs, q ≠ []) : spaced qs ≠ [] := by
  cases qs with
  | nil => exact absurd rfl hqs
  | cons q qs =>
    have hq := hwords q List.mem_cons_self
    by_cases hnil : qs = []
    · rw [hnil]
      exact hq
    · rw [spaced_cons hnil]
      simp

/-- Without empty words, adding a piece to the text adds it to the list. -/
theorem addPiece_spaced (hwords : ∀ q ∈ qs, q ≠ []) (p : List Byte) :
    addPiece (spaced qs) p = spaced (qs ++ [p]) := by
  by_cases hnil : qs = []
  · rw [hnil]
    rfl
  · rw [addPiece, if_neg (spaced_ne_nil hnil hwords), spaced_concat hnil]

theorem spaced_isPrefixOf (qs ps : List (List Byte)) : spaced qs <+: spaced (qs ++ ps) := by
  induction qs with
  | nil => exact List.nil_prefix
  | cons q qs ih =>
    by_cases hnil : qs = []
    · cases ps with
      | nil => rw [List.append_nil]
      | cons p ps =>
        rw [hnil]
        exact List.prefix_append q _
    · have hne : qs ++ ps ≠ [] := by simp [hnil]
      rw [List.cons_append, spaced_cons hne, spaced_cons hnil, List.prefix_append_right_inj]
      exact List.cons_prefix_cons.mpr ⟨rfl, ih⟩

theorem length_spaced_take {m n : ℕ} (h : m ≤ n) :
    (spaced (ps.take m)).length ≤ (spaced (ps.take n)).length := by
  have htake : ps.take m ++ (ps.take n).drop m = ps.take n := by
    have := List.take_append_drop m (ps.take n)
    rwa [List.take_take, Nat.min_eq_left h] at this
  rw [← htake]
  exact (spaced_isPrefixOf _ _).length_le

/-- `n` pieces fit with their blanks and the terminator, and no more do. -/
structure Longest (size : ℕ) (ps : List (List Byte)) (n : ℕ) : Prop where
  le : n ≤ ps.length
  fits : (spaced (ps.take n)).length ≤ size - 1
  longest : ∀ m ≤ ps.length, (spaced (ps.take m)).length ≤ size - 1 → m ≤ n

/-- **`extend` finds the longest prefix.** The induction is on the pieces that are left,
    `qs` are those that the text has. -/
theorem extend_spaced (qs : List (List Byte)) (hwords : ∀ q ∈ qs ++ ps, q ≠ [])
    (hfits : (spaced qs).length < size) :
    ∃ n, Longest size (qs ++ ps) n ∧ extend size (spaced qs) ps = spaced ((qs ++ ps).take n) := by
  induction ps generalizing qs with
  | nil =>
    rw [List.append_nil]
    refine ⟨qs.length, ⟨Nat.le_refl _, ?_, fun m hm _ => hm⟩, ?_⟩
    · rw [List.take_length]
      omega
    · rw [List.take_length]
      rfl
  | cons p ps ih =>
    have hqs : ∀ q ∈ qs, q ≠ [] := fun q hq => hwords q (List.mem_append_left _ hq)
    have happend : qs ++ p :: ps = qs ++ [p] ++ ps := by simp
    rw [extend, addPiece_spaced hqs]
    by_cases hroom : (spaced (qs ++ [p])).length < size
    · rw [if_pos hroom, happend]
      rw [happend] at hwords
      exact ih (qs ++ [p]) hwords hroom
    · rw [if_neg hroom]
      have htake : (qs ++ p :: ps).take qs.length = qs := List.take_left
      refine ⟨qs.length, ⟨by simp, ?_, fun m _ hm => ?_⟩, by rw [htake]⟩
      · rw [htake]
        omega
      · -- a longer prefix has the piece that does not fit
        by_contra hlt
        have hnext : (qs ++ p :: ps).take (qs.length + 1) = qs ++ [p] := by
          rw [happend]
          exact List.take_left' (by simp)
        have hlen : (spaced ((qs ++ p :: ps).take (qs.length + 1))).length ≤ _ :=
          length_spaced_take (Nat.lt_of_not_le hlt)
        rw [hnext] at hlen
        omega

/-! ### Reading a label back -/

/-- A token as the lexer makes it, without a character that would have to be quoted. -/
structure Readable (t : Token) : Prop where
  plain : t.type = .word → ∀ c ∈ t.value, Plain c
  symbol : t.type ≠ .word → t.value = t.type.symbol

theorem Readable.exists_piece (h : Readable t) (hne : t.type = .word → t.value ≠ []) :
    ∃ p : Piece, p.token = t ∧ p.text = t.text := by
  obtain ⟨type, value⟩ := t
  by_cases hword : type = .word
  · subst hword
    exact ⟨.plain value (hne rfl) (h.plain rfl), rfl, rfl⟩
  · have hvalue : value = type.symbol := h.symbol hword
    refine ⟨.op type hword, ?_, ?_⟩
    · rw [hvalue]
      rfl
    · exact (if_neg hword).symm

theorem rest_spaced {toks g : List Token} (hread : ∀ t ∈ g, Readable t)
    (hne : ∀ t ∈ g, t.type = .word → t.value ≠ []) :
    rest (.between false) toks (spaced (g.map Token.text)) = some (toks ++ g) := by
  induction g generalizing toks with
  | nil =>
    rw [List.append_nil]
    rfl
  | cons t g ih =>
    obtain ⟨p, rfl, htext⟩ :=
      (hread t List.mem_cons_self).exists_piece (hne t List.mem_cons_self)
    rw [List.map_cons, ← htext]
    cases g with
    | nil =>
      have hlast : rest (.between false) toks (p.text ++ []) = some (toks ++ [p.token]) :=
        rest_piece p (by simp [Ends])
      rw [List.append_nil] at hlast
      exact hlast
    | cons u g =>
      have hblank : isspace Byte.blank := by decide
      have hends : Ends (Byte.blank :: spaced ((u :: g).map Token.text)) := by
        rintro c ⟨⟩
        exact hblank
      rw [spaced_cons (by simp), rest_piece p hends, rest_between_space hblank,
        ih (fun v hv => hread v (List.mem_cons_of_mem _ hv))
          (fun v hv => hne v (List.mem_cons_of_mem _ hv)),
        List.append_assoc, List.singleton_append]

theorem nulFree_spaced (h : ∀ p ∈ ps, NulFree p) : NulFree (spaced ps) := by
  induction ps with
  | nil => simp [spaced, NulFree]
  | cons p ps ih =>
    rw [List.forall_mem_cons] at h
    by_cases hnil : ps = []
    · rw [hnil]
      exact h.1
    · rw [spaced_cons hnil]
      intro c hc
      rw [List.mem_append, List.mem_cons] at hc
      rcases hc with hc | rfl | hc
      · exact h.1 c hc
      · decide
      · exact ih h.2 c hc

theorem pieceOf_eq (hstr : NulFree t.value) (hend : ¬ t.type.EndsGroup) :
    pieceOf t = some t.text := by
  obtain ⟨type, value⟩ := t
  cases type with
  | word =>
    rw [pieceOf, if_pos rfl, cstr_of_notMem fun h => hstr _ h rfl]
    rfl
  | opSemi => exact absurd (.inl rfl) hend
  | opAmp => exact absurd (.inr rfl) hend
  | _ => rfl

theorem pieces_eq (hstr : ∀ t ∈ l, NulFree t.value) :
    (runGroupScan l).filterMap pieceOf = (runGroupScan l).map Token.text := by
  rw [← List.filterMap_eq_map]
  refine List.filterMap_congr fun t ht => pieceOf_eq ?_ ?_
  · exact hstr t ((List.takeWhile_sublist _).subset ht)
  · have hkept := List.mem_takeWhile_imp ht
    exact of_decide_eq_true hkept

theorem nulFree_text_of (hstr : NulFree t.value) : NulFree t.text := by
  unfold Token.text
  split
  · exact hstr
  · cases t.type <;> decide

/-- **Job labels are bounded and faithful.** On a buffer of any size from 1 on,
    `token_group_to_string` writes only inside the buffer and leaves a terminated text. If
    no word of the group is empty, the text is the longest prefix of its words and symbols,
    joined by blanks, that fits. If moreover no word has a character that would have to be
    quoted and the whole group fits, `tokenize` gives the group back. -/
theorem job_label_faithful (l : List Token) (hstr : ∀ t ∈ l, NulFree t.value) (out : List Byte)
    (hsize : 1 ≤ out.length) :
    ∃ out', tokenGroupToString l out = some out' ∧ out'.length = out.length ∧ Byte.nul ∈ out' ∧
      ((∀ t ∈ runGroupScan l, t.type = .word → t.value ≠ []) →
        (∃ n, Longest out.length ((runGroupScan l).map Token.text) n ∧
          cstr out' = spaced (((runGroupScan l).map Token.text).take n)) ∧
        ((∀ t ∈ runGroupScan l, Readable t) →
          (spaced ((runGroupScan l).map Token.text)).length ≤ out.length - 1 →
          tokenize (cstr out') = .ok
            { ret := 0, list := ⟨runGroupScan l, (runGroupScan l).length⟩, err := [] })) := by
  have hgroup : ∀ t ∈ runGroupScan l, NulFree t.value :=
    fun t ht => hstr t ((List.takeWhile_sublist _).subset ht)
  have hempty : ([] : List Byte) <+: out := List.nil_prefix
  obtain ⟨out₀, hput, hout₀, hlen₀⟩ := put_next hempty hsize Byte.nul
  obtain ⟨out', hrun, hlen, hout', hnul⟩ := labelLoop_eq (l := l) hlen₀ hout₀ (by simp)
  rw [pieces_eq hstr] at hout' hnul
  have hcstr := cstr_of_prefix hout' hnul
  refine ⟨out', ?_, hlen, hout'.subset (by simp), fun hne => ?_⟩
  · rw [tokenGroupToString, if_neg (by omega)]
    change (put out 0 Byte.nul).bind _ = _
    rw [show put out 0 Byte.nul = some out₀ from hput]
    exact hrun
  have hwords : ∀ q ∈ (runGroupScan l).map Token.text, q ≠ [] := by
    intro q hq
    obtain ⟨t, ht, rfl⟩ := List.mem_map.mp hq
    unfold Token.text
    split
    · next hword => exact hne t ht hword
    · next hop =>
      cases htype : t.type with
      | word => exact absurd htype hop
      | _ => simp [TokenType.symbol]
  obtain ⟨n, hn, hextend⟩ : ∃ n, Longest out.length ((runGroupScan l).map Token.text) n ∧
      extend out.length [] ((runGroupScan l).map Token.text) =
        spaced (((runGroupScan l).map Token.text).take n) := extend_spaced [] hwords hsize
  rw [hcstr, hextend]
  refine ⟨⟨n, hn, rfl⟩, fun hread hfits => ?_⟩
  -- the longest prefix is the whole group
  have hall : ((runGroupScan l).map Token.text).take n = (runGroupScan l).map Token.text := by
    refine List.take_of_length_le (hn.longest _ (Nat.le_refl _) ?_)
    rwa [List.take_length]
  have hfree : NulFree (spaced ((runGroupScan l).map Token.text)) := by
    refine nulFree_spaced fun p hp => ?_
    obtain ⟨t, ht, rfl⟩ := List.mem_map.mp hp
    exact nulFree_text_of (hgroup t ht)
  rw [hall, tokenize_eq_rest hfree, rest_spaced hread hne]
  rfl

/-- `ls >> a | wc ;` with ten bytes for the label. -/
def listLine : List Token :=
  [⟨.word, [108, 115]⟩, ⟨.opGtgt, [62, 62]⟩, ⟨.word, [97]⟩, ⟨.opPipe, [124]⟩,
    ⟨.word, [119, 99]⟩, ⟨.opSemi, [59]⟩]

theorem job_label_faithful_line :
    ∃ out', tokenGroupToString listLine (List.replicate 10 7) = some out' ∧
      cstr out' = [108, 115, 32, 62, 62, 32, 97, 32, 124] ∧
      ∃ n, Longest 10 ((runGroupScan listLine).map Token.text) n ∧
        cstr out' = spaced (((runGroupScan listLine).map Token.text).take n) := by
  have hstr : ∀ t ∈ listLine, NulFree t.value := by decide
  obtain ⟨out', hrun, -, -, hrest⟩ :=
    job_label_faithful listLine hstr (List.replicate 10 7) (by simp)
  have hne : ∀ t ∈ runGroupScan listLine, t.type = .word → t.value ≠ [] := by decide
  have htext : (tokenGroupToString listLine (List.replicate 10 7)).map cstr =
      some ([108, 115, 32, 62, 62, 32, 97, 32, 124]) := by decide
  rw [hrun] at htext
  exact ⟨out', hrun, Option.some.inj htext, (hrest hne).1⟩

end MiniOs.Shell

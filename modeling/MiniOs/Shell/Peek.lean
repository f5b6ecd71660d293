import Mathlib
import MiniOs.Lib.Lines
import MiniOs.Shell.InputLine
import MiniOs.Shell.JobTable

/-!
# The readers of `peek`

`peek.c` prints a file forwards, or backwards in one of two ways: input that cannot be
sought is stored line by line, and a regular file is read from its end in chunks, so that
a line may have to be put together from several of them. With `-n` the lines that are not
blank are numbered by a counter that all files share.

A file is its bytes, and reading it returns what was asked for. The calls of `getline` on
it return its `lines`. Counters are integers without bound.
-/

namespace MiniOs.Shell

open Lines

def chunkSize : ℕ := 4096

def isEmptyLine (line : List Byte) : Bool := (cstr line).all (fun c => decide (isspace c))

def decimal (z : ℤ) : List Byte := ascii (toString z)

/-- `printf("%d %s", num, text)`. -/
def numberedText (num : ℤ) (text : List Byte) : List Byte :=
  decimal num ++ (ascii " " ++ cstr text)

/-- The newline printed behind a text that has none. -/
def closing (text : List Byte) : List Byte :=
  if (cstr text).getLast? = some Byte.newline then [] else [Byte.newline]

/-- What a reader prints, and the counter it leaves. -/
structure Peek where
  out : List Byte
  lineNum : ℤ
  deriving DecidableEq, Repr

/-! ## Forwards -/

/-- A turn of the loop of `peek_forward`. -/
def forwardLine (flagN : Bool) (s : Peek) (line : List Byte) : Peek :=
  if flagN && !isEmptyLine line then
    ⟨s.out ++ (numberedText s.lineNum line ++ closing line), s.lineNum + 1⟩
  else ⟨s.out ++ (cstr line ++ closing line), s.lineNum⟩

def peekForward (flagN : Bool) (lineNum : ℤ) (bs : List Byte) : Peek :=
  (lines Byte.newline bs).foldl (forwardLine flagN) ⟨[], lineNum⟩

/-! ## Backwards, with all lines stored -/

/-- `lines[i]` and `nums[i]`. -/
structure Stored where
  text : List Byte
  num : ℤ
  deriving DecidableEq, Repr

/-- `lines[0 .. count)` and `nums[0 .. count)`, and the counter. -/
structure Store where
  stored : List Stored
  lineNum : ℤ
  deriving DecidableEq, Repr

/-- A turn of the forward pass of `peek_reverse_buffered`. -/
def storeLine (flagN : Bool) (s : Store) (line : List Byte) : Store :=
  if flagN && !isEmptyLine line then
    ⟨s.stored ++ [⟨cstr line, s.lineNum⟩], s.lineNum + 1⟩
  else ⟨s.stored ++ [⟨cstr line, 0⟩], s.lineNum⟩

/-- A turn of its reverse pass. -/
def printStored (flagN : Bool) (e : Stored) : List Byte :=
  (if flagN && e.num ≠ 0 then numberedText e.num e.text else cstr e.text) ++ closing e.text

def peekReverseBuffered (flagN : Bool) (lineNum : ℤ) (bs : List Byte) : Peek :=
  let s := (lines Byte.newline bs).foldl (storeLine flagN) ⟨[], lineNum⟩
  ⟨s.stored.reverse.flatMap (printStored flagN), s.lineNum⟩

/-! ## Backwards, in chunks -/

structure Count where
  count : ℤ
  hasContent : Bool
  deriving DecidableEq, Repr

/-- The number `has_content` stands for. -/
def Count.total (s : Count) : ℤ := s.count + if s.hasContent then 1 else 0

/-- A turn of the inner loop of `count_nonempty_lines`. -/
def countByte (s : Count) (c : Byte) : Count :=
  if c = Byte.newline then ⟨s.total, false⟩
  else if isspace c then s
  else { s with hasContent := true }

/-- The reads of `count_nonempty_lines`. -/
def countChunks (bs : List Byte) (s : Count) : Count :=
  if bs = [] then s
  else countChunks (bs.drop chunkSize) ((bs.take chunkSize).foldl countByte s)
termination_by bs.length
decreasing_by
  rename_i hne
  have hpos := List.length_pos_of_ne_nil hne
  rw [List.length_drop]
  unfold chunkSize
  omega

def countNonemptyLines (bs : List Byte) : ℤ := (countChunks bs ⟨0, false⟩).total

/-- The state of `peek_reverse_seekable`. -/
structure Back where
  out : List Byte
  nextNum : ℤ
  leftover : Option (List Byte)
  deriving DecidableEq, Repr

def emitReverseLine (flagN : Bool) (text : List Byte) (s : Back) : Back :=
  if flagN && !isEmptyLine text then
    { s with out := s.out ++ (numberedText s.nextNum text ++ [Byte.newline]),
             nextNum := s.nextNum - 1 }
  else { s with out := s.out ++ (cstr text ++ [Byte.newline]) }

/-- `while (i >= 0 && buf[i] != '\n') i--`, where the argument and the result are `i + 1`. -/
def lineStart (buf : List Byte) : ℕ → ℕ
  | 0 => 0
  | i + 1 => if buf[i]? = some Byte.newline then i + 1 else lineStart buf i

def fullLine (piece : List Byte) : Option (List Byte) → List Byte
  | some leftover => cstr piece ++ cstr leftover
  | none => piece

theorem lineStart_le (buf : List Byte) (i : ℕ) : lineStart buf i ≤ i := by
  induction i with
  | zero => exact Nat.le_refl 0
  | succ i ih =>
    rw [lineStart]
    split
    · exact Nat.le_refl _
    · exact Nat.le_succ_of_le ih

/-- The walk through one chunk, from index `i - 1` down. -/
def walkChunk (flagN : Bool) (buf : List Byte) (i : ℕ) (s : Back) : Back :=
  if i = 0 then s
  else if lineStart buf i = 0 then
    { s with leftover := some (fullLine (buf.take i) s.leftover) }
  else
    walkChunk flagN buf (lineStart buf i - 1)
      (emitReverseLine flagN (fullLine ((buf.take i).drop (lineStart buf i)) s.leftover)
        { s with leftover := none })
termination_by i
decreasing_by
  have hle := lineStart_le buf i
  omega

def toRead (pos : ℕ) : ℕ := if chunkSize < pos then chunkSize else pos

/-- Where the walk through a chunk starts: the newline at the end of the file is
    skipped. -/
def walkFrom (bs buf : List Byte) (pos : ℕ) : ℕ :=
  if pos = bs.length ∧ buf.getLast? = some Byte.newline then buf.length - 1 else buf.length

/-- The loop over the chunks, and where it ends. -/
def backLoop (flagN : Bool) (bs : List Byte) (pos : ℕ) (s : Back) : Back × ℕ :=
  if pos = 0 then (s, 0)
  else
    let buf := (bs.drop (pos - toRead pos)).take (toRead pos)
    if buf = [] then (s, pos - toRead pos)
    else backLoop flagN bs (pos - toRead pos) (walkChunk flagN buf (walkFrom bs buf pos) s)
termination_by pos
decreasing_by
  unfold toRead chunkSize
  split <;> omega

/-- What is printed behind the loop. -/
def flush (flagN : Bool) (pos : ℕ) (s : Back) : Back :=
  match s.leftover with
  | some leftover => emitReverseLine flagN leftover s
  | none => if pos = 0 then emitReverseLine flagN [] s else s

def peekReverseSeekable (flagN : Bool) (lineNum : ℤ) (bs : List Byte) : Peek :=
  if bs.length = 0 then ⟨[], lineNum⟩
  else
    let total := if flagN then countNonemptyLines bs else 0
    let r := backLoop flagN bs bs.length ⟨[], lineNum + total - 1, none⟩
    ⟨(flush flagN r.2 r.1).out, lineNum + total⟩

/-! ## The listing -/

/-- The line takes a number. -/
def counts (flagN : Bool) (line : List Byte) : Bool :=
  flagN && !line.all (fun c => decide (isspace c))

def advance (flagN : Bool) (n : ℤ) (line : List Byte) : ℤ := if counts flagN line then n + 1 else n

def labelled (flagN : Bool) (n : ℤ) (line : List Byte) : List Byte :=
  if counts flagN line then decimal n ++ (ascii " " ++ line) else line

def listing (flagN : Bool) : ℤ → List (List Byte) → List (List Byte)
  | _, [] => []
  | n, l :: ls => labelled flagN n l :: listing flagN (advance flagN n l) ls

/-- The counter behind some lines. -/
def counter (flagN : Bool) (n : ℤ) (ls : List (List Byte)) : ℤ := ls.foldl (advance flagN) n

section Listing

variable {flagN : Bool} {n : ℤ} {l p bs : List Byte} {ls : List (List Byte)}

theorem listing_concat (n : ℤ) (ls : List (List Byte)) (l : List Byte) :
    listing flagN n (ls ++ [l]) =
      listing flagN n ls ++ [labelled flagN (counter flagN n ls) l] := by
  induction ls generalizing n with
  | nil => rfl
  | cons k ls ih =>
    rw [List.cons_append, listing, ih]
    rfl

theorem counter_concat (n : ℤ) (ls : List (List Byte)) (l : List Byte) :
    counter flagN n (ls ++ [l]) = advance flagN (counter flagN n ls) l := by
  rw [counter, counter, List.foldl_concat]

theorem le_advance (n : ℤ) (l : List Byte) : n ≤ advance flagN n l := by
  unfold advance
  split <;> omega

/-- Whether a line takes a number does not depend on its newline. -/
theorem counts_complete (l : List Byte) :
    counts flagN (complete Byte.newline l) = counts flagN l := by
  have hnl : isspace Byte.newline := by decide
  unfold complete
  split
  · rfl
  · simp [counts, hnl]

theorem isEmptyLine_of_notMem (h0 : Byte.nul ∉ l) :
    (flagN && !isEmptyLine l) = counts flagN l := by
  rw [isEmptyLine, cstr_of_notMem h0, counts]

theorem append_closing (h0 : Byte.nul ∉ l) (hne : l ≠ []) :
    cstr l ++ closing l = complete Byte.newline l := by
  have hlast : l.getLast? ≠ none := fun h => hne (List.getLast?_eq_none_iff.mp h)
  rw [closing, cstr_of_notMem h0, complete]
  by_cases hnl : l.getLast? = some Byte.newline <;> simp [hnl, hne]

theorem ne_nil_of_mem_lines {nl : Byte} (h : l ∈ lines nl bs) : l ≠ [] := by
  induction bs using lines_induction nl with
  | nil => cases h
  | last p hp hne =>
    rw [lines_of_notMem hp hne, List.mem_singleton] at h
    exact h ▸ hne
  | line p r hp ih =>
    rw [lines_append_nl hp, List.mem_cons] at h
    obtain rfl | h := h
    · simp
    · exact ih h

theorem newline_notMem_decimal (z : ℤ) : Byte.newline ∉ decimal z := by
  have hdigits : ∀ m : ℕ, ∀ c ∈ m.repr.toList, c.toNat.toUInt8 ≠ Byte.newline := by
    intro m c hc heq
    rw [Nat.repr_eq_ofList_toDigits, String.toList_ofList] at hc
    have hdigit := Nat.isDigit_of_mem_toDigits (by decide) (by decide) hc
    rw [Char.isDigit_iff_toNat, show '0'.toNat = 48 from rfl, show '9'.toNat = 57 from rfl]
      at hdigit
    have hnat : c.toNat % 256 = 10 := by simpa [Byte.newline] using congrArg UInt8.toNat heq
    omega
  intro h
  obtain ⟨c, hc, heq⟩ := List.mem_map.mp h
  rw [Int.toString_eq_repr, Int.repr_eq_if] at hc
  split at hc
  · exact hdigits _ c hc heq
  · rw [String.toList_append, List.mem_append] at hc
    obtain hc | hc := hc
    · have hminus : c = '-' := by simpa using hc
      rw [hminus] at heq
      exact absurd heq (by decide)
    · exact hdigits _ c hc heq

/-- The lines of a listing are found again in the output. -/
theorem lines_listing (h : ∀ l ∈ ls, ∃ p, Byte.newline ∉ p ∧ l = p ++ [Byte.newline]) :
    lines Byte.newline (listing flagN n ls).flatten = listing flagN n ls := by
  refine lines_flatten ?_
  induction ls generalizing n with
  | nil => intro l hl; cases hl
  | cons k ls ih =>
    rw [List.forall_mem_cons] at h
    rw [listing, List.forall_mem_cons]
    refine ⟨?_, ih h.2⟩
    obtain ⟨p, hp, rfl⟩ := h.1
    unfold labelled
    split
    · refine ⟨decimal n ++ (ascii " " ++ p), ?_, by simp⟩
      simp only [List.mem_append, not_or]
      exact ⟨newline_notMem_decimal n, by decide, hp⟩
    · exact ⟨p, hp, rfl⟩

end Listing

/-! ## The forward reader -/

section Forward

variable {flagN : Bool} {n : ℤ} {l bs : List Byte} {ls : List (List Byte)}

theorem forwardLine_eq (h0 : Byte.nul ∉ l) (hne : l ≠ []) (s : Peek) :
    forwardLine flagN s l =
      ⟨s.out ++ labelled flagN s.lineNum (complete Byte.newline l),
        advance flagN s.lineNum (complete Byte.newline l)⟩ := by
  rw [forwardLine, isEmptyLine_of_notMem h0, labelled, advance, counts_complete,
    ← append_closing h0 hne]
  split <;> simp [numberedText]

theorem foldl_forwardLine (h0 : ∀ l ∈ ls, Byte.nul ∉ l) (hne : ∀ l ∈ ls, l ≠ []) (s : Peek) :
    ls.foldl (forwardLine flagN) s =
      ⟨s.out ++ (listing flagN s.lineNum (ls.map (complete Byte.newline))).flatten,
        counter flagN s.lineNum (ls.map (complete Byte.newline))⟩ := by
  induction ls generalizing s with
  | nil => simp [listing, counter]
  | cons l ls ih =>
    rw [List.forall_mem_cons] at h0 hne
    rw [List.foldl_cons, forwardLine_eq h0.1 hne.1, ih h0.2 hne.2]
    simp [listing, counter]

theorem peekForward_eq (h0 : Byte.nul ∉ bs) (n : ℤ) :
    peekForward flagN n bs =
      ⟨(listing flagN n (lines Byte.newline (complete Byte.newline bs))).flatten,
        counter flagN n (lines Byte.newline (complete Byte.newline bs))⟩ := by
  have hnul : ∀ l ∈ lines Byte.newline bs, Byte.nul ∉ l :=
    fun l hl h => h0 (mem_of_mem_lines hl h)
  rw [peekForward, foldl_forwardLine hnul (fun l hl => ne_nil_of_mem_lines hl), lines_complete,
    List.nil_append]

end Forward

/-! ## The buffered reader -/

section Buffered

variable {flagN : Bool} {n : ℤ} {l bs : List Byte} {ls : List (List Byte)}

/-- A stored line is printed with the number it was given; 0 stands for none, and no line
    is numbered 0. -/
theorem storeLine_eq (flagN : Bool) (h0 : Byte.nul ∉ l) (hne : l ≠ []) {s : Store}
    (hs : 1 ≤ s.lineNum) :
    ∃ e, storeLine flagN s l =
      ⟨s.stored ++ [e], advance flagN s.lineNum (complete Byte.newline l)⟩ ∧
      printStored flagN e = labelled flagN s.lineNum (complete Byte.newline l) := by
  have hcstr : cstr (cstr l) = cstr l := by rw [cstr_of_notMem h0, cstr_of_notMem h0]
  have hclosing : closing (cstr l) = closing l := by rw [closing, closing, hcstr]
  rw [storeLine, isEmptyLine_of_notMem h0, labelled, advance, counts_complete,
    ← append_closing h0 hne]
  by_cases hc : counts flagN l = true
  · have hflag : flagN = true := (Bool.and_eq_true_iff.mp hc).1
    have hnum : s.lineNum ≠ 0 := by omega
    refine ⟨⟨cstr l, s.lineNum⟩, by simp [hc], ?_⟩
    subst hflag
    simp [printStored, hnum, hc, numberedText, hcstr, hclosing]
  · refine ⟨⟨cstr l, 0⟩, by simp [hc], ?_⟩
    simp [printStored, hc, hcstr, hclosing]

theorem foldl_storeLine (flagN : Bool) (h0 : ∀ l ∈ ls, Byte.nul ∉ l) (hne : ∀ l ∈ ls, l ≠ [])
    {s : Store}
    (hs : 1 ≤ s.lineNum) :
    ∃ es, ls.foldl (storeLine flagN) s =
        ⟨s.stored ++ es, counter flagN s.lineNum (ls.map (complete Byte.newline))⟩ ∧
      es.map (printStored flagN) =
        listing flagN s.lineNum (ls.map (complete Byte.newline)) := by
  induction ls generalizing s with
  | nil => exact ⟨[], by simp [counter], rfl⟩
  | cons l ls ih =>
    rw [List.forall_mem_cons] at h0 hne
    obtain ⟨e, hstore, hprint⟩ := storeLine_eq flagN h0.1 hne.1 hs
    obtain ⟨es, hstores, hprints⟩ := ih h0.2 hne.2
      (s := ⟨s.stored ++ [e], advance flagN s.lineNum (complete Byte.newline l)⟩)
      (Int.le_trans hs (le_advance _ _))
    refine ⟨e :: es, ?_, ?_⟩
    · rw [List.foldl_cons, hstore, hstores]
      simp [counter]
    · simp only [List.map_cons, hprint, hprints]
      rfl

/-- `peek_reverse_buffered` prints the listing back to front. -/
theorem peekReverseBuffered_eq (h0 : Byte.nul ∉ bs) (hn : 1 ≤ n) :
    peekReverseBuffered flagN n bs =
      ⟨(listing flagN n (lines Byte.newline (complete Byte.newline bs))).reverse.flatten,
        counter flagN n (lines Byte.newline (complete Byte.newline bs))⟩ := by
  have hnul : ∀ l ∈ lines Byte.newline bs, Byte.nul ∉ l :=
    fun l hl h => h0 (mem_of_mem_lines hl h)
  obtain ⟨es, hstores, hprints⟩ := foldl_storeLine flagN hnul
    (fun l hl => ne_nil_of_mem_lines hl) (s := ⟨[], n⟩) hn
  rw [peekReverseBuffered, hstores, lines_complete, ← hprints, List.nil_append, List.flatMap_def,
    List.map_reverse]

end Buffered

/-! ## The counting pass -/

section Counting

variable {p bs : List Byte}

theorem countChunks_eq (bs : List Byte) (s : Count) : countChunks bs s = bs.foldl countByte s := by
  induction hk : bs.length using Nat.strongRecOn generalizing bs s with
  | _ k ih =>
  subst hk
  rw [countChunks]
  by_cases hne : bs = []
  · simp [hne]
  · have hlt : (bs.drop chunkSize).length < bs.length := by
      have hpos := List.length_pos_of_ne_nil hne
      simp only [List.length_drop, chunkSize]
      omega
    rw [if_neg hne, ih _ hlt _ _ rfl, ← List.foldl_append, List.take_append_drop]

theorem foldl_countByte (hp : Byte.newline ∉ p) (s : Count) :
    p.foldl countByte s = { s with hasContent := s.hasContent || counts true p } := by
  induction p generalizing s with
  | nil => simp [counts]
  | cons c p ih =>
    simp only [List.mem_cons, not_or] at hp
    rw [List.foldl_cons, ih hp.2, countByte, if_neg (Ne.symm hp.1)]
    by_cases hc : isspace c <;> simp [hc, counts]

theorem counts_append_newline (p : List Byte) :
    counts true (p ++ [Byte.newline]) = counts true p := by
  have hnl : isspace Byte.newline := by decide
  simp [counts, hnl]

/-- The counting pass counts the lines that take a number. -/
theorem total_countByte (bs : List Byte) (c n : ℤ) :
    n + (bs.foldl countByte ⟨c, false⟩).total =
      counter true (n + c) (lines Byte.newline (complete Byte.newline bs)) := by
  induction bs using lines_induction Byte.newline generalizing c with
  | nil => simp [Count.total, counter, complete, lines]
  | last p hp hne =>
    rw [foldl_countByte hp, complete_of_notMem hp hne, lines_singleton hp]
    simp only [Count.total, counter, List.foldl_cons, List.foldl_nil, advance,
      counts_append_newline, Bool.false_or]
    split <;> omega
  | line p r hp ih =>
    have hline : (p ++ Byte.newline :: r).foldl countByte ⟨c, false⟩ =
        r.foldl countByte ⟨c + if counts true p then 1 else 0, false⟩ := by
      rw [List.foldl_append, foldl_countByte hp, List.foldl_cons, countByte, if_pos rfl]
      rfl
    rw [hline, ih, complete_append_cons, lines_append_nl hp, counter, counter, List.foldl_cons,
      advance, counts_append_newline]
    congr 1
    split <;> omega

theorem add_countNonemptyLines (bs : List Byte) (n : ℤ) :
    n + countNonemptyLines bs =
      counter true n (lines Byte.newline (complete Byte.newline bs)) := by
  have h := total_countByte bs 0 n
  rwa [Int.add_zero, ← countChunks_eq] at h

theorem counter_false (n : ℤ) (ls : List (List Byte)) : counter false n ls = n := by
  induction ls with
  | nil => rfl
  | cons l ls ih => exact ih

end Counting

/-! ## The backward reader -/

section Seekable

variable {flagN : Bool} {n : ℤ} {target rem piece text bs q : List Byte} {s : Back}

theorem lineStart_split (buf : List Byte) {i : ℕ} (hi : i ≤ buf.length) :
    Byte.newline ∉ (buf.take i).drop (lineStart buf i) ∧
    (lineStart buf i ≠ 0 → buf.take i =
      buf.take (lineStart buf i - 1) ++ Byte.newline :: (buf.take i).drop (lineStart buf i)) := by
  induction i with
  | zero => simp [lineStart]
  | succ i ih =>
    have hget : buf[i]? = some buf[i] := List.getElem?_eq_getElem hi
    have htake : buf.take (i + 1) = buf.take i ++ [buf[i]] := (List.take_concat_get' buf i hi).symm
    rw [lineStart, hget]
    by_cases hnl : buf[i] = Byte.newline
    · rw [if_pos (congrArg some hnl), Nat.add_sub_cancel, htake, hnl]
      have hlen : (buf.take i ++ [Byte.newline]).length ≤ i + 1 := by simp
      rw [List.drop_eq_nil_of_le hlen]
      exact ⟨List.not_mem_nil, fun _ => rfl⟩
    · obtain ⟨hmem, hsplit⟩ := ih (Nat.le_of_succ_le hi)
      have hle : lineStart buf i ≤ (buf.take i).length := by
        have := lineStart_le buf i
        rw [List.length_take_of_le (Nat.le_of_succ_le hi)]
        exact this
      rw [if_neg (fun h => hnl (Option.some.inj h)), htake, List.drop_append_of_le_length hle]
      refine ⟨?_, fun hne => ?_⟩
      · simp only [List.mem_append, List.mem_singleton, not_or]
        exact ⟨hmem, fun h => hnl h.symm⟩
      · rw [← List.cons_append, ← List.append_assoc, ← hsplit hne]

/-- What is still to be printed once only `rem` is left to be read: the lines of `rem`,
    the last one continued by what was left over. -/
structure Pending (flagN : Bool) (n : ℤ) (target rem : List Byte) (s : Back) : Prop where
  newline_notMem : Byte.newline ∉ s.leftover.getD []
  nul_notMem : Byte.nul ∉ s.leftover.getD []
  out_append : s.out ++ (listing flagN n
    (lines Byte.newline (rem ++ s.leftover.getD [] ++ [Byte.newline]))).reverse.flatten = target
  nextNum_eq : s.nextNum = counter flagN n
    (lines Byte.newline (rem ++ s.leftover.getD [] ++ [Byte.newline])) - 1

theorem fullLine_eq (h0 : Byte.nul ∉ piece) {leftover : Option (List Byte)}
    (hleft : Byte.nul ∉ leftover.getD []) :
    fullLine piece leftover = piece ++ leftover.getD [] := by
  cases leftover with
  | none => simp [fullLine]
  | some l =>
    rw [Option.getD_some] at hleft
    rw [fullLine, cstr_of_notMem h0, Option.getD_some, cstr_of_notMem hleft]

/-- The number counts down to the one the line has in the listing. -/
theorem emitReverseLine_eq (h0 : Byte.nul ∉ text)
    (hnum : s.nextNum = advance flagN n (text ++ [Byte.newline]) - 1) :
    emitReverseLine flagN text s =
      { s with out := s.out ++ labelled flagN n (text ++ [Byte.newline]), nextNum := n - 1 } := by
  have hnl : isspace Byte.newline := by decide
  have hcounts : counts flagN (text ++ [Byte.newline]) = counts flagN text := by
    simp [counts, hnl]
  rw [advance, hcounts] at hnum
  rw [emitReverseLine, isEmptyLine_of_notMem h0, labelled, hcounts]
  by_cases hc : counts flagN text = true
  · have hnum' : s.nextNum = n := by
      rw [if_pos hc] at hnum
      omega
    simp [hc, hnum', numberedText, cstr_of_notMem h0]
  · rw [if_neg hc] at hnum
    simp [hc, ← hnum, cstr_of_notMem h0]

/-- A newline is met: the line behind it is complete, and printed. -/
theorem Pending.emit (h : Pending flagN n target (rem ++ Byte.newline :: piece) s)
    (hnl : Byte.newline ∉ piece) (h0 : Byte.nul ∉ piece) :
    Pending flagN n target rem
      (emitReverseLine flagN (fullLine piece s.leftover) { s with leftover := none }) := by
  obtain ⟨out, nextNum, leftover⟩ := s
  obtain ⟨hleft, hleft0, hout, hnext⟩ := h
  dsimp only at hleft hleft0 hout hnext ⊢
  rw [fullLine_eq h0 hleft0]
  have hnl' : Byte.newline ∉ piece ++ leftover.getD [] := by simp [hnl, hleft]
  have h0' : Byte.nul ∉ piece ++ leftover.getD [] := by simp [h0, hleft0]
  have hlines :
      lines Byte.newline (rem ++ Byte.newline :: piece ++ leftover.getD [] ++ [Byte.newline]) =
        lines Byte.newline (rem ++ [Byte.newline]) ++
          [piece ++ leftover.getD [] ++ [Byte.newline]] := by
    rw [← lines_append_line hnl']
    simp
  rw [hlines] at hout hnext
  rw [counter_concat] at hnext
  rw [emitReverseLine_eq h0' hnext]
  refine ⟨List.not_mem_nil, List.not_mem_nil, ?_, ?_⟩
  · rw [listing_concat] at hout
    simp only [Option.getD_none, List.append_nil, ← hout]
    simp
  · simp

/-- The start of the chunk is met: the text is left over. -/
theorem Pending.keep (h : Pending flagN n target (rem ++ piece) s)
    (hnl : Byte.newline ∉ piece) (h0 : Byte.nul ∉ piece) :
    Pending flagN n target rem { s with leftover := some (fullLine piece s.leftover) } := by
  obtain ⟨hleft, hleft0, hout, hnext⟩ := h
  rw [fullLine_eq h0 hleft0]
  refine ⟨?_, ?_, ?_, ?_⟩
  · simp [hnl, hleft]
  · simp [h0, hleft0]
  · rw [← hout]
    simp
  · rw [hnext]
    simp

theorem Pending.walkChunk (buf : List Byte) (hbuf : Byte.nul ∉ buf) {i : ℕ} (hi : i ≤ buf.length)
    (h : Pending flagN n target (rem ++ buf.take i) s) :
    Pending flagN n target rem (walkChunk flagN buf i s) := by
  induction i using Nat.strongRecOn generalizing s with
  | _ i ih =>
  obtain ⟨hmem, hsplit⟩ := lineStart_split buf hi
  have hle := lineStart_le buf i
  have h0 : Byte.nul ∉ (buf.take i).drop (lineStart buf i) :=
    fun hc => hbuf (List.mem_of_mem_take (List.mem_of_mem_drop hc))
  rw [Shell.walkChunk]
  by_cases hzero : i = 0
  · rw [if_pos hzero]
    rwa [hzero, List.take_zero, List.append_nil] at h
  · rw [if_neg hzero]
    by_cases hstart : lineStart buf i = 0
    · rw [hstart, List.drop_zero] at hmem h0
      rw [if_pos hstart]
      exact h.keep hmem h0
    · rw [if_neg hstart]
      refine ih (lineStart buf i - 1) (by omega) (by omega) ?_
      rw [hsplit hstart, ← List.append_assoc] at h
      exact h.emit hmem h0

/-- `q` is the file without the newline at its end. -/
def Trimmed (bs q : List Byte) : Prop :=
  bs = q ∧ q.getLast? ≠ some Byte.newline ∨ bs = q ++ [Byte.newline]

theorem exists_trimmed (hne : bs ≠ []) :
    ∃ q, Trimmed bs q ∧ complete Byte.newline bs = q ++ [Byte.newline] := by
  obtain ⟨rfl, -⟩ | ⟨q, hq, rfl | rfl⟩ := complete_cases Byte.newline bs
  · exact absurd rfl hne
  · refine ⟨bs, .inl ⟨rfl, fun hlast => ?_⟩, hq⟩
    rw [complete, if_pos (.inr hlast)] at hq
    simp at hq
  · exact ⟨q, .inr rfl, hq⟩

theorem toRead_le (pos : ℕ) : toRead pos ≤ pos := by
  unfold toRead
  split <;> omega

theorem toRead_pos {pos : ℕ} (h : pos ≠ 0) : 0 < toRead pos := by
  unfold toRead chunkSize
  split <;> omega

/-- The text in front of a position, split at the chunk that is read there. -/
theorem take_eq_append_chunk (hq : Trimmed bs q) {pos : ℕ} (hpos : pos ≤ bs.length) :
    let buf := (bs.drop (pos - toRead pos)).take (toRead pos)
    q.take pos = q.take (pos - toRead pos) ++ buf.take (walkFrom bs buf pos) := by
  have hle := toRead_le pos
  have hsum : pos - toRead pos + toRead pos = pos := Nat.sub_add_cancel hle
  have htake : ∀ l : List Byte, l.take pos =
      l.take (pos - toRead pos) ++ (l.drop (pos - toRead pos)).take (toRead pos) := by
    intro l
    rw [← List.take_add, hsum]
  intro buf
  obtain ⟨rfl, hlast⟩ | rfl := hq
  · have hfrom : walkFrom bs buf pos = buf.length := by
      refine if_neg ?_
      rintro ⟨hend, hbuf⟩
      have hbs : bs.getLast? = some Byte.newline := by
        rw [← List.take_length (l := bs), ← hend, htake bs, List.getLast?_append, hbuf,
          Option.some_or]
      exact hlast hbs
    rw [hfrom, List.take_length, htake bs]
  · rw [List.length_append, List.length_singleton] at hpos
    by_cases hend : pos = q.length + 1
    · have hread := toRead_pos (show pos ≠ 0 by omega)
      have hbuf : buf = q.drop (pos - toRead pos) ++ [Byte.newline] := by
        have hlen : (q.drop (pos - toRead pos) ++ [Byte.newline]).length ≤ toRead pos := by
          simp only [List.length_append, List.length_drop, List.length_singleton]
          omega
        rw [← List.take_of_length_le hlen, ← List.drop_append_of_le_length (by omega)]
      have hfrom : walkFrom (q ++ [Byte.newline]) buf pos = (q.drop (pos - toRead pos)).length := by
        simp [walkFrom, hbuf, hend]
      rw [hfrom, hbuf, List.take_left, List.take_append_drop, List.take_of_length_le (by omega)]
    · have hbuf : buf = (q.drop (pos - toRead pos)).take (toRead pos) := by
        show ((q ++ [Byte.newline]).drop (pos - toRead pos)).take (toRead pos) = _
        rw [List.drop_append_of_le_length (by omega), List.take_append_of_le_length]
        rw [List.length_drop]
        omega
      have hfrom : walkFrom (q ++ [Byte.newline]) buf pos = buf.length := by
        simp [walkFrom, hend]
      rw [hfrom, List.take_length, hbuf, htake q]

theorem Pending.backLoop (h0 : Byte.nul ∉ bs) (hq : Trimmed bs q) {pos : ℕ} (hpos : pos ≤ bs.length)
    (h : Pending flagN n target (q.take pos) s) :
    (backLoop flagN bs pos s).2 = 0 ∧ Pending flagN n target [] (backLoop flagN bs pos s).1 := by
  induction pos using Nat.strongRecOn generalizing s with
  | _ pos ih =>
  rw [Shell.backLoop]
  by_cases hzero : pos = 0
  · rw [if_pos hzero]
    rw [hzero, List.take_zero] at h
    exact ⟨rfl, h⟩
  · have hle := toRead_le pos
    have hread := toRead_pos hzero
    have hne : (bs.drop (pos - toRead pos)).take (toRead pos) ≠ [] := by
      refine List.ne_nil_of_length_pos ?_
      rw [List.length_take, List.length_drop]
      omega
    have hsplit := take_eq_append_chunk hq hpos
    dsimp only at hsplit
    rw [if_neg hzero]
    dsimp only
    rw [if_neg hne]
    refine ih (pos - toRead pos) (by omega) (by omega) ?_
    rw [hsplit] at h
    refine h.walkChunk _ (fun hc => h0 (List.mem_of_mem_drop (List.mem_of_mem_take hc))) ?_
    unfold walkFrom
    split <;> omega

theorem Pending.flush (h : Pending flagN n target [] s) :
    (flush flagN 0 s).out = target := by
  obtain ⟨out, nextNum, leftover⟩ := s
  obtain ⟨hleft, hleft0, hout, hnext⟩ := h
  dsimp only at hleft hleft0 hout hnext
  rw [List.nil_append, lines_singleton hleft] at hout hnext
  have hline : Shell.flush flagN 0 ⟨out, nextNum, leftover⟩ =
      emitReverseLine flagN (leftover.getD []) ⟨out, nextNum, leftover⟩ := by
    cases leftover <;> rfl
  rw [hline, emitReverseLine_eq hleft0 hnext]
  simpa [listing] using hout

/-- `peek_reverse_seekable` prints the listing back to front. -/
theorem peekReverseSeekable_eq (h0 : Byte.nul ∉ bs) (n : ℤ) :
    peekReverseSeekable flagN n bs =
      ⟨(listing flagN n (lines Byte.newline (complete Byte.newline bs))).reverse.flatten,
        counter flagN n (lines Byte.newline (complete Byte.newline bs))⟩ := by
  rw [peekReverseSeekable]
  by_cases hne : bs = []
  · rw [hne]
    rfl
  · have hcount : n + (if flagN then countNonemptyLines bs else 0) =
        counter flagN n (lines Byte.newline (complete Byte.newline bs)) := by
      cases flagN with
      | false => simp [counter_false]
      | true => simp [add_countNonemptyLines]
    obtain ⟨q, hq, hcomplete⟩ := exists_trimmed hne
    have htake : q.take bs.length = q := by
      obtain ⟨rfl, -⟩ | rfl := hq
      · exact List.take_length
      · exact List.take_of_length_le (by simp)
    have hstart : Pending flagN n
        (listing flagN n (lines Byte.newline (complete Byte.newline bs))).reverse.flatten
        (q.take bs.length)
        ⟨[], n + (if flagN then countNonemptyLines bs else 0) - 1, none⟩ := by
      refine ⟨List.not_mem_nil, List.not_mem_nil, ?_, ?_⟩
      · simp [htake, hcomplete]
      · rw [hcount, htake, hcomplete]
        simp
    obtain ⟨hpos, hpending⟩ := hstart.backLoop h0 hq (Nat.le_refl _)
    rw [if_neg (fun h => hne (List.length_eq_zero_iff.mp h))]
    dsimp only
    rw [hpos, hpending.flush, hcount]

end Seekable

/-- **The readers agree.** The two backward readers print the same, namely the lines that
    the forward reader prints, last line first, each with its number; and all three leave
    the counter at the same value. -/
theorem peek_readers_agree (bs : List Byte) (h0 : Byte.nul ∉ bs) (flagN : Bool) (lineNum : ℤ)
    (hnum : 1 ≤ lineNum) :
    peekReverseSeekable flagN lineNum bs = peekReverseBuffered flagN lineNum bs ∧
    (peekReverseBuffered flagN lineNum bs).out =
      (lines Byte.newline (peekForward flagN lineNum bs).out).reverse.flatten ∧
    (peekReverseBuffered flagN lineNum bs).lineNum = (peekForward flagN lineNum bs).lineNum := by
  rw [peekReverseSeekable_eq h0, peekReverseBuffered_eq h0 hnum, peekForward_eq h0]
  have hlines : lines Byte.newline
      (listing flagN lineNum (lines Byte.newline (complete Byte.newline bs))).flatten =
      listing flagN lineNum (lines Byte.newline (complete Byte.newline bs)) := by
    refine lines_listing fun l hl => ?_
    obtain ⟨-, hnil⟩ | ⟨q, hq, -⟩ := complete_cases Byte.newline bs
    · rw [hnil] at hl
      cases hl
    · rw [hq] at hl
      exact terminated_of_mem_lines hl
  exact ⟨rfl, by rw [hlines], rfl⟩

/-- Two numbered lines around a blank one, the last without newline. -/
theorem peek_readers_agree_three :
    peekReverseSeekable true 7 [97, 10, 32, 10, 98] =
      peekReverseBuffered true 7 [97, 10, 32, 10, 98] ∧
    (peekReverseBuffered true 7 [97, 10, 32, 10, 98]).out =
      (lines Byte.newline (peekForward true 7 [97, 10, 32, 10, 98]).out).reverse.flatten ∧
    (peekReverseBuffered true 7 [97, 10, 32, 10, 98]).lineNum =
      (peekForward true 7 [97, 10, 32, 10, 98]).lineNum :=
  peek_readers_agree [97, 10, 32, 10, 98] (by decide) true 7 (by decide)

end MiniOs.Shell

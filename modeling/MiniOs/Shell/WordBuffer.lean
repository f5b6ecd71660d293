import MiniOs.Lib.Memory
import MiniOs.Shell.QuoteAutomaton

/-!
# The memory of the lexer

`tokenize` once more, one level below the model of `Lexer`: the cursor is an index into the
line, the word buffer is a block of memory of `buf_capacity` cells with whatever they
contain, and `malloc`, `realloc` and `strdup` can fail. A store outside the block, a read or
a step of the cursor past the terminating NUL, and a loop that does not end have no
result but a fault.

The code at the four places where a character is appended is the same, `appendChar`. The
model refines the one of `Lexer`, whose buffers cannot be too full: unless the
allocator gives up, it does the same with the cells of its buffer in front.
-/

namespace MiniOs.Shell

open Memory

variable {f : ℕ}

/-- Why a run stops before its end. -/
inductive Halt where
  /-- The call failed; `tokenize` prints its name and returns -1. -/
  | noMemory (call : String)
  | overrun
  | pastNul
  | fuel
  deriving DecidableEq, Repr

/-- What the allocator does at the cursor `p`: whether the `malloc` or `realloc` of the word
    buffer succeeds, the cells it adds, and the two calls of `create_token_node`. No two
    calls for the word buffer are made at the same cursor, and none for a token. -/
structure Heap where
  buffer : ℕ → Bool
  fresh : ℕ → ℕ → Byte
  node : ℕ → Bool
  strdup : ℕ → Bool

/-- The word buffer: the block behind `buf`, whose length is `buf_capacity`, and
    `buf_len`. -/
structure WordBuf where
  mem : List Byte
  len : ℕ

def charAt (s : List Byte) (p : ℕ) : Except Halt Byte :=
  match (s ++ [Byte.nul])[p]? with
  | some c => pure c
  | none => .error .pastNul

def stepCursor (s : List Byte) (p : ℕ) : Except Halt ℕ :=
  if p < s.length then pure (p + 1) else .error .pastNul

def Heap.cells (heap : Heap) (p n : ℕ) : List Byte := (List.range n).map (heap.fresh p)

def allocBuf (heap : Heap) (p : ℕ) : Except Halt WordBuf :=
  if heap.buffer p then pure ⟨heap.cells p 64, 0⟩ else .error (.noMemory "malloc")

def grow (heap : Heap) (p : ℕ) (b : WordBuf) : Except Halt WordBuf :=
  if b.mem.length ≤ b.len + 1 then
    if heap.buffer p then pure { b with mem := b.mem ++ heap.cells p b.mem.length }
    else .error (.noMemory "realloc")
  else pure b

def store (b : WordBuf) (c : Byte) : Except Halt WordBuf :=
  match put b.mem b.len c with
  | some mem => pure ⟨mem, b.len + 1⟩
  | none => .error .overrun

/-- The code of the four append sites, from the growth check to the last `p++`. -/
def appendChar (heap : Heap) (s : List Byte) (b : WordBuf) (p : ℕ) :
    Except Halt (WordBuf × ℕ) := do
  let b ← grow heap p b
  let c ← charAt s p
  let b ← store b c
  let p ← stepCursor s p
  pure (b, p)

/-- The loop inside single quotes. -/
def singleScan (heap : Heap) (s : List Byte) : ℕ → WordBuf → ℕ → Except Halt (WordBuf × ℕ)
  | 0, _, _ => .error .fuel
  | f + 1, b, p => do
    let c ← charAt s p
    if c ≠ Byte.nul ∧ c ≠ Byte.squote then do
      let r ← appendChar heap s b p
      singleScan heap s f r.1 r.2
    else pure (b, p)

/-- The loop inside double quotes; the flag is `syntax_error`. -/
def doubleScan (heap : Heap) (s : List Byte) : ℕ → WordBuf → ℕ → Except Halt (WordBuf × ℕ × Bool)
  | 0, _, _ => .error .fuel
  | f + 1, b, p => do
    let c ← charAt s p
    if c ≠ Byte.nul ∧ c ≠ Byte.dquote then
      if c = Byte.backslash then do
        let d ← charAt s (p + 1)
        if d = Byte.nul then pure (b, p, true)
        else if d = Byte.dquote ∨ d = Byte.backslash then do
          let p ← stepCursor s p
          let r ← appendChar heap s b p
          doubleScan heap s f r.1 r.2
        else do
          let r ← appendChar heap s b p
          doubleScan heap s f r.1 r.2
      else do
        let r ← appendChar heap s b p
        doubleScan heap s f r.1 r.2
    else pure (b, p, false)

/-- The loop over one word; the flag is `syntax_error`. -/
def wordScan (heap : Heap) (s : List Byte) : ℕ → WordBuf → ℕ → Except Halt (WordBuf × ℕ × Bool)
  | 0, _, _ => .error .fuel
  | f + 1, b, p => do
    let c ← charAt s p
    if c = Byte.nul then pure (b, p, false)
    else if isspace c ∨ isOp c then pure (b, p, false)
    else if c = Byte.backslash then do
      let p ← stepCursor s p
      let d ← charAt s p
      if d = Byte.nul then pure (b, p, true)
      else do
        let r ← appendChar heap s b p
        wordScan heap s f r.1 r.2
    else if c = Byte.squote then do
      let p ← stepCursor s p
      let r ← singleScan heap s (s.length + 1) b p
      let d ← charAt s r.2
      if d = Byte.nul then pure (r.1, r.2, true)
      else do
        let p ← stepCursor s r.2
        wordScan heap s f r.1 p
    else if c = Byte.dquote then do
      let p ← stepCursor s p
      let r ← doubleScan heap s (s.length + 1) b p
      let d ← charAt s r.2.1
      if r.2.2 = true ∨ d = Byte.nul then pure (r.1, r.2.1, true)
      else do
        let p ← stepCursor s r.2.1
        wordScan heap s f r.1 p
    else do
      let r ← appendChar heap s b p
      wordScan heap s f r.1 r.2

/-- `buf[buf_len] = '\0'`, and the string that `strdup` finds in `buf`. -/
def terminated (b : WordBuf) : Except Halt (List Byte) :=
  match put b.mem b.len Byte.nul with
  | some mem => if Byte.nul ∈ mem then pure (mem.takeWhile (· ≠ Byte.nul)) else .error .overrun
  | none => .error .overrun

def createTokenNode (heap : Heap) (p : ℕ) (t : Token) : Except Halt Token :=
  if heap.node p = false then .error (.noMemory "malloc")
  else if heap.strdup p = false then .error (.noMemory "strdup")
  else pure t

/-- The loop over leading blanks. -/
def skipBlanks (s : List Byte) : ℕ → ℕ → Except Halt ℕ
  | 0, _ => .error .fuel
  | f + 1, p => do
    let c ← charAt s p
    if c ≠ Byte.nul ∧ isspace c then do
      let p ← stepCursor s p
      skipBlanks s f p
    else pure p

/-- The operator branch: the token and the cursor behind it. -/
def opAt (s : List Byte) (p : ℕ) : Except Halt (Token × ℕ) := do
  let c ← charAt s p
  let q ← stepCursor s p
  if c = Byte.gt then do
    let d ← charAt s q
    if d = Byte.gt then do
      let r ← stepCursor s q
      pure (⟨.opGtgt, [Byte.gt, Byte.gt]⟩, r)
    else pure (⟨.opGt, [Byte.gt]⟩, q)
  else if c = Byte.lt then pure (⟨.opLt, [Byte.lt]⟩, q)
  else if c = Byte.bar then pure (⟨.opPipe, [Byte.bar]⟩, q)
  else if c = Byte.amp then pure (⟨.opAmp, [Byte.amp]⟩, q)
  else pure (⟨.opSemi, [Byte.semi]⟩, q)

/-- The outer loop of `tokenize`. -/
def scanTokens (heap : Heap) (s : List Byte) : ℕ → ℕ → TokenList → Except Halt Lexed
  | 0, _, _ => .error .fuel
  | f + 1, p, l => do
    let c ← charAt s p
    if c = Byte.nul then pure ⟨0, l, []⟩
    else do
      let p ← skipBlanks s (s.length + 1) p
      let c ← charAt s p
      if c = Byte.nul then pure ⟨0, l, []⟩
      else if isOp c then do
        let r ← opAt s p
        let t ← createTokenNode heap r.2 r.1
        scanTokens heap s f r.2 (appendToken l t)
      else do
        let b ← allocBuf heap p
        let r ← wordScan heap s (s.length - p + 1) b p
        if r.2.2 = true then pure ⟨-1, freeTokens l, ["cshell: invalid syntax"]⟩
        else do
          let v ← terminated r.1
          let t ← createTokenNode heap r.2.1 ⟨.word, v⟩
          scanTokens heap s f r.2.1 (appendToken l t)

def tokenizeInMemory (heap : Heap) (s : List Byte) : Except Halt Lexed :=
  match scanTokens heap s (s.length + 1) 0 .empty with
  | .error (.noMemory call) => pure ⟨-1, .empty, [call ++ ": Cannot allocate memory"]⟩
  | r => r

/-! ### Runs that the allocator may end -/

def Heap.Grants (heap : Heap) : Prop :=
  ∀ p, heap.buffer p = true ∧ heap.node p = true ∧ heap.strdup p = true

/-- The run ends with a value that has the property `P`, or the allocator has given up. -/
def Delivers {α : Type} (heap : Heap) (r : Except Halt α) (P : α → Prop) : Prop :=
  (¬ heap.Grants ∧ ∃ call, r = .error (.noMemory call)) ∨ ∃ a, r = .ok a ∧ P a

section Rules

variable {α β : Type} {heap : Heap} {r : Except Halt α} {k : α → Except Halt β} {P : α → Prop}
  {Q : β → Prop} {a : α}

theorem delivers_pure (h : P a) : Delivers heap (pure a) P := .inr ⟨a, rfl, h⟩

theorem Delivers.bind (h : Delivers heap r P) (hk : ∀ a, P a → Delivers heap (k a) Q) :
    Delivers heap (r >>= k) Q := by
  rcases h with ⟨hheap, call, rfl⟩ | ⟨a, rfl, ha⟩
  · exact .inl ⟨hheap, call, rfl⟩
  · exact hk a ha

theorem delivers_step (h : r = .ok a) (hk : Delivers heap (k a) Q) : Delivers heap (r >>= k) Q := by
  rw [h]
  exact hk

theorem delivers_ite {c : Prop} [Decidable c] {x y : Except Halt α} (hx : c → Delivers heap x P)
    (hy : ¬ c → Delivers heap y P) : Delivers heap (if c then x else y) P := by
  by_cases hc : c
  · rw [if_pos hc]
    exact hx hc
  · rw [if_neg hc]
    exact hy hc

/-- A run and the run that it is compared with make the same test. -/
theorem delivers_ite_both {γ : Type} {c : Prop} [Decidable c] {x y : Except Halt α} {u v w : γ}
    (h : (if c then u else v) = w) (hx : c → u = w → Delivers heap x P)
    (hy : ¬ c → v = w → Delivers heap y P) : Delivers heap (if c then x else y) P := by
  by_cases hc : c
  · rw [if_pos hc] at h ⊢
    exact hx hc h
  · rw [if_neg hc] at h ⊢
    exact hy hc h

end Rules

/-! ### The cursor -/

/-- The memory from the cursor on, which is the cursor of `Lexer`. -/
def memAt (s : List Byte) (p : ℕ) : List Byte := s.drop p ++ [Byte.nul]

variable {heap : Heap} {s : List Byte} {p : ℕ} {c : Byte} {b : WordBuf} {buf : Buf}

/-- The character `c` is at the cursor, and `m` behind it. The cursor can move on unless it
    is at the terminator. -/
structure AtChar (s : List Byte) (p : ℕ) (c : Byte) (m : List Byte) : Prop where
  char : charAt s p = .ok c
  mem : memAt s p = c :: m
  next : c ≠ Byte.nul → stepCursor s p = .ok (p + 1) ∧ m = memAt s (p + 1) ∧ p < s.length

theorem exists_atChar (hp : p ≤ s.length) : ∃ c m, AtChar s p c m := by
  rcases Nat.lt_or_eq_of_le hp with hlt | rfl
  · refine ⟨s[p], memAt s (p + 1), ?_, ?_, fun _ => ⟨if_pos hlt, rfl, hlt⟩⟩
    · rw [charAt, List.getElem?_append_left hlt, List.getElem?_eq_getElem hlt]
      rfl
    · rw [memAt, List.drop_eq_getElem_cons hlt]
      rfl
  · refine ⟨Byte.nul, [], ?_, ?_, fun h => absurd rfl h⟩
    · rw [charAt, List.getElem?_append_right (Nat.le_refl _), Nat.sub_self]
      rfl
    · rw [memAt, List.drop_length]
      rfl

/-! ### The buffer -/

/-- The block stands for a buffer of `Lexer`: the same capacity, and its bytes in front. -/
structure Stores (b : WordBuf) (buf : Buf) : Prop where
  bytes : buf.bytes <+: b.mem
  len : b.len = buf.bytes.length
  capacity : b.mem.length = buf.capacity

theorem length_cells (heap : Heap) (p n : ℕ) : (heap.cells p n).length = n := by
  rw [Heap.cells, List.length_map, List.length_range]

/-- The growth check leaves the capacity that the next byte needs. -/
theorem grow_delivers (h : Stores b buf) (c : Byte) : Delivers heap (grow heap p b) (fun b' =>
    buf.bytes <+: b'.mem ∧ b'.len = buf.bytes.length ∧
      b'.mem.length = (buf.push c).capacity) := by
  unfold grow Buf.push
  rw [h.capacity, h.len]
  refine delivers_ite (fun hfull => ?_) (fun hroom => ?_)
  · rw [dif_pos hfull]
    refine delivers_ite (fun _ => delivers_pure ⟨?_, rfl, ?_⟩) (fun hno => ?_)
    · exact h.bytes.trans (List.prefix_append _ _)
    · show (b.mem ++ heap.cells p buf.capacity).length = buf.capacity * 2
      rw [List.length_append, length_cells, h.capacity]
      omega
    · exact .inl ⟨fun hgrants => hno (hgrants p).1, _, rfl⟩
  · rw [dif_neg hroom]
    exact delivers_pure ⟨h.bytes, h.len, h.capacity⟩

/-- **The append code**: the store is in bounds, and the cursor moves to the next
    character. -/
theorem appendChar_delivers {m : List Byte} (h : Stores b buf) (hat : AtChar s p c m)
    (hc : c ≠ Byte.nul) :
    Delivers heap (appendChar heap s b p) (fun r => Stores r.1 (buf.push c) ∧ r.2 = p + 1) := by
  refine (grow_delivers h c).bind fun b' hgrown => ?_
  obtain ⟨hbytes, hlen, hcap⟩ := hgrown
  have hroom : buf.bytes.length < b'.mem.length := by
    have hfits := (buf.push c).fits
    rw [push_bytes, List.length_append, List.length_singleton] at hfits
    omega
  obtain ⟨mem, hput, hmem, hsame⟩ := put_next hbytes hroom c
  have hstore : store b' c = .ok ⟨mem, b'.len + 1⟩ := by
    rw [store, hlen, hput]
    rfl
  refine delivers_step hat.char (delivers_step hstore (delivers_step (hat.next hc).1 ?_))
  refine delivers_pure ⟨⟨?_, ?_, ?_⟩, rfl⟩
  · rw [push_bytes]
    exact hmem
  · rw [push_bytes, List.length_append, List.length_singleton]
    exact congrArg (· + 1) hlen
  · exact hsame.trans hcap

/-- **The terminator** is stored in bounds, and `strdup` stops at it. -/
theorem terminated_eq (h : Stores b buf) : terminated b = .ok buf.value := by
  have hroom : buf.bytes.length < b.mem.length := h.capacity ▸ buf.fits
  obtain ⟨mem, hput, hmem, -⟩ := put_next h.bytes hroom Byte.nul
  have hnul : Byte.nul ∈ mem := hmem.subset (by simp)
  obtain ⟨rest, rfl⟩ := hmem
  have hvalue : (buf.bytes ++ [Byte.nul] ++ rest).takeWhile (· ≠ Byte.nul) = buf.value := by
    rw [List.append_assoc, Buf.value, List.takeWhile_append]
    split
    · next hall =>
      rw [(List.takeWhile_prefix _).eq_of_length hall]
      simp
    · rfl
  rw [terminated, h.len, hput]
  exact (if_pos hnul).trans (congrArg Except.ok hvalue)

/-! ### The loops -/

theorem singleScan_delivers (hp : p ≤ s.length) (hf : s.length < f + p) (h : Stores b buf) :
    Delivers heap (singleScan heap s f b p) (fun r =>
      ∃ buf', singleLoop buf (memAt s p) = .ok (buf', memAt s r.2) ∧ Stores r.1 buf' ∧
        r.2 ≤ s.length) := by
  induction f generalizing b buf p with
  | zero => omega
  | succ f ih =>
    obtain ⟨c, m, hat⟩ := exists_atChar hp
    refine delivers_step hat.char ?_
    rw [hat.mem, singleLoop]
    refine delivers_ite (fun hc => ?_) (fun hc => ?_)
    · obtain ⟨-, hm, hlt⟩ := hat.next hc.1
      refine (appendChar_delivers h hat hc.1).bind fun r hr => ?_
      rw [if_pos hc, hm, hr.2]
      exact ih hlt (by omega) hr.1
    · rw [if_neg hc]
      exact delivers_pure ⟨buf, by rw [hat.mem], h, hp⟩

theorem doubleScan_delivers (hp : p ≤ s.length) (hf : s.length < f + p) (h : Stores b buf) :
    Delivers heap (doubleScan heap s f b p) (fun r =>
      ∃ buf', doubleLoop buf (memAt s p) = .ok (buf', memAt s r.2.1, r.2.2) ∧ Stores r.1 buf' ∧
        r.2.1 ≤ s.length) := by
  induction f generalizing b buf p with
  | zero => omega
  | succ f ih =>
    obtain ⟨c, m, hat⟩ := exists_atChar hp
    refine delivers_step hat.char ?_
    rw [hat.mem, doubleLoop.eq_def]
    dsimp only
    refine delivers_ite (fun hc => ?_) (fun hc => ?_)
    · obtain ⟨hadv, hm, hlt⟩ := hat.next hc.1
      -- the character is taken as it is
      have hplain : Delivers heap
          (appendChar heap s b p >>= fun r => doubleScan heap s f r.1 r.2) (fun r =>
            ∃ buf', doubleLoop (buf.push c) m = .ok (buf', memAt s r.2.1, r.2.2) ∧
              Stores r.1 buf' ∧ r.2.1 ≤ s.length) := by
        refine (appendChar_delivers h hat hc.1).bind fun r hr => ?_
        rw [hm, hr.2]
        exact ih hlt (by omega) hr.1
      rw [if_pos hc]
      refine delivers_ite (fun hbs => ?_) (fun hbs => ?_)
      · rw [if_pos hbs]
        obtain ⟨d, q, hatd⟩ := exists_atChar (s := s) (p := p + 1) hlt
        rw [hm, hatd.mem] at hplain ⊢
        dsimp only
        refine delivers_step hatd.char ?_
        refine delivers_ite (fun hd => ?_) (fun hd => ?_)
        · rw [if_pos hd]
          exact delivers_pure ⟨buf, by rw [hat.mem, hm, hatd.mem], h, hp⟩
        rw [if_neg hd]
        obtain ⟨-, hq, hlt'⟩ := hatd.next hd
        refine delivers_ite (fun hesc => ?_) (fun hesc => ?_)
        · rw [if_pos hesc]
          refine delivers_step hadv ((appendChar_delivers h hatd hd).bind fun r hr => ?_)
          rw [hq, hr.2]
          exact ih hlt' (by omega) hr.1
        · rw [if_neg hesc]
          exact hplain
      · rw [if_neg hbs]
        exact hplain
    · rw [if_neg hc]
      exact delivers_pure ⟨buf, by rw [hat.mem], h, hp⟩

/-- What a run of the word loop is related to: a run of the word loop of `Lexer`. -/
def SameWord (s : List Byte) (x : Buf × List Byte × Bool) (r : WordBuf × ℕ × Bool) : Prop :=
  Stores r.1 x.1 ∧ memAt s r.2.1 = x.2.1 ∧ r.2.2 = x.2.2 ∧ r.2.1 ≤ s.length

/-- The end of a quoted piece: the line ends inside the quotes, which the test `bad` of the
    source finds out, or the word goes on behind the closing quote. -/
theorem quoteEnd_refines {x : Buf × List Byte × Bool} (bad : Byte → Prop) [DecidablePred bad]
    (hbad : bad Byte.nul) (hp : p ≤ s.length) (h : Stores b buf)
    (ih : p < s.length → wordLoop f buf (memAt s (p + 1)) = .ok x →
      Delivers heap (wordScan heap s f b (p + 1)) (SameWord s x)) (hx : (do
      let d ← deref (memAt s p)
      if bad d then pure (buf, memAt s p, true) else wordLoop f buf (memAt s p).tail) =
        Except.ok x) :
    Delivers heap (do
      let d ← charAt s p
      if bad d then pure (b, p, true)
      else do
        let p ← stepCursor s p
        wordScan heap s f b p) (SameWord s x) := by
  obtain ⟨d, m, hat⟩ := exists_atChar hp
  refine delivers_step hat.char ?_
  rw [hat.mem] at hx
  change (if bad d then _ else _) = _ at hx
  refine delivers_ite_both hx (fun hd hx => ?_) (fun hd hx => ?_)
  · cases hx
    exact delivers_pure ⟨h, hat.mem, rfl, hp⟩
  · obtain ⟨hadv, hm, hlt⟩ := hat.next (fun hnul => hd (hnul ▸ hbad))
    rw [List.tail_cons, hm] at hx
    exact delivers_step hadv (ih hlt hx)

/-- **Refinement of the word loop.** -/
theorem wordScan_refines {x : Buf × List Byte × Bool} (hp : p ≤ s.length) (h : Stores b buf)
    (hx : wordLoop f buf (memAt s p) = .ok x) :
    Delivers heap (wordScan heap s f b p) (SameWord s x) := by
  induction f generalizing b buf p with
  | zero => cases hx
  | succ f ih =>
    obtain ⟨c, m, hat⟩ := exists_atChar hp
    refine delivers_step hat.char ?_
    rw [hat.mem] at hx
    change (if c = Byte.nul then _ else _) = _ at hx
    refine delivers_ite_both hx (fun hc hx => ?_) (fun hc hx => ?_)
    · cases hx
      exact delivers_pure ⟨h, hat.mem, rfl, hp⟩
    obtain ⟨hadv, hm, hlt⟩ := hat.next hc
    refine delivers_ite_both hx (fun hdelim hx => ?_) (fun hdelim hx => ?_)
    · cases hx
      exact delivers_pure ⟨h, hat.mem, rfl, hp⟩
    rw [List.tail_cons, hm] at hx
    refine delivers_ite_both hx (fun hbs hx => ?_) (fun hbs hx => ?_)
    · obtain ⟨d, q, hatd⟩ := exists_atChar (s := s) (p := p + 1) hlt
      refine delivers_step hadv (delivers_step hatd.char ?_)
      rw [hatd.mem] at hx
      change (if d = Byte.nul then _ else _) = _ at hx
      refine delivers_ite_both hx (fun hd hx => ?_) (fun hd hx => ?_)
      · cases hx
        exact delivers_pure ⟨h, hatd.mem, rfl, hlt⟩
      · obtain ⟨-, hq, hlt'⟩ := hatd.next hd
        rw [List.tail_cons, hq] at hx
        refine (appendChar_delivers h hatd hd).bind fun r hr => ?_
        rw [hr.2]
        exact ih hlt' hr.1 hx
    refine delivers_ite_both hx (fun hsq hx => ?_) (fun hsq hx => ?_)
    · refine delivers_step hadv ?_
      refine (singleScan_delivers hlt (by omega) h).bind fun r hr => ?_
      obtain ⟨buf', hloop, hstores, hle⟩ := hr
      rw [hloop] at hx
      exact quoteEnd_refines (· = Byte.nul) rfl hle hstores
        (fun hlt' hx' => ih hlt' hstores hx') hx
    refine delivers_ite_both hx (fun hdq hx => ?_) (fun hdq hx => ?_)
    · refine delivers_step hadv ?_
      refine (doubleScan_delivers hlt (by omega) h).bind fun r hr => ?_
      obtain ⟨buf', hloop, hstores, hle⟩ := hr
      rw [hloop] at hx
      exact quoteEnd_refines (fun d => r.2.2 = true ∨ d = Byte.nul) (.inr rfl) hle hstores
        (fun hlt' hx' => ih hlt' hstores hx') hx
    · refine (appendChar_delivers h hat hc).bind fun r hr => ?_
      rw [hr.2]
      exact ih hlt hr.1 hx

theorem allocBuf_delivers : Delivers heap (allocBuf heap p) (fun b => Stores b Buf.alloc) := by
  unfold allocBuf
  refine delivers_ite (fun _ => delivers_pure ⟨List.nil_prefix, rfl, ?_⟩) (fun hno => ?_)
  · exact length_cells heap p 64
  · exact .inl ⟨fun hgrants => hno (hgrants p).1, _, rfl⟩

theorem createTokenNode_delivers (t : Token) :
    Delivers heap (createTokenNode heap p t) (· = t) := by
  unfold createTokenNode
  refine delivers_ite (fun hno => ?_) (fun _ => delivers_ite (fun hno => ?_) (fun _ => ?_))
  · exact .inl ⟨fun hgrants => by simp [hgrants p] at hno, _, rfl⟩
  · exact .inl ⟨fun hgrants => by simp [hgrants p] at hno, _, rfl⟩
  · exact delivers_pure rfl

theorem skipBlanks_delivers (hp : p ≤ s.length) (hf : s.length < f + p) :
    Delivers heap (skipBlanks s f p) (fun q =>
      skipSpaces (memAt s p) = .ok (memAt s q) ∧ q ≤ s.length) := by
  induction f generalizing p with
  | zero => omega
  | succ f ih =>
    obtain ⟨c, m, hat⟩ := exists_atChar hp
    refine delivers_step hat.char ?_
    rw [hat.mem, skipSpaces]
    refine delivers_ite (fun hc => ?_) (fun hc => ?_)
    · obtain ⟨hadv, hm, hlt⟩ := hat.next hc.1
      rw [if_pos hc, hm]
      exact delivers_step hadv (ih hlt (by omega))
    · rw [if_neg hc]
      exact delivers_pure ⟨by rw [hat.mem], hp⟩

theorem opAt_delivers {m : List Byte} (hat : AtChar s p c m) (hc : c ≠ Byte.nul) :
    Delivers heap (opAt s p) (fun r =>
      readOp (memAt s p) = .ok (r.1, memAt s r.2) ∧ r.2 ≤ s.length) := by
  obtain ⟨hadv, hm, hlt⟩ := hat.next hc
  obtain ⟨d, q, hatd⟩ := exists_atChar (s := s) (p := p + 1) hlt
  refine delivers_step hat.char (delivers_step hadv ?_)
  rw [hat.mem, readOp, hm]
  refine delivers_ite (fun hgt => ?_) (fun hgt => ?_)
  · rw [if_pos hgt]
    refine delivers_step hatd.char ?_
    rw [hatd.mem]
    change Delivers heap _ (fun r => (if d = Byte.gt then _ else _) = _ ∧ _)
    refine delivers_ite (fun hd => ?_) (fun hd => ?_)
    · obtain ⟨hadv', hq, hlt'⟩ := hatd.next (by rw [hd]; decide)
      rw [if_pos hd, hq]
      exact delivers_step hadv' (delivers_pure ⟨rfl, hlt'⟩)
    · rw [if_neg hd, ← hatd.mem]
      exact delivers_pure ⟨rfl, hlt⟩
  rw [if_neg hgt]
  refine delivers_ite (fun hlt' => ?_) (fun hlt' => ?_)
  · rw [if_pos hlt']
    exact delivers_pure ⟨rfl, hlt⟩
  rw [if_neg hlt']
  refine delivers_ite (fun hbar => ?_) (fun hbar => ?_)
  · rw [if_pos hbar]
    exact delivers_pure ⟨rfl, hlt⟩
  rw [if_neg hbar]
  refine delivers_ite (fun hamp => ?_) (fun hamp => ?_)
  · rw [if_pos hamp]
    exact delivers_pure ⟨rfl, hlt⟩
  · rw [if_neg hamp]
    exact delivers_pure ⟨rfl, hlt⟩

/-- **Refinement of `tokenize`.** -/
theorem scanTokens_refines {l : TokenList} {x : Lexed} (hp : p ≤ s.length)
    (hx : tokenizeLoop f (memAt s p) l = .ok x) :
    Delivers heap (scanTokens heap s f p l) (· = x) := by
  induction f generalizing p l with
  | zero => cases hx
  | succ f ih =>
    obtain ⟨c, m, hat⟩ := exists_atChar hp
    refine delivers_step hat.char ?_
    rw [hat.mem] at hx
    change (if c = Byte.nul then _ else skipSpaces (c :: m) >>= _) = _ at hx
    refine delivers_ite_both hx (fun hc hx => delivers_pure (Except.ok.inj hx)) (fun hc hx => ?_)
    rw [← hat.mem] at hx
    refine (skipBlanks_delivers hp (by omega)).bind fun q hq => ?_
    obtain ⟨d, m', hatq⟩ := exists_atChar hq.2
    refine delivers_step hatq.char ?_
    rw [hq.1, hatq.mem] at hx
    change (if d = Byte.nul then _ else if isOp d then readOp (d :: m') >>= _ else
      wordLoop (d :: m').length .alloc (d :: m') >>= _) = _ at hx
    refine delivers_ite_both hx (fun hd hx => delivers_pure (Except.ok.inj hx)) (fun hd hx => ?_)
    refine delivers_ite_both hx (fun hop hx => ?_) (fun hop hx => ?_)
    · rw [← hatq.mem] at hx
      refine (opAt_delivers hatq hd).bind fun r hr => ?_
      refine (createTokenNode_delivers r.1).bind fun t ht => ?_
      rw [hr.1] at hx
      rw [ht]
      exact ih hr.2 hx
    · rw [← hatq.mem] at hx
      -- the fuel of both word loops is what is left of the line
      have hlen : (memAt s q).length = s.length - q + 1 := by
        rw [memAt, List.length_append, List.length_drop, List.length_singleton]
      rw [hlen] at hx
      refine allocBuf_delivers.bind fun b hb => ?_
      cases hword : wordLoop (s.length - q + 1) .alloc (memAt s q) with
      | error e =>
        rw [hword] at hx
        cases hx
      | ok y =>
        obtain ⟨buf, v, bad⟩ := y
        rw [hword] at hx
        refine (wordScan_refines hq.2 hb hword).bind fun r hr => ?_
        obtain ⟨hstores, hv, hbad, hle⟩ := hr
        change (if bad = true then _ else _) = _ at hx
        rw [hbad]
        refine delivers_ite_both hx (fun hb hx => delivers_pure (Except.ok.inj hx))
          (fun hb hx => ?_)
        refine delivers_step (terminated_eq hstores) ?_
        refine (createTokenNode_delivers _).bind fun t ht => ?_
        rw [ht]
        refine ih hle ?_
        rw [hv]
        exact hx

/-- **The word buffer is never overrun.** On every string and with every behaviour of the
    allocator, `tokenize` returns: every store, the terminator included, finds
    `buf_len < buf_capacity`, and the cursor is never moved or read past the terminating
    NUL. If the allocator grants every request, it returns what the model of `Lexer`
    does. -/
theorem word_buffer_in_bounds (heap : Heap) (s : List Byte) (hs : NulFree s) :
    ∃ r, tokenizeInMemory heap s = .ok r ∧ (heap.Grants → tokenize s = .ok r) := by
  have hlexer : tokenize s = .ok (lexed (rest (.between false) [] s)) :=
    tokenizeLoop_spec (Nat.lt_succ_self s.length) hs []
  have hrun : Delivers heap (scanTokens heap s (s.length + 1) 0 .empty)
      (· = lexed (rest (.between false) [] s)) :=
    scanTokens_refines (Nat.zero_le _) hlexer
  unfold tokenizeInMemory
  rcases hrun with ⟨hheap, call, hcall⟩ | ⟨r, hr, rfl⟩
  · rw [hcall]
    exact ⟨_, rfl, fun hgrants => absurd hgrants hheap⟩
  · rw [hr]
    exact ⟨_, rfl, fun _ => hlexer⟩

/-- A word of 64 bytes, whose last byte needs a second block. -/
def longWord : List Byte := Byte.squote :: (List.replicate 64 97 ++ [Byte.squote])

/-- An allocator whose new cells hold no NUL. -/
def fullHeap : Heap := ⟨fun _ => true, fun _ _ => 255, fun _ => true, fun _ => true⟩

theorem word_buffer_in_bounds_long :
    tokenizeInMemory fullHeap longWord =
      .ok ⟨0, ⟨[⟨.word, List.replicate 64 97⟩], 1⟩, []⟩ := by
  have hs : NulFree longWord := by decide
  obtain ⟨r, hr, hgrants⟩ := word_buffer_in_bounds fullHeap longWord hs
  have hlexed := hgrants (fun _ => ⟨rfl, rfl, rfl⟩)
  have hvalue : tokenize longWord = .ok ⟨0, ⟨[⟨.word, List.replicate 64 97⟩], 1⟩, []⟩ := by
    decide +kernel
  rw [hr, Except.ok.inj (hlexed.symm.trans hvalue)]

end MiniOs.Shell

import MiniOs.Shell.Token

/-!
# The lexer

`tokenize` of `lexer.c`, with its four nested loops over one cursor. The input is
the memory of a C string: its bytes and the terminating NUL, with nothing
readable behind it. The cursor is the rest of that memory, so reading through a
cursor that has run off the end is a fault and not a value.

Allocation is assumed to succeed. The loops that are not structural on the cursor
carry fuel; running out of it is a fault of its own.
-/

namespace MiniOs.Shell

/-- What the model can get wrong and the theorems exclude: a read behind the
    terminating NUL, or a loop that outlives its fuel. -/
inductive Fault where
  | pastNul
  | fuel
  deriving DecidableEq, Repr

def deref : List Byte → Except Fault Byte
  | [] => .error .pastNul
  | c :: _ => .ok c

/-- The word buffer: its contents, `buf_capacity`, and the room that is always
    left for the NUL. -/
structure Buf where
  bytes : List Byte
  capacity : ℕ
  fits : bytes.length < capacity

def Buf.alloc : Buf := ⟨[], 64, by decide⟩

/-- The store that all four copies of the append code make: the capacity is
    doubled when one more byte would leave no room for the NUL. -/
def Buf.push (b : Buf) (c : Byte) : Buf :=
  if h : b.capacity ≤ b.bytes.length + 1 then
    ⟨b.bytes ++ [c], b.capacity * 2, by
      have := b.fits
      rw [List.length_append, List.length_singleton]
      omega⟩
  else
    ⟨b.bytes ++ [c], b.capacity, by
      rw [List.length_append, List.length_singleton]
      omega⟩

/-- `buf[buf_len] = '\0'` and the `strdup` of `create_token_node`, which copies up
    to the first NUL. -/
def Buf.value (b : Buf) : List Byte := b.bytes.takeWhile (· ≠ Byte.nul)

/-- The loop over leading blanks. -/
def skipSpaces : List Byte → Except Fault (List Byte)
  | [] => .error .pastNul
  | c :: p => if c ≠ Byte.nul ∧ isspace c then skipSpaces p else .ok (c :: p)

/-- The operator branch: the token and the cursor behind it. -/
def readOp : List Byte → Except Fault (Token × List Byte)
  | [] => .error .pastNul
  | c :: p =>
    if c = Byte.gt then do
      let d ← deref p
      if d = Byte.gt then pure (⟨.opGtgt, [Byte.gt, Byte.gt]⟩, p.tail)
      else pure (⟨.opGt, [Byte.gt]⟩, p)
    else if c = Byte.lt then pure (⟨.opLt, [Byte.lt]⟩, p)
    else if c = Byte.bar then pure (⟨.opPipe, [Byte.bar]⟩, p)
    else if c = Byte.amp then pure (⟨.opAmp, [Byte.amp]⟩, p)
    else pure (⟨.opSemi, [Byte.semi]⟩, p)

def singleLoop (buf : Buf) : List Byte → Except Fault (Buf × List Byte)
  | [] => .error .pastNul
  | c :: p =>
    if c ≠ Byte.nul ∧ c ≠ Byte.squote then singleLoop (buf.push c) p else .ok (buf, c :: p)

/-- The loop inside double quotes; the flag is `syntax_error`. -/
def doubleLoop (buf : Buf) : List Byte → Except Fault (Buf × List Byte × Bool)
  | [] => .error .pastNul
  | c :: p =>
    if c ≠ Byte.nul ∧ c ≠ Byte.dquote then
      if c = Byte.backslash then
        match p with
        | [] => .error .pastNul
        | d :: q =>
          if d = Byte.nul then .ok (buf, c :: d :: q, true)
          else if d = Byte.dquote ∨ d = Byte.backslash then doubleLoop (buf.push d) q
          else doubleLoop (buf.push c) (d :: q)
      else doubleLoop (buf.push c) p
    else .ok (buf, c :: p, false)

/-- The loop over one word; the flag is `syntax_error`. -/
def wordLoop : ℕ → Buf → List Byte → Except Fault (Buf × List Byte × Bool)
  | 0, _, _ => .error .fuel
  | f + 1, buf, p => do
    let c ← deref p
    if c = Byte.nul then pure (buf, p, false)
    else if isspace c ∨ isOp c then pure (buf, p, false)
    else if c = Byte.backslash then do
      let d ← deref p.tail
      if d = Byte.nul then pure (buf, p.tail, true)
      else wordLoop f (buf.push d) p.tail.tail
    else if c = Byte.squote then do
      let (buf, p) ← singleLoop buf p.tail
      let d ← deref p
      if d = Byte.nul then pure (buf, p, true) else wordLoop f buf p.tail
    else if c = Byte.dquote then do
      let (buf, p, bad) ← doubleLoop buf p.tail
      let d ← deref p
      if bad = true ∨ d = Byte.nul then pure (buf, p, true) else wordLoop f buf p.tail
    else wordLoop f (buf.push c) p.tail

/-- What `tokenize` leaves: its return value, the token list and the lines written
    to `stderr`. -/
structure Lexed where
  ret : Int
  list : TokenList
  err : List String
  deriving DecidableEq, Repr

def tokenizeLoop : ℕ → List Byte → TokenList → Except Fault Lexed
  | 0, _, _ => .error .fuel
  | f + 1, p, l => do
    let c ← deref p
    if c = Byte.nul then pure ⟨0, l, []⟩
    else do
      let p ← skipSpaces p
      let c ← deref p
      if c = Byte.nul then pure ⟨0, l, []⟩
      else if isOp c then do
        let (t, p) ← readOp p
        tokenizeLoop f p (appendToken l t)
      else do
        let (buf, p, bad) ← wordLoop p.length .alloc p
        if bad = true then pure ⟨-1, freeTokens l, ["cshell: invalid syntax"]⟩
        else tokenizeLoop f p (appendToken l ⟨.word, buf.value⟩)

def tokenize (s : List Byte) : Except Fault Lexed :=
  tokenizeLoop (s.length + 1) (s ++ [Byte.nul]) .empty

end MiniOs.Shell

import Mathlib.Data.List.Basic

/-!
# Tokens

The token types and token list of `lexer.h`, and the character classes the
lexer tests. Strings are lists of bytes.
-/

namespace MiniOs.Shell

/-- An `unsigned char`. -/
abbrev Byte := UInt8

namespace Byte

/-- The string terminator. -/
def nul : Byte := 0

def dquote : Byte := 34

def amp : Byte := 38

/-- The single quote. -/
def squote : Byte := 39

def semi : Byte := 59

def lt : Byte := 60

/-- The greater-than sign. -/
def gt : Byte := 62

def backslash : Byte := 92

def bar : Byte := 124

end Byte

/-- `isspace` in the C locale: blank, tab, newline, vertical tab, form feed and
    carriage return. -/
def isspace (c : Byte) : Prop := c = 32 ∨ (9 ≤ c ∧ c ≤ 13)

instance (c : Byte) : Decidable (isspace c) := inferInstanceAs (Decidable (_ ∨ _))

/-- The operator characters. -/
def isOp (c : Byte) : Prop :=
  c = Byte.bar ∨ c = Byte.amp ∨ c = Byte.gt ∨ c = Byte.lt ∨ c = Byte.semi

instance (c : Byte) : Decidable (isOp c) := inferInstanceAs (Decidable (_ ∨ _ ∨ _ ∨ _ ∨ _))

inductive TokenType where
  | word
  | opPipe
  | opAmp
  | opGt
  | opGtgt
  | opLt
  | opSemi
  deriving DecidableEq, Repr

/-- `Token`; the `next` pointer is the rest of the list the token stands in. -/
structure Token where
  type : TokenType
  value : List Byte
  deriving DecidableEq, Repr

/-- `TokenList`: the nodes from `head` to `tail`, and `count`. -/
structure TokenList where
  tokens : List Token
  count : ℕ
  deriving DecidableEq, Repr

/-- The list `tokenize` starts with and `free_tokens` leaves behind. -/
def TokenList.empty : TokenList := ⟨[], 0⟩

def appendToken (l : TokenList) (t : Token) : TokenList := ⟨l.tokens ++ [t], l.count + 1⟩

def freeTokens (_ : TokenList) : TokenList := .empty

end MiniOs.Shell

import MacroAsm.Text.Offset

/-!
# Tokens

A `Token` is a stretch of a line, between two byte offsets, with what it is. Its text stays in the
line and is cut out of it where it is needed.
-/

namespace MacroAsm

/-- What a token is. -/
inductive TokenKind where
  /-- Blanks between tokens. -/
  | blank
  /-- The contents of a string, without its quotes and with its escapes unread. -/
  | string
  /-- A run that starts with a letter or an underscore. -/
  | name
  /-- A run that starts with a digit or a dollar sign. -/
  | number
  | openParen
  | closeParen
  | openBracket
  | closeBracket
  | openBrace
  | closeBrace
  /-- One to three operator characters. -/
  | operator
  /-- The `:` that ends a label. -/
  | label
  /-- The blanks after a name at the very start of a line, which make it a label unless the line has
  a `:` too. -/
  | impliedLabel
  /-- The cast `::`. -/
  | cast
  | dot
  | comma
  deriving DecidableEq, Repr

namespace TokenKind

def isSignificant : TokenKind → Bool
  | blank => false
  | impliedLabel => false
  | _ => true

/-- Whether a value can start with a token of this kind. -/
def opensValue : TokenKind → Bool
  | name => true
  | number => true
  | string => true
  | openParen => true
  | openBracket => true
  | dot => true
  | openBrace => true
  | _ => false

/-- Whether a value can end with a token of this kind, so that a dot glued to it reaches into
the value. -/
def endsValue : TokenKind → Bool
  | name => true
  | number => true
  | string => true
  | closeParen => true
  | closeBracket => true
  | _ => false

end TokenKind

/-- A stretch of a line from byte offset `start` up to `stop`. -/
structure Token where
  kind : TokenKind
  start : Nat
  stop : Nat
  deriving DecidableEq, Repr

namespace Token

def isSignificant (t : Token) : Bool := t.kind.isSignificant

def textIn (t : Token) (line : List Char) : List Char := Text.slice line t.start t.stop

end Token

end MacroAsm

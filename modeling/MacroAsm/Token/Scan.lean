import MacroAsm.Line
import MacroAsm.Token

/-!
# Scanning a line

`scan` splits a line into tokens from left to right. Each step takes one lexeme: a blank, a string,
a run of a name or number, the longest operator, or a mark. A name at the start of the line that is
followed by a blank or by the end is taken for a label at first; if a `:` turns up later, the mark
becomes an ordinary blank (`settleLabel`).
-/

namespace MacroAsm

namespace Scan

/-! ## Character classes -/

def isBlank (c : Char) : Bool := c = ' ' || c = '\t' || c = '\r' || c = '\x00'

def operatorChars : List Char :=
  ['=', '<', '>', '!', '+', '-', '*', '/', '%', '&', '|', '^', '~']

/-- The characters besides quotes that end a run and belong to tokens of their own. -/
def marks : List Char := operatorChars ++ [':', '(', ')', '[', ']', '{', '}', '.', ',']

/-- The characters that continue a name or a number. -/
def continuesRun (c : Char) : Bool := !(isBlank c || isQuote c || marks.contains c)

/-- The kind of run that a character starts. -/
def runKind? (c : Char) : Option TokenKind :=
  if c = '$' || c.isDigit then some .number
  else if c = '_' || c.isAlpha then some .name
  else none

/-- The kind of token that a mark is on its own. -/
def markKind? : Char → Option TokenKind
  | '(' => some .openParen
  | ')' => some .closeParen
  | '[' => some .openBracket
  | ']' => some .closeBracket
  | '{' => some .openBrace
  | '}' => some .closeBrace
  | '.' => some .dot
  | ',' => some .comma
  | _ => none

/-! ## Lexemes -/

/-- The length of the longest operator that a line starts with, or 0. -/
def operatorLength : List Char → Nat
  | '<' :: '<' :: '<' :: _ => 3
  | '>' :: '>' :: '>' :: _ => 3
  | '<' :: '<' :: _ => 2
  | '>' :: '>' :: _ => 2
  | '<' :: '=' :: _ => 2
  | '>' :: '=' :: _ => 2
  | '=' :: '=' :: _ => 2
  | '!' :: '=' :: _ => 2
  | c :: _ => if operatorChars.contains c then 1 else 0
  | [] => 0

/-- The offset of the quote that closes a string, and what follows that quote. The text starts
at byte `offset`, and `escaped` says that a backslash came before it. -/
def closingQuote? (quote : Char) (escaped : Bool) (offset : Nat) :
    List Char → Option (Nat × List Char)
  | [] => none
  | c :: cs =>
    if c = '\\' then closingQuote? quote (!escaped) (offset + c.utf8Size) cs
    else if c = quote && !escaped then some (offset, cs)
    else closingQuote? quote false (offset + c.utf8Size) cs

theorem length_of_closingQuote? {quote : Char} {escaped : Bool} {offset : Nat} {cs : List Char}
    {close : Nat} {rest : List Char}
    (h : closingQuote? quote escaped offset cs = some (close, rest)) :
    rest.length < cs.length := by
  fun_induction closingQuote? quote escaped offset cs with
  | case1 => simp at h
  | case2 escaped offset cs ih => exact Nat.lt_succ_of_lt (ih h)
  | case3 escaped offset c cs _ _ =>
    simp only [Option.some.injEq, Prod.mk.injEq] at h
    simp [h.2]
  | case4 escaped offset c cs _ _ ih => exact Nat.lt_succ_of_lt (ih h)

/-! ## Tokens so far

The tokens of the part already read are kept with the last one first. -/

/-- Whether the tokens are the single name that starts the line and ends at `offset`. -/
def isLabelCandidate (offset : Nat) : List Token → Bool
  | ⟨.name, 0, stop⟩ :: _ => stop = offset
  | _ => false

/-- Adds the mark for blanks from `start` to `stop`. Blanks after blanks, or at the start of
the line, leave none. -/
def addBlank (start stop : Nat) (done : List Token) : List Token :=
  if isLabelCandidate start done then ⟨.impliedLabel, start, stop⟩ :: done
  else if done.head?.any Token.isSignificant then ⟨.blank, start, stop⟩ :: done
  else done

def isLabelled (done : List Token) : Bool := done.any (·.kind = .label)

/-- Reads on at byte `offset`, where `done` holds the tokens before it, the last one first. -/
def scanFrom (offset : Nat) (done : List Token) : List Char → Except Fault (List Token)
  | [] => .ok (addBlank offset offset done)
  | c :: cs =>
    let next := offset + c.utf8Size
    if isBlank c then scanFrom next (addBlank offset next done) cs
    else if isQuote c then
      match _h : closingQuote? c false next cs with
      | none => .error (.unterminated 1)
      | some (close, rest) => scanFrom (close + c.utf8Size) (⟨.string, next, close⟩ :: done) rest
    else if c = ':' then
      if !done.any Token.isSignificant then .error (.emptyLabel offset)
      else
        match cs with
        | ':' :: rest => scanFrom (offset + 2) (⟨.cast, offset, offset + 2⟩ :: done) rest
        | rest =>
          if isLabelled done then .error (.repeatedLabel offset)
          else scanFrom next (⟨.label, offset, next⟩ :: done) rest
    else
      match markKind? c with
      | some kind => scanFrom next (⟨kind, offset, next⟩ :: done) cs
      | none =>
        let length := operatorLength (c :: cs)
        if 0 < length then
          scanFrom (offset + length) (⟨.operator, offset, offset + length⟩ :: done)
            (cs.drop (length - 1))
        else
          match runKind? c with
          | none => .error (.unrecognized c offset)
          | some kind =>
            let stop := next + Text.byteSize (cs.takeWhile continuesRun)
            scanFrom stop (⟨kind, offset, stop⟩ :: done) (cs.dropWhile continuesRun)
termination_by cs => cs.length
decreasing_by
  · simp
  · exact Nat.lt_succ_of_lt (length_of_closingQuote? _h)
  · simp only [List.length_cons]; omega
  · simp
  · simp
  · simp only [List.length_drop, List.length_cons]; omega
  · exact Nat.lt_succ_of_le (List.dropWhile_suffix continuesRun).length_le

/-- In a line with a `:`, the blanks after the name at its start are only blanks. -/
def settleLabel (tokens : List Token) : List Token :=
  if isLabelled tokens then
    tokens.map fun t => if t.kind = .impliedLabel then { t with kind := .blank } else t
  else tokens

end Scan

/-- The tokens of a line. -/
def scan (line : List Char) : Except Fault (List Token) :=
  (Scan.scanFrom 0 [] line).map fun done => Scan.settleLabel done.reverse

end MacroAsm

import MacroAsm.Scope
import MacroAsm.Fault
import MacroAsm.Token

/-!
# Nesting a line

`Scope.ofTokens` nests the tokens of a line by parentheses, square brackets and macro calls. A call
is written in one of two ways:

* `name(a, b)`, where the parenthesis follows the name, or its size suffix, directly;
* `name a, b`, a *bare* call, which reaches to the end of the line. Only the first name of a
  statement outside all brackets makes one, and only if blanks follow it and then something that can
  start an operand.

Both ways the arguments become scopes of their own, one for each comma and one more.
-/

namespace MacroAsm

namespace Nest

/-! ## Open scopes -/

/-- What opened a scope, and where. -/
inductive Opening where
  | paren (offset : Nat)
  | bracket (offset : Nat)
  /-- A macro call and its finished arguments, the last one first. -/
  | call (name : String) (size : Option String) (bare : Bool) (offset : Nat) (args : List Scope)
  deriving Repr

/-- An open scope: what opened it, and what was already in the scope around it, the last one first,
at which depth. -/
structure Frame where
  opening : Opening
  before : List Scope
  depth : Nat
  deriving Repr

/-- A line nested so far: the children of the innermost open scope, the last one first, their depth,
and the open scopes, the innermost first. -/
structure Nesting where
  items : List Scope := []
  depth : Nat := 1
  frames : List Frame := []
  deriving Repr

namespace Nesting

def addLeaf (n : Nesting) (kind : ScopeKind) (value : Option Node) : Nesting :=
  { n with items := ⟨kind, n.depth, value, []⟩ :: n.items }

def openParen (n : Nesting) (offset : Nat) : Nesting :=
  ⟨[], n.depth + 1, ⟨.paren offset, n.items, n.depth⟩ :: n.frames⟩

def openBracket (n : Nesting) (offset : Nat) : Nesting :=
  ⟨[], n.depth + 1, ⟨.bracket offset, n.items, n.depth⟩ :: n.frames⟩

/-- Opens a macro call and its first argument. -/
def openCall (n : Nesting) (name : String) (size : Option String) (bare : Bool) (offset : Nat) :
    Nesting :=
  ⟨[], n.depth + 2, ⟨.call name size bare offset [], n.items, n.depth⟩ :: n.frames⟩

/-- The scope that a frame becomes when it is closed around its children `items`, which have the
last one first. -/
def closed (f : Frame) (items : List Scope) : Scope :=
  match f.opening with
  | .paren _ => ⟨.plain, f.depth, none, items.reverse⟩
  | .bracket _ => ⟨.operator, f.depth, some (.bare .subscript), items.reverse⟩
  | .call name size _ _ args =>
    let last : Scope := ⟨.plain, f.depth + 1, none, items.reverse⟩
    ⟨.call, f.depth, some (.call name size []), (last :: args).reverse⟩

/-- Closes a frame, whose enclosing frames are `outer`, around its children. -/
def close (f : Frame) (outer : List Frame) (items : List Scope) : Nesting :=
  ⟨closed f items :: f.before, f.depth, outer⟩

def closeParen (n : Nesting) (offset : Nat) : Except Fault Nesting :=
  match n.frames with
  | f :: outer =>
    match f.opening with
    | .paren _ => .ok (close f outer n.items)
    | .call _ _ false _ _ => .ok (close f outer n.items)
    | _ => .error (.strayParen offset)
  | [] => .error (.strayParen offset)

def closeBracket (n : Nesting) (offset : Nat) : Except Fault Nesting :=
  match n.frames with
  | f :: outer =>
    match f.opening with
    | .bracket _ => .ok (close f outer n.items)
    | _ => .error (.strayBracket offset)
  | [] => .error (.strayBracket offset)

/-- Takes a comma, which ends an argument and starts the next one. -/
def nextArgument (n : Nesting) (offset : Nat) : Except Fault Nesting :=
  match n.frames with
  | f :: outer =>
    match f.opening with
    | .call name size bare openedAt args =>
      let arg : Scope := ⟨.plain, f.depth + 1, none, n.items.reverse⟩
      .ok { n with
        items := []
        frames := { f with opening := .call name size bare openedAt (arg :: args) } :: outer }
    | _ => .error (.commaOutsideCall offset)
  | [] => .error (.commaOutsideCall offset)

/-- Ends the line: bare calls end with it, while all other open scopes lack their bracket. -/
def closeAll (items : List Scope) : List Frame → Except Fault Scope
  | [] => .ok ⟨.plain, 0, none, items.reverse⟩
  | f :: outer =>
    match f.opening with
    | .call _ _ true _ _ => closeAll (closed f items :: f.before) outer
    | .call _ _ false offset _ => .error (.unclosed '(' offset)
    | .paren offset => .error (.unclosed '(' offset)
    | .bracket offset => .error (.unclosed '[' offset)

end Nesting

/-! ## Looking ahead -/

/-- Whether the tokens after the blanks behind a name can start an operand. A sign does
only if it is glued to a value: `a -b` is a call, `a - b` a difference. -/
def opensOperand (cut : Nat → Nat → String) (tokens : List Token) : Bool :=
  match tokens.dropWhile (!·.isSignificant) with
  | [] => false
  | t :: rest =>
    if t.kind = .operator then
      let symbol := cut t.start t.stop
      symbol = "~" || symbol = "!" ||
        ((symbol = "-" || symbol = "+") &&
          rest.head?.any fun next => next.start = t.stop && next.kind.opensValue)
    else t.kind.opensValue

/-- The suffix that follows a name, and how many tokens it takes: a dot and the run after it, if
there is one. -/
def sizeSuffix (cut : Nat → Nat → String) : List Token → Option String × Nat
  | [] => (none, 0)
  | dot :: tokens =>
    if dot.kind = .dot then
      match tokens.head? with
      | some run =>
        if run.kind = .name || run.kind = .number then (some (cut run.start run.stop), 2)
        else (some "", 1)
      | none => (some "", 1)
    else (none, 0)

/-- Where a numeral ends that starts with the token `t`, and how many of the following tokens it
takes: a dot and a number glued to it make it a fraction. -/
def numeralEnd (t : Token) : List Token → Nat × Nat
  | dot :: fraction :: _ =>
    if dot.kind = .dot && fraction.kind = .number && dot.start = t.stop &&
        fraction.start = dot.stop then (fraction.stop, 2)
    else (t.stop, 0)
  | _ => (t.stop, 0)

/-! ## Tokens -/

/-- Whether the dot `t` is glued to the end of a value. -/
def isGlued (before : Option Token) (t : Token) : Bool :=
  before.any fun b => b.stop = t.start && b.kind.endsValue

/-- Adds a name that starts at `start` and ends with the token `t`, and says how many of the
following tokens belong to it. The name opens a call if a parenthesis follows it, or if it may start
a bare call. -/
def addName (cut : Nat → Nat → String) (n : Nesting) (atHead : Bool) (start : Nat) (t : Token)
    (tokens : List Token) : Nesting × Nat :=
  let text := cut start t.stop
  let (size, taken) := sizeSuffix cut tokens
  let plain :=
    match size with
    | some part => n.addLeaf .operator (some (.binary .field (.text text) (.text part)))
    | none => n.addLeaf .text (some (.text text))
  match tokens.drop taken with
  | [] => (plain, taken)
  | next :: after =>
    if next.kind = .openParen then (n.openCall text size false next.start, taken + 1)
    else if atHead && n.frames.isEmpty && next.kind = .blank && opensOperand cut after then
      (n.openCall text size true start, taken)
    else (plain, taken)

/-- Adds the token `t`, which comes after `before`, and says how many of the following tokens belong
to it. -/
def addToken (cut : Nat → Nat → String) (read : NumeralReader) (n : Nesting) (atHead : Bool)
    (before : Option Token) (t : Token) (tokens : List Token) : Except Fault (Nesting × Nat) :=
  match t.kind with
  | .blank => .ok (n, 0)
  | .label => .ok (n.addLeaf .label none, 0)
  | .impliedLabel => .ok (n.addLeaf .label none, 0)
  | .cast => .ok (n.addLeaf .operator (some (.bare .cast)), 0)
  | .openBrace => .ok (n.addLeaf .openBrace (some (.brace .opening)), 0)
  | .closeBrace => .ok (n.addLeaf .closeBrace (some (.brace .closing)), 0)
  | .openParen => .ok (n.openParen t.start, 0)
  | .openBracket => .ok (n.openBracket t.start, 0)
  | .closeParen => (n.closeParen t.start).map (·, 0)
  | .closeBracket => (n.closeBracket t.start).map (·, 0)
  | .comma => (n.nextArgument t.start).map (·, 0)
  | .string =>
    .ok (n.addLeaf .string (some (.string (Text.unescaped (cut t.start t.stop).toList))), 0)
  | .number =>
    let (stop, taken) := numeralEnd t tokens
    let text := cut t.start stop
    match read text with
    | .ok (value, width) => .ok (n.addLeaf .number (some (.number ⟨text, value, width⟩)), taken)
    | .error cause => .error (.badNumeral text cause t.start)
  | .operator =>
    let symbol := cut t.start t.stop
    match Operator.ofSymbol? symbol with
    | some o => .ok (n.addLeaf .operator (some (.bare o)), 0)
    | none => .error (.unknownOperator symbol t.start)
  | .name => .ok (addName cut n atHead t.start t tokens)
  | .dot =>
    if isGlued before t then .ok (n.addLeaf .operator (some (.bare .field)), 0)
    else
      match tokens with
      | next :: rest =>
        if next.kind = .name then
          let (n, taken) := addName cut n atHead t.start next rest
          .ok (n, taken + 1)
        else .error (.unknownOperator "." t.start)
      | [] => .error (.unknownOperator "." t.start)

/-- Whether a statement is still at its head after a token: blanks change nothing, and only
label marks come before the head. -/
def headAfter (atHead : Bool) : TokenKind → Bool
  | .blank => atHead
  | .label => true
  | .impliedLabel => true
  | _ => false

/-- Nests the tokens after `before`, of which the first `taken` belong to what was added last. -/
def addTokens (cut : Nat → Nat → String) (read : NumeralReader) (n : Nesting) (atHead : Bool)
    (before : Option Token) (taken : Nat) : List Token → Except Fault Nesting
  | [] => .ok n
  | t :: tokens =>
    match taken with
    | taken + 1 => addTokens cut read n atHead (some t) taken tokens
    | 0 =>
      match addToken cut read n atHead before t tokens with
      | .error fault => .error fault
      | .ok (n, taken) => addTokens cut read n (headAfter atHead t.kind) (some t) taken tokens

end Nest

/-- Nests the tokens of a line, of which `cut` gives the text between two offsets. -/
def Scope.ofTokens (cut : Nat → Nat → String) (read : NumeralReader) (tokens : List Token) :
    Except Fault Scope := do
  let n ← Nest.addTokens cut read {} true none 0 tokens
  Nest.Nesting.closeAll n.items n.frames

/-- The text of a line between two byte offsets. -/
def cutLine (line : List Char) (start stop : Nat) : String :=
  String.ofList (Text.slice line start stop)

end MacroAsm

import MacroAsm.Json.Basic

/-!
# Reading JSON

`Json.read?` reads a text that holds one value and blanks around its parts. The whole text has to be
well formed, but some of what is well formed cannot be used: arrays and objects nested more deeply
than a given limit, and texts and field names in which a surrogate stands without its other half.
Those are read as `unusable`, so that a part of the text which nobody asks for may hold them. Of the
digits of a number, as many are read as fit into 64 bits, and those of its whole part that are left
out still count for its size. The functions for the parts take `fuel`, which every step uses up;
`read?` gives them more than the text can need.
-/

namespace MacroAsm.Json

/-- The characters that may stand between the parts of a text. -/
def isJsonBlank (c : Char) : Bool := c = ' ' || c = '\n' || c = '\t' || c = '\r'

/-- The text after the blanks it starts with. -/
def skipBlanks (cs : List Char) : List Char := cs.dropWhile isJsonBlank

/-! ## Texts -/

/-- What a hexadecimal digit counts for. -/
def hexDigit? (c : Char) : Option Nat :=
  if c.isDigit then some (c.toNat - '0'.toNat)
  else if 'a' ≤ c ∧ c ≤ 'f' then some (c.toNat - 'a'.toNat + 10)
  else if 'A' ≤ c ∧ c ≤ 'F' then some (c.toNat - 'A'.toNat + 10)
  else none

/-- Four hexadecimal digits, and what follows them. -/
def hexUnit? : List Char → Option (Nat × List Char)
  | a :: b :: c :: d :: cs => do
    let n := ((← hexDigit? a) * 16 + (← hexDigit? b)) * 256 + (← hexDigit? c) * 16 + (← hexDigit? d)
    return (n, cs)
  | _ => none

/-- The second half of a surrogate pair, if it comes next, and what follows it. -/
def lowSurrogate? : List Char → Option (Nat × List Char)
  | '\\' :: 'u' :: cs => do
    let (low, cs) ← hexUnit? cs
    if 0xdc00 ≤ low ∧ low ≤ 0xdfff then return (low, cs) else none
  | _ => none

/-- The character of a numbered escape, of which the first four digits come next, and what follows
it: a code point, or a surrogate pair in two escapes. Half a pair is no character. -/
def numbered? (cs : List Char) : Option (Option Char × List Char) := do
  let (unit, cs) ← hexUnit? cs
  if unit < 0xd800 ∨ 0xdfff < unit then return (some (Char.ofNat unit), cs)
  else if 0xdbff < unit then return (none, cs)
  else
    match lowSurrogate? cs with
    | some (low, cs) =>
      return (some (Char.ofNat (0x10000 + (unit - 0xd800) * 0x400 + (low - 0xdc00))), cs)
    | none => return (none, cs)

/-- The character of an escape, given its letter and what follows it. -/
def escape? (letter : Char) (cs : List Char) : Option (Option Char × List Char) :=
  match letter with
  | '"' => some (some '"', cs)
  | '\\' => some (some '\\', cs)
  | '/' => some (some '/', cs)
  | 'b' => some (some '\x08', cs)
  | 'f' => some (some '\x0c', cs)
  | 'n' => some (some '\n', cs)
  | 'r' => some (some '\r', cs)
  | 't' => some (some '\t', cs)
  | 'u' => numbered? cs
  | _ => none

/-- One more character on a text that is read backwards, if both are there. -/
def consChar? : Option Char → Option (List Char) → Option (List Char)
  | some c, some done => some (c :: done)
  | _, _ => none

/-- The rest of a text up to its closing quote, and what follows. The characters before it are
`done`, the last one first. A text of which some character is missing is none. -/
def stringTail? (fuel : Nat) (done : Option (List Char)) (cs : List Char) :
    Option (Option String × List Char) :=
  match fuel with
  | 0 => none
  | fuel + 1 =>
    match cs with
    | '"' :: cs => some (done.map fun done => String.ofList done.reverse, cs)
    | '\\' :: letter :: cs =>
      match escape? letter cs with
      | some (c, cs) => stringTail? fuel (consChar? c done) cs
      | none => none
    | c :: cs => if c.toNat < 0x20 then none else stringTail? fuel (consChar? (some c) done) cs
    | [] => none

/-! ## Numbers -/

/-- The value of decimal digits, read on from `n`. -/
def digitsValue (n : Nat) (ds : List Char) : Nat :=
  ds.foldl (fun n c => n * 10 + (c.toNat - '0'.toNat)) n

/-- Digits, of which there is at least one, and what follows them. -/
def digits? (cs : List Char) : Option (List Char × List Char) :=
  match cs.takeWhile Char.isDigit with
  | [] => none
  | ds => some (ds, cs.dropWhile Char.isDigit)

/-- The exponent that may come next, and what follows it. -/
def exponent? : List Char → Option (Option Int × List Char)
  | [] => some (none, [])
  | e :: cs =>
    if e = 'e' ∨ e = 'E' then
      let (negative, cs) :=
        match cs with
        | '-' :: cs => (true, cs)
        | '+' :: cs => (false, cs)
        | cs => (false, cs)
      (digits? cs).map fun (ds, rest) =>
        let n := digitsValue 0 ds
        (some (if negative then Int.negOfNat n else Int.ofNat n), rest)
    else some (none, e :: cs)

/-- The digits after a point that may come next, and what follows them. -/
def fraction? : List Char → Option (Option (List Char) × List Char)
  | '.' :: cs => (digits? cs).map fun (ds, rest) => (some ds, rest)
  | cs => some (none, cs)

/-- Reads digits on from `n` as long as the number stays below `2 ^ 64`, and counts those that are
left out. -/
def boundedDigits (n : Nat) : List Char → Nat × Nat
  | [] => (n, 0)
  | c :: cs =>
    let next := n * 10 + (c.toNat - '0'.toNat)
    if next < Nat.pow 2 64 then boundedDigits next cs else (n, cs.length + 1)

/-- A number without sign, and what follows it. A zero is not followed by more digits. -/
def unsigned? (negative : Bool) (cs : List Char) : Option (Json × List Char) := do
  let (whole, cs) ← digits? cs
  if whole.head? = some '0' ∧ whole.length ≠ 1 then none
  else
    let (fraction, cs) ← fraction? cs
    let (exponent, cs) ← exponent? cs
    let (n, omitted) := boundedDigits 0 whole
    match negative, omitted, fraction, exponent with
    | false, 0, none, none => return (natural n, cs)
    | _, _, _, _ =>
      let places := fraction.getD []
      let (digits, omittedPlaces) := boundedDigits n places
      let scale := exponent.getD 0 + omitted - (places.length - omittedPlaces : Nat)
      return (decimal negative digits scale, cs)

/-- A number, and what follows it. -/
def number? : List Char → Option (Json × List Char)
  | '-' :: cs => unsigned? true cs
  | cs => unsigned? false cs

/-! ## Values -/

/-- What follows a given word. -/
def after? : List Char → List Char → Option (List Char)
  | [], cs => some cs
  | w :: word, c :: cs => if w = c then after? word cs else none
  | _ :: _, [] => none

/-- A text, if it can be used. -/
def ofString? : Option String → Json
  | some s => string s
  | none => unusable

/-- An array that may hold `nesting - 1` more inside one another. -/
def ofItems (nesting : Nat) (items : List Json) : Json :=
  if nesting = 0 then unusable else array items

/-- An object that may hold `nesting - 1` more inside one another, if its fields can be used. -/
def ofFields? (nesting : Nat) : Option (List (String × Json)) → Json
  | some fields => if nesting = 0 then unusable else object fields
  | none => unusable

/-- One more field in front of others, if all their names can be used. -/
def consField? : Option String → Json → Option (List (String × Json)) →
    Option (List (String × Json))
  | some name, v, some fields => some ((name, v) :: fields)
  | _, _, _ => none

mutual

/-- A value and what follows it, where arrays and objects may be nested `nesting` deep. -/
def value? (fuel nesting : Nat) (cs : List Char) : Option (Json × List Char) :=
  match fuel with
  | 0 => none
  | fuel + 1 =>
    match skipBlanks cs with
    | [] => none
    | '"' :: cs => (stringTail? fuel (some []) cs).map fun (s, rest) => (ofString? s, rest)
    | '[' :: cs =>
      match skipBlanks cs with
      | ']' :: rest => some (ofItems nesting [], rest)
      | cs =>
        (itemsTail? fuel (nesting - 1) cs).map fun (items, rest) => (ofItems nesting items, rest)
    | '{' :: cs =>
      match skipBlanks cs with
      | '}' :: rest => some (ofFields? nesting (some []), rest)
      | cs =>
        (fieldsTail? fuel (nesting - 1) cs).map fun (fields, rest) =>
          (ofFields? nesting fields, rest)
    | 'n' :: cs => (after? ['u', 'l', 'l'] cs).map fun rest => (null, rest)
    | 't' :: cs => (after? ['r', 'u', 'e'] cs).map fun rest => (bool true, rest)
    | 'f' :: cs => (after? ['a', 'l', 's', 'e'] cs).map fun rest => (bool false, rest)
    | cs => number? cs

/-- The items of an array up to its closing bracket, and what follows. -/
def itemsTail? (fuel nesting : Nat) (cs : List Char) : Option (List Json × List Char) :=
  match fuel with
  | 0 => none
  | fuel + 1 => do
    let (v, cs) ← value? fuel nesting cs
    match skipBlanks cs with
    | ',' :: cs =>
      let (vs, rest) ← itemsTail? fuel nesting cs
      return (v :: vs, rest)
    | ']' :: rest => return ([v], rest)
    | _ => none

/-- The fields of an object up to its closing brace, if their names can be used, and what
follows. -/
def fieldsTail? (fuel nesting : Nat) (cs : List Char) :
    Option (Option (List (String × Json)) × List Char) :=
  match fuel with
  | 0 => none
  | fuel + 1 =>
    match skipBlanks cs with
    | '"' :: cs => do
      let (name, cs) ← stringTail? fuel (some []) cs
      let cs ← after? [':'] (skipBlanks cs)
      let (v, cs) ← value? fuel nesting cs
      match skipBlanks cs with
      | ',' :: cs =>
        let (fields, rest) ← fieldsTail? fuel nesting cs
        return (consField? name v fields, rest)
      | '}' :: rest => return (consField? name v (some []), rest)
      | _ => none
    | _ => none

end

/-- Reads a text that holds one value, where arrays and objects may be nested `nesting` deep. -/
def read? (nesting : Nat) (s : String) : Option Json := do
  let cs := s.toList
  let (v, rest) ← value? (2 * cs.length + 2) nesting cs
  if (skipBlanks rest).isEmpty then some v else none

end MacroAsm.Json

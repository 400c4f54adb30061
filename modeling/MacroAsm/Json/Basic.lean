/-!
# JSON values

The values of a JSON text. An object keeps its fields in the order in which they are written, and
may have several of one name.
-/

namespace MacroAsm

/-- A JSON value. -/
inductive Json where
  | null
  | bool (b : Bool)
  /-- A number that is written with digits alone and has no more than 64 bits. -/
  | natural (n : Nat)
  /-- Any other number: `digits * 10 ^ exponent`, with its sign. -/
  | decimal (negative : Bool) (digits : Nat) (exponent : Int)
  | string (s : String)
  | array (items : List Json)
  | object (fields : List (String × Json))
  /-- A value that is written as it should be but that no form of data can take: a text or a field
  name with half a surrogate pair, or arrays and objects too deeply nested. It does no harm where
  it does not matter. -/
  | unusable
  deriving Repr, Inhabited

namespace Json

mutual

/-- How deeply arrays and objects are nested. -/
def depth : Json → Nat
  | array items => depthAll items + 1
  | object fields => depthFields fields + 1
  | _ => 0

def depthAll : List Json → Nat
  | [] => 0
  | v :: vs => max v.depth (depthAll vs)

def depthFields : List (String × Json) → Nat
  | [] => 0
  | (_, v) :: fields => max v.depth (depthFields fields)

end

/-! ## Forms of data -/

/-- A value of an enumeration: its name, and its contents if it has any. -/
def tagged (tag : String) (contents : Json) : Json := object [(tag, contents)]

/-- The name of a value of an enumeration, and its contents if it has any. -/
def tagged? : Json → Option (String × Option Json)
  | string tag => some (tag, none)
  | object [(tag, contents)] => some (tag, some contents)
  | _ => none

/-- The name of a value of an enumeration that has no contents. -/
def bareTag? (j : Json) : Option String :=
  match j.tagged? with
  | some (tag, none) => some tag
  | some (tag, some null) => some tag
  | _ => none

/-- The contents of the fields of a record, given by name in an object, where other
fields do not matter but none may be repeated, or by position in an array. -/
def record? (names : List String) : Json → Option (List (Option Json))
  | object fields =>
    names.mapM fun name =>
      match fields.filter (·.1 == name) with
      | [] => some none
      | [(_, contents)] => some (some contents)
      | _ => none
  | array items => if items.length = names.length then some (items.map some) else none
  | _ => none

def string? : Json → Option String
  | string s => some s
  | _ => none

def char? : Json → Option Char
  | string s =>
    match s.toList with
    | [c] => some c
    | _ => none
  | _ => none

/-- A natural number below a bound. -/
def below? (bound : Nat) : Json → Option Nat
  | natural n => if n < bound then some n else none
  | _ => none

def nat32? : Json → Option Nat := below? (Nat.pow 2 32)

def word32? (j : Json) : Option UInt32 := j.nat32?.map UInt32.ofNat

def nat64? : Json → Option Nat := below? (Nat.pow 2 64)

def items? : Json → Option (List Json)
  | array items => some items
  | _ => none

/-- The contents of a field that may be missing or null. -/
def optional? {α : Type} (decode? : Json → Option α) : Option Json → Option (Option α)
  | none => some none
  | some null => some none
  | some j => (decode? j).map some

def ofOption {α : Type} (encode : α → Json) : Option α → Json
  | none => null
  | some a => encode a

def ofChar (c : Char) : Json := string (String.singleton c)

end Json

end MacroAsm

import MacroAsm.Json.Basic
import MacroAsm.Node
import MacroAsm.Number.Scaled
import MacroAsm.Number.Shortest
import MacroAsm.Scope

/-!
# Nodes and scopes as JSON

Records become objects with their fields in a fixed order. A value of an enumeration becomes its
name, or an object with its name as the only field if it has contents. What may be missing is null.
Integers keep all 64 bits; a floating-point number is written as the shortest decimal that rounds to
it, or as null if it is infinite.
-/

namespace MacroAsm

/-! ## Numbers -/

def Binary64.toJson (x : Binary64) : Json :=
  match x.magnitude? with
  | none => .null
  | some _ =>
    match x.shortest? with
    | some d => .decimal x.isNegative d.digits d.exponent
    | none => .decimal x.isNegative 0 0

/-- A floating-point number from any JSON number. -/
def Binary64.ofJson? : Json → Option Binary64
  | .natural n => ofScaled? false n 0
  | .decimal negative digits exponent => ofScaled? negative digits exponent
  | _ => none

namespace Width

def toJson (w : Width) : Json := .string w.name

def ofJson? (j : Json) : Option Width := do
  let tag ← j.bareTag?
  all.find? (·.name == tag)

end Width

namespace Value

def toJson : Value → Json
  | integer n => .tagged "Integer" (.natural n.toNat)
  | float x => .tagged "Float" x.toJson

def ofJson? (j : Json) : Option Value :=
  match j.tagged? with
  | some ("Integer", some n) => n.nat64?.map fun n => integer (UInt64.ofNat n)
  | some ("Float", some x) => (Binary64.ofJson? x).map float
  | _ => none

end Value

namespace Numeral

def toJson (n : Numeral) : Json :=
  .object [("text", .string n.text), ("value", n.value.toJson), ("kind", n.width.toJson)]

def ofJson? (j : Json) : Option Numeral := do
  let [text, value, width] ← j.record? ["text", "value", "kind"] | none
  return ⟨← (← text).string?, ← Value.ofJson? (← value), ← Width.ofJson? (← width)⟩

end Numeral

/-! ## Operators and braces -/

namespace Operator

def toJson (o : Operator) : Json := .string o.name

def ofJson? (j : Json) : Option Operator := j.bareTag? >>= ofName?

end Operator

namespace Brace

def toJson : Brace → Json
  | opening => .string "Start"
  | closing => .string "End"

def ofJson? (j : Json) : Option Brace :=
  match j.bareTag? with
  | some "Start" => some opening
  | some "End" => some closing
  | _ => none

end Brace

/-! ## Nodes -/

namespace Node

mutual

def toJson : Node → Json
  | text name => .tagged "Literal" (.tagged "Text" (.string name))
  | string value => .tagged "Literal" (.tagged "String" (.string value))
  | number n => .tagged "Literal" (.tagged "Number" n.toJson)
  | label name target =>
    .tagged "LabelCreate" (.object [("name", name.toJson), ("target", optionToJson target)])
  | call name size args =>
    .tagged "MacroCall" (.object
      [("name", .string name), ("size_suffix", .ofOption .string size),
        ("args", .array (listToJson args))])
  | op o left right =>
    .tagged "Operator" (.object
      [("op", o.toJson), ("left", optionToJson left), ("right", optionToJson right)])
  | brace b => .tagged "Block" b.toJson

def optionToJson : Option Node → Json
  | none => .null
  | some n => n.toJson

def listToJson : List Node → List Json
  | [] => []
  | n :: ns => n.toJson :: listToJson ns

end

/-- A literal from what stands under its name. -/
def literalOfJson? (j : Json) : Option Node :=
  match j.tagged? with
  | some ("Text", some name) => name.string?.map text
  | some ("String", some value) => value.string?.map string
  | some ("Number", some n) => (Numeral.ofJson? n).map number
  | _ => none

/-- A node from JSON that is nested less than `fuel` deep. -/
def ofJsonWithin? (fuel : Nat) (j : Json) : Option Node :=
  match fuel with
  | 0 => none
  | fuel + 1 =>
    match j.tagged? with
    | some ("Literal", some contents) => literalOfJson? contents
    | some ("LabelCreate", some contents) => do
      let [name, target] ← contents.record? ["name", "target"] | none
      return label (← ofJsonWithin? fuel (← name)) (← Json.optional? (ofJsonWithin? fuel) target)
    | some ("MacroCall", some contents) => do
      let [name, size, args] ← contents.record? ["name", "size_suffix", "args"] | none
      let name ← (← name).string?
      let size ← Json.optional? Json.string? size
      return call name size (← (← (← args).items?).mapM (ofJsonWithin? fuel))
    | some ("Operator", some contents) => do
      let [o, left, right] ← contents.record? ["op", "left", "right"] | none
      let o ← Operator.ofJson? (← o)
      let left ← Json.optional? (ofJsonWithin? fuel) left
      return op o left (← Json.optional? (ofJsonWithin? fuel) right)
    | some ("Block", some contents) => (Brace.ofJson? contents).map brace
    | _ => none

def ofJson? (j : Json) : Option Node := ofJsonWithin? (j.depth + 1) j

end Node

/-! ## Scopes -/

namespace ScopeKind

def name : ScopeKind → String
  | plain => "None"
  | operator => "Operator"
  | string => "String"
  | text => "Text"
  | number => "Number"
  | label => "Label"
  | call => "MacroCall"
  | openBrace => "BlockStart"
  | closeBrace => "BlockEnd"

def all : List ScopeKind :=
  [plain, operator, string, text, number, label, call, openBrace, closeBrace]

def ofName? (s : String) : Option ScopeKind := all.find? (·.name == s)

def toJson (k : ScopeKind) : Json := .string k.name

def ofJson? (j : Json) : Option ScopeKind := j.bareTag? >>= ofName?

end ScopeKind

namespace Scope

mutual

def toJson : Scope → Json
  | ⟨kind, depth, value, children⟩ =>
    .object
      [("kind", kind.toJson), ("depth", .natural depth), ("value", .ofOption Node.toJson value),
        ("children", .array (listToJson children))]

def listToJson : List Scope → List Json
  | [] => []
  | s :: rest => s.toJson :: listToJson rest

end

/-- A scope from JSON that is nested less than `fuel` deep. -/
def ofJsonWithin? (fuel : Nat) (j : Json) : Option Scope :=
  match fuel with
  | 0 => none
  | fuel + 1 => do
    let [kind, depth, value, children] ← j.record? ["kind", "depth", "value", "children"] | none
    let kind ← ScopeKind.ofJson? (← kind)
    let depth ← (← depth).nat64?
    let value ← Json.optional? Node.ofJson? value
    return ⟨kind, depth, value, ← (← (← children).items?).mapM (ofJsonWithin? fuel)⟩

def ofJson? (j : Json) : Option Scope := ofJsonWithin? (j.depth + 1) j

end Scope

end MacroAsm

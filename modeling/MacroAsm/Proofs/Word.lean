import MacroAsm.Scope

/-!
# The words of a line

The words of a node are its operands, operator symbols, brackets and label marks in the order in
which they are written. The words of a nested line are those of its leaves, from left to right:
parentheses add nothing, and a `+` that has nothing on its left in its scope, or a label mark, or an
operator that still lacks its right operand, is no word.
-/

namespace MacroAsm

/-- A word of a line. -/
inductive Word where
  | name (s : String)
  | string (s : String)
  | number (n : Numeral)
  | brace (b : Brace)
  | operator (symbol : String)
  | openIndex
  | closeIndex
  /-- A label mark. -/
  | mark
  /-- A macro call, with the words of each of its arguments. -/
  | call (name : String) (size : Option String) (args : List (List Word))
  deriving Repr

namespace Node

mutual

/-- The words of a node; a name that stands for an omitted argument has none. -/
def words : Node → List Word
  | text name => if name = "" then [] else [.name name]
  | string value => [.string value]
  | number n => [.number n]
  | label name target => name.words ++ .mark :: optionWords target
  | call name size args => [.call name size (listWords args)]
  | op .subscript left right =>
    optionWords left ++ .openIndex :: (optionWords right ++ [.closeIndex])
  | op o left right => optionWords left ++ .operator o.symbol :: optionWords right
  | brace b => [.brace b]

def optionWords : Option Node → List Word
  | none => []
  | some n => n.words

def listWords : List Node → List (List Word)
  | [] => []
  | n :: nodes => n.words :: listWords nodes

end

theorem words_op {o : Operator} (ho : o ≠ .subscript) (left right : Option Node) :
    (op o left right).words = optionWords left ++ .operator o.symbol :: optionWords right := by
  cases o <;> first | rfl | exact absurd rfl ho

end Node

namespace Scope

/-- Whether the scope is a `+`. -/
def isPlus (s : Scope) : Bool :=
  match s.value with
  | some (.op .add none none) => true
  | _ => false

mutual

/-- Whether there is nothing in the scope, apart from signs that are no words. -/
def isVoid : Scope → Bool
  | ⟨.plain, _, _, children⟩ => areVoid children
  | _ => false

def areVoid : List Scope → Bool
  | [] => true
  | child :: children => (child.isPlus || child.isVoid) && areVoid children

end

/-- Whether a `+` right after the scope is a sign. -/
def leavesSign (s : Scope) : Bool :=
  match s.kind, s.value with
  | .label, _ => true
  | .operator, some (.op o _ none) => o ≠ .subscript
  | _, _ => false

mutual

/-- The words of a leaf or scope. -/
def words : Scope → List Word
  | ⟨.plain, _, _, children⟩ => rowWords true children
  | ⟨.call, _, some (.call name size _), args⟩ => [.call name size (argumentWords args)]
  | ⟨.operator, _, some (.op .subscript _ _), children⟩ =>
    .openIndex :: (rowWords true children ++ [.closeIndex])
  | ⟨_, _, some value, _⟩ => value.words
  | ⟨_, _, none, _⟩ => [.mark]

/-- The words of the children of a scope, where `sign` says whether a `+` at their start is a
sign. -/
def rowWords (sign : Bool) : List Scope → List Word
  | [] => []
  | child :: children =>
    if child.isVoid || sign && child.isPlus then rowWords sign children
    else child.words ++ rowWords child.leavesSign children

def argumentWords : List Scope → List (List Word)
  | [] => []
  | arg :: args => arg.words :: argumentWords args

end

theorem rowWords_of_areVoid {children : List Scope} (h : areVoid children = true) :
    rowWords true children = [] := by
  induction children with
  | nil => rfl
  | cons child children ih =>
    rw [areVoid, Bool.and_eq_true] at h
    rw [rowWords, if_pos (by simpa [or_comm] using h.1), ih h.2]

end Scope

end MacroAsm

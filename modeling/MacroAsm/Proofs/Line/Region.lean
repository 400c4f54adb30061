import MacroAsm.Line

/-!
# The regions of a file

A file is a sequence of regions: strings, comments, line breaks outside of these, and single
characters of code. `regions` finds them from left to right, without counting lines or building
text, and `chars_regions` says that nothing is left out. Each region knows what of it ends up in a
logical line (`Region.text`).
-/

namespace MacroAsm

/-- A stretch of a file. -/
inductive Region where
  /-- A character outside strings and comments that is no line break. -/
  | code (c : Char)
  /-- A comment, from its `;` up to the line break or the end of the file. -/
  | comment (chars : List Char)
  /-- What stands between two quotes, with the quote. -/
  | string (quote : Char) (body : List Char)
  /-- A string that is still open at the end of the file. -/
  | openString (quote : Char) (body : List Char)
  /-- A line break outside strings. -/
  | lineBreak
  deriving DecidableEq, Repr

namespace Region

/-- The characters of a region in the file. -/
def chars : Region → List Char
  | code c => [c]
  | comment chars => chars
  | string quote body => quote :: (body ++ [quote])
  | openString quote body => quote :: body
  | lineBreak => ['\n']

/-- What a region adds to its logical line: comments and the line breaks in strings are dropped. -/
def text : Region → List Char
  | code c => [c]
  | comment _ => []
  | string quote body => quote :: (body.filter (· ≠ '\n') ++ [quote])
  | openString quote body => quote :: body.filter (· ≠ '\n')
  | lineBreak => []

/-- The quote that is open before each character of a region. -/
def quotes : Region → List (Option Char)
  | code _ => [none]
  | comment chars => chars.map fun _ => none
  | string quote body => none :: (body ++ [quote]).map fun _ => some quote
  | openString quote body => none :: body.map fun _ => some quote
  | lineBreak => [none]

end Region

/-- What stands in a string up to the quote that closes it, and what follows that quote. A
backslash escapes the character after it, and `escaped` says that one stands right before. -/
def stringBody? (quote : Char) (escaped : Bool) : List Char → Option (List Char × List Char)
  | [] => none
  | c :: cs =>
    if c = quote && !escaped then some ([], cs)
    else (stringBody? quote (c = '\\' && !escaped) cs).map fun (body, rest) => (c :: body, rest)

variable {quote : Char} {escaped : Bool} {cs body rest : List Char}

theorem eq_of_stringBody? (h : stringBody? quote escaped cs = some (body, rest)) :
    cs = body ++ quote :: rest := by
  fun_induction stringBody? quote escaped cs generalizing body with
  | case1 => cases h
  | case2 escaped c cs hclose =>
    cases h
    simp only [Bool.and_eq_true, decide_eq_true_eq] at hclose
    rw [hclose.1]
    rfl
  | case3 escaped c cs _ ih =>
    obtain ⟨⟨body', rest'⟩, hbody, heq⟩ := Option.map_eq_some_iff.mp h
    cases heq
    rw [ih hbody]
    rfl

/-- The regions of a file. -/
def regions : List Char → List Region
  | [] => []
  | c :: cs =>
    if c = '\n' then .lineBreak :: regions cs
    else if c = ';' then
      .comment (c :: cs.takeWhile (· ≠ '\n')) :: regions (cs.dropWhile (· ≠ '\n'))
    else if isQuote c then
      match _h : stringBody? c false cs with
      | some (body, rest) => .string c body :: regions rest
      | none => [.openString c cs]
    else .code c :: regions cs
termination_by cs => cs.length
decreasing_by
  · simp
  · exact Nat.lt_succ_of_le (List.dropWhile_suffix _).length_le
  · rw [eq_of_stringBody? _h]
    simp
    omega
  · simp

theorem chars_regions (cs : List Char) : (regions cs).flatMap Region.chars = cs := by
  fun_induction regions cs with
  | case1 => rfl
  | case2 cs ih => rw [List.flatMap_cons, ih]; rfl
  | case3 cs _ ih =>
    rw [List.flatMap_cons, ih]
    exact congrArg (';' :: ·) List.takeWhile_append_dropWhile
  | case4 c cs _ _ _ body rest hbody ih =>
    rw [List.flatMap_cons, ih, eq_of_stringBody? hbody]
    simp [Region.chars]
  | case5 c cs => simp [Region.chars]
  | case6 c cs _ _ _ ih => rw [List.flatMap_cons, ih]; rfl

end MacroAsm

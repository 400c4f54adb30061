import Mathlib.Data.List.TakeWhile
import MacroAsm.Proofs.Print.Legible

/-!
# The lexemes of a printed node

`Node.lexemes` splits the printed text of a legible node into the pieces that the scanner takes for
one token each, and `Legible.allChars_lexemes` says that they are all of the text.
-/

namespace MacroAsm

/-- A piece of a line, with the kind of its token and the text that the token covers. -/
structure Lexeme where
  kind : TokenKind
  text : List Char

namespace Lexeme

/-- The characters of a lexeme. Those of a string have quotes around the text. -/
def chars (x : Lexeme) : List Char := if x.kind = .string then '"' :: x.text ++ ['"'] else x.text

def allChars (xs : List Lexeme) : List Char := xs.flatMap chars

abbrev blank : Lexeme := ⟨.blank, [' ']⟩

abbrev dot : Lexeme := ⟨.dot, ['.']⟩

abbrev comma : Lexeme := ⟨.comma, [',']⟩

abbrev openParen : Lexeme := ⟨.openParen, ['(']⟩

abbrev closeParen : Lexeme := ⟨.closeParen, [')']⟩

abbrev openBracket : Lexeme := ⟨.openBracket, ['[']⟩

abbrev closeBracket : Lexeme := ⟨.closeBracket, [']']⟩

def ofOperator (o : Operator) : Lexeme :=
  ⟨if o = .cast then .cast else .operator, o.symbol.toList⟩

def ofName (s : String) : List Lexeme :=
  match s.toList with
  | [] => []
  | '.' :: run => [dot, ⟨.name, run⟩]
  | run => [⟨.name, run⟩]

def ofNumeral (s : String) : List Lexeme :=
  match s.toList.dropWhile (· ≠ '.') with
  | [] => [⟨.number, s.toList⟩]
  | _ :: places => [⟨.number, s.toList.takeWhile (· ≠ '.')⟩, dot, ⟨.number, places⟩]

/-- A run, whose kind its first character says. -/
def ofPart (s : String) : List Lexeme :=
  match s.toList with
  | [] => []
  | c :: cs => [⟨(Scan.runKind? c).getD .name, c :: cs⟩]

/-- The suffix of a call with the dot before it. -/
def ofSize : Option String → List Lexeme
  | none => []
  | some part => dot :: ofPart part

@[simp] theorem allChars_nil : allChars [] = [] := rfl

@[simp] theorem allChars_cons (x : Lexeme) (xs : List Lexeme) :
    allChars (x :: xs) = x.chars ++ allChars xs := rfl

@[simp] theorem allChars_append (xs ys : List Lexeme) :
    allChars (xs ++ ys) = allChars xs ++ allChars ys := List.flatMap_append

@[simp] theorem chars_of_ne {kind : TokenKind} {text : List Char} (h : kind ≠ .string) :
    (⟨kind, text⟩ : Lexeme).chars = text := by
  simp [chars, h]

theorem chars_string (text : List Char) :
    (⟨.string, text⟩ : Lexeme).chars = '"' :: text ++ ['"'] := rfl

@[simp] theorem chars_ofOperator (o : Operator) : (ofOperator o).chars = o.symbol.toList := by
  by_cases h : o = .cast <;> simp [ofOperator, chars, h]

theorem allChars_ofName (s : String) : allChars (ofName s) = s.toList := by
  unfold ofName
  split <;> simp [*]

theorem allChars_ofNumeral (s : String) : allChars (ofNumeral s) = s.toList := by
  have htake := List.takeWhile_append_dropWhile (p := (· ≠ '.')) (l := s.toList)
  unfold ofNumeral
  split
  next => simp
  next d places h =>
    have hd : d = '.' := by
      have hhead := List.head?_dropWhile_not (· ≠ '.') s.toList
      rw [h] at hhead
      simpa using hhead
    rw [h, hd] at htake
    simpa using htake

theorem allChars_ofPart (s : String) : allChars (ofPart s) = s.toList := by
  unfold ofPart
  split
  next h => rw [h]; rfl
  next c cs h =>
    have hkind : (Scan.runKind? c).getD .name ≠ .string := by
      unfold Scan.runKind?
      split
      · decide
      · split <;> decide
    simp [h, hkind]

end Lexeme

/-! ## Names and numerals -/

section

open Lexeme

variable {s : String} {kind : TokenKind} {cs : List Char}

theorem IsRun.kind_eq (h : IsRun kind cs) : kind = .name ∨ kind = .number := by
  obtain ⟨c, _, _, hc, _⟩ := h
  unfold Scan.runKind? at hc
  split at hc
  · exact .inr (Option.some.inj hc).symm
  · split at hc
    · exact .inl (Option.some.inj hc).symm
    · cases hc

theorem IsRun.dot_not_mem (h : IsRun kind cs) : '.' ∉ cs := by
  obtain ⟨c, rest, rfl, hc, hrest⟩ := h
  intro hmem
  rcases List.mem_cons.mp hmem with rfl | hmem
  · cases hc
  · exact absurd (hrest _ hmem) (by decide)

theorem IsName.ofName_eq (h : IsName s) : ∃ run, IsRun .name run ∧
    (s.toList = run ∧ ofName s = [⟨.name, run⟩] ∨
      s.toList = '.' :: run ∧ ofName s = [dot, ⟨.name, run⟩]) := by
  cases h with
  | plain h =>
    refine ⟨_, h, .inl ⟨rfl, ?_⟩⟩
    have hdot := h.dot_not_mem
    unfold ofName
    split
    next heq =>
      obtain ⟨c, rest, hcons, -⟩ := h
      rw [heq] at hcons
      cases hcons
    next run heq =>
      rw [heq] at hdot
      exact absurd (List.mem_cons_self ..) hdot
    next => rfl
  | @dotted run hs h =>
    refine ⟨run, h, .inr ⟨hs, ?_⟩⟩
    rw [ofName, hs]
    rfl

theorem IsName.ne_empty (h : IsName s) : s ≠ "" := by
  rintro rfl
  obtain ⟨run, -, ⟨-, heq⟩ | ⟨-, heq⟩⟩ := h.ofName_eq
  · cases heq
  · cases heq

theorem IsNumeral.ofNumeral_eq (h : IsNumeral s) :
    IsRun .number s.toList ∧ ofNumeral s = [⟨.number, s.toList⟩] ∨
      ∃ whole places, IsRun .number whole ∧ IsRun .number places ∧
        s.toList = whole ++ '.' :: places ∧
        ofNumeral s = [⟨.number, whole⟩, dot, ⟨.number, places⟩] := by
  cases h with
  | whole h =>
    have hdrop : s.toList.dropWhile (· ≠ '.') = [] := by
      rw [List.dropWhile_eq_nil_iff]
      intro c hc
      rw [decide_eq_true_eq]
      rintro rfl
      exact h.dot_not_mem hc
    exact .inl ⟨h, by rw [ofNumeral, hdrop]⟩
  | @fraction whole places hs hwhole hplaces =>
    have hne : ∀ c ∈ whole, decide (c ≠ '.') = true := by
      intro c hc
      rw [decide_eq_true_eq]
      rintro rfl
      exact hwhole.dot_not_mem hc
    have hdrop : s.toList.dropWhile (· ≠ '.') = '.' :: places := by
      rw [hs, List.dropWhile_append_of_pos hne]
      rfl
    have htake : s.toList.takeWhile (· ≠ '.') = whole := by
      rw [hs, List.takeWhile_append_of_pos hne]
      simp
    exact .inr ⟨whole, places, hwhole, hplaces, hs, by rw [ofNumeral, hdrop, htake]⟩

theorem IsPart.ofPart_eq (h : IsPart s) :
    ∃ kind, IsRun kind s.toList ∧ ofPart s = [⟨kind, s.toList⟩] := by
  have hrun : ∃ kind, IsRun kind s.toList := by
    rcases h with h | h
    · exact ⟨_, h⟩
    · exact ⟨_, h⟩
  obtain ⟨kind, h⟩ := hrun
  refine ⟨kind, h, ?_⟩
  obtain ⟨c, rest, hcs, hc, -⟩ := h
  rw [ofPart, hcs]
  simp [hc]

end

/-! ## The lexemes of a node -/

namespace Node

open Lexeme

mutual

/-- The lexemes of a legible node. -/
def lexemes : Node → List Lexeme
  | text name => ofName name
  | string value => [⟨.string, Text.quotedChars value.toList⟩]
  | number n => ofNumeral n.text
  | call name size args =>
    ofName name ++ ofSize size ++ openParen :: [comma, blank].intercalate (lexemesAll args) ++
      [closeParen]
  | op .subscript (some l) (some r) => l.lexemes ++ openBracket :: r.lexemes ++ [closeBracket]
  | op .field (some (text name)) (some (text part)) => ofName name ++ dot :: ofPart part
  | op o none (some n) => openParen :: ofOperator o :: n.lexemes ++ [closeParen]
  | op o (some l) (some r) =>
    openParen :: l.lexemes ++ blank :: ofOperator o :: blank :: r.lexemes ++ [closeParen]
  | _ => []
termination_by structural n => n

def lexemesAll : List Node → List (List Lexeme)
  | [] => []
  | n :: rest => n.lexemes :: lexemesAll rest
termination_by structural nodes => nodes

end

variable {read : NumeralReader} {n l r : Node} {o : Operator} {args : List Node}

theorem lexemesAll_eq_map : lexemesAll args = args.map lexemes := by
  induction args with
  | nil => rfl
  | cons n args ih => rw [lexemesAll, ih, List.map_cons]

theorem lexemes_unary :
    (unary o n).lexemes = openParen :: ofOperator o :: n.lexemes ++ [closeParen] := by
  cases o <;> rfl

theorem lexemes_binary (hindex : o ≠ .subscript) (hfield : o ≠ .field) :
    (binary o l r).lexemes =
      openParen :: l.lexemes ++ blank :: ofOperator o :: blank :: r.lexemes ++ [closeParen] := by
  cases o <;> first | rfl | contradiction

theorem print_unary (ho : o.isUnary = true) :
    (unary o n).print = "(" ++ o.symbol ++ n.print ++ ")" := by
  cases o <;> first | rfl | cases ho

theorem print_binary (ho : o.isUnary = false) (hindex : o ≠ .subscript) (hfield : o ≠ .field) :
    (binary o l r).print = "(" ++ l.print ++ " " ++ o.symbol ++ " " ++ r.print ++ ")" := by
  cases o <;> first | rfl | contradiction

def printSize : Option String → String
  | some s => "." ++ s
  | none => ""

theorem print_call {name : String} {size : Option String} : (call name size args).print =
    name ++ printSize size ++ "(" ++ ", ".intercalate (printAll args) ++ ")" := by
  cases size <;> rfl

theorem allChars_ofSize (size : Option String) :
    allChars (ofSize size) = (printSize size).toList := by
  cases size <;> simp [ofSize, printSize, allChars_ofPart]

theorem allChars_intercalate (xss : List (List Lexeme)) :
    allChars ([comma, blank].intercalate xss) = ", ".toList.intercalate (xss.map allChars) := by
  induction xss with
  | nil => rfl
  | cons xs xss ih =>
    cases xss with
    | nil => simp
    | cons ys xss =>
      rw [List.intercalate_cons_cons, allChars_append, allChars_append, ih]
      simp

theorem Legible.allChars_lexemes (h : n.Legible read) : allChars n.lexemes = n.print.toList := by
  induction h with
  | name => exact allChars_ofName _
  | string => simp [lexemes, print, Text.quoted, chars_string]
  | number => exact allChars_ofNumeral _
  | unary ho hn ih =>
    rw [lexemes_unary, print_unary ho]
    simp [ih]
  | @binary o l r ho hfield hl hr ihl ihr =>
    by_cases hindex : o = .subscript
    · subst hindex
      simp [Node.binary, lexemes, print, printOperand, ihl, ihr]
    · rw [lexemes_binary hindex hfield, print_binary ho hindex hfield]
      simp [ihl, ihr]
  | field => simp [Node.binary, lexemes, print, printOperand, allChars_ofName, allChars_ofPart]
  | @call name size args hname hsize hargs h ih =>
    have hmap : (lexemesAll args).map allChars = (printAll args).map String.toList := by
      rw [lexemesAll_eq_map, printAll_eq_map, List.map_map, List.map_map]
      apply List.map_congr_left
      intro arg harg
      by_cases hempty : arg = .text ""
      · subst hempty
        rfl
      · exact ih arg harg hempty
    rw [lexemes, print_call]
    simp only [allChars_append, allChars_cons, allChars_ofName, allChars_ofSize,
      allChars_intercalate, hmap, String.toList_append, String.toList_intercalate]
    simp

end Node

end MacroAsm

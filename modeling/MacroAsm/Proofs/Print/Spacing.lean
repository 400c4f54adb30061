import MacroAsm.Proofs.Print.Scan

/-!
# The lexemes of a printed node fit

`Legible.spaced`: each lexeme of a legible node fits between its neighbours, whatever stands before
the node, if no run goes on after it. A sign that is glued to its operand is no part of a longer
operator, as the printed text of no node starts with an operator (`Legible.startsPlainly`), and the
blanks around the other operators follow the end of a value.
-/

namespace MacroAsm

namespace Node

open Lexeme

variable {read : NumeralReader} {n : Node}

theorem Legible.getLast_lexemes (h : n.Legible read) :
    ∃ x, n.lexemes.getLast? = some x ∧ x.kind.isSignificant = true := by
  cases h with
  | name h =>
    obtain ⟨run, -, ⟨-, heq⟩ | ⟨-, heq⟩⟩ := h.ofName_eq
    · exact ⟨_, by rw [lexemes, heq]; rfl, rfl⟩
    · exact ⟨_, by rw [lexemes, heq]; rfl, rfl⟩
  | string => exact ⟨_, rfl, rfl⟩
  | number h =>
    rcases h.ofNumeral_eq with ⟨-, heq⟩ | ⟨_, _, -, -, -, heq⟩
    · exact ⟨_, by rw [lexemes, heq]; rfl, rfl⟩
    · exact ⟨_, by rw [lexemes, heq]; rfl, rfl⟩
  | unary ho hn => exact ⟨closeParen, by rw [lexemes_unary, List.getLast?_concat], rfl⟩
  | @binary o l r ho hfield =>
    by_cases hindex : o = .subscript
    · subst hindex
      exact ⟨closeBracket, List.getLast?_concat, rfl⟩
    · exact ⟨closeParen, by rw [lexemes_binary hindex hfield, List.getLast?_concat], rfl⟩
  | field hs hpart =>
    obtain ⟨kind, hrun, heq⟩ := hpart.ofPart_eq
    refine ⟨_, by simp [Node.binary, lexemes, heq]; rfl, ?_⟩
    rcases hrun.kind_eq with rfl | rfl <;> rfl
  | call => exact ⟨closeParen, List.getLast?_concat, rfl⟩

/-- The characters are there and start with none of an operator. -/
def StartsPlainly (cs : List Char) : Prop := ∃ c rest, cs = c :: rest ∧ c ∉ Scan.operatorChars

theorem startsPlainly_append {cs rest : List Char} (h : StartsPlainly cs) :
    StartsPlainly (cs ++ rest) := by
  obtain ⟨c, cs, rfl, hc⟩ := h
  exact ⟨c, cs ++ rest, rfl, hc⟩

theorem startsPlainly_of_run {kind : TokenKind} {cs : List Char} (h : IsRun kind cs) :
    StartsPlainly cs := by
  obtain ⟨c, rest, rfl, hc, -⟩ := h
  refine ⟨c, rest, rfl, fun hmem => ?_⟩
  rw [Scan.runKind?_of_mem_marks (List.mem_append_left _ hmem)] at hc
  cases hc

theorem startsPlainly_of_name {s : String} (h : IsName s) : StartsPlainly s.toList := by
  obtain ⟨run, hrun, ⟨heq, -⟩ | ⟨heq, -⟩⟩ := h.ofName_eq
  · rw [heq]
    exact startsPlainly_of_run hrun
  · exact ⟨'.', run, heq, by decide⟩

theorem Legible.startsPlainly (h : n.Legible read) : StartsPlainly n.print.toList := by
  induction h with
  | name h => exact startsPlainly_of_name h
  | string => exact ⟨'"', _, by rw [print, Text.quoted, String.toList_ofList]; rfl, by decide⟩
  | number h =>
    rcases h.ofNumeral_eq with ⟨hrun, -⟩ | ⟨whole, places, hrun, -, heq, -⟩
    · exact startsPlainly_of_run hrun
    · rw [print, heq]
      exact startsPlainly_append (startsPlainly_of_run hrun)
  | unary ho => exact ⟨'(', _, by rw [print_unary ho]; simp; rfl, by decide⟩
  | @binary o l r ho hfield hl hr ihl ihr =>
    by_cases hindex : o = .subscript
    · subst hindex
      have hprint : (Node.binary .subscript l r).print = l.print ++ ("[" ++ r.print ++ "]") := by
        simp [Node.binary, print, printOperand, String.append_assoc]
      rw [hprint, String.toList_append]
      exact startsPlainly_append ihl
    · exact ⟨'(', _, by rw [print_binary ho hindex hfield]; simp; rfl, by decide⟩
  | @field s part hs =>
    have hprint : (Node.binary .field (.text s) (.text part)).print = s ++ ("." ++ part) := by
      simp [Node.binary, print, printOperand, String.append_assoc]
    rw [hprint, String.toList_append]
    exact startsPlainly_append (startsPlainly_of_name hs)
  | call hs =>
    rw [print_call, String.append_assoc, String.append_assoc, String.append_assoc,
      String.toList_append]
    exact startsPlainly_append (startsPlainly_of_name hs)

theorem Legible.head_lexemes (h : n.Legible read) (rest : List Char) :
    ∀ c ∈ (allChars n.lexemes ++ rest).head?, c ∉ Scan.operatorChars := by
  obtain ⟨c, cs, heq, hc⟩ := h.startsPlainly
  rw [h.allChars_lexemes, heq]
  rintro _ ⟨⟩
  exact hc

theorem Legible.spaced_append (h : n.Legible read) {before : Option TokenKind} {ys : List Lexeme}
    {rest : List Char} (hspaced : Spaced before n.lexemes (allChars ys ++ rest))
    (hys : ∀ before, IsAfterSignificant before → Spaced before ys rest) :
    Spaced before (n.lexemes ++ ys) rest := by
  obtain ⟨x, hlast, hx⟩ := h.getLast_lexemes
  refine hspaced.append (fun y hy => ?_) (fun hnil => ?_) hys
  · rw [hlast] at hy
    cases hy
    exact hx
  · rw [hnil] at hlast
    cases hlast

theorem fits_ofOperator {o : Operator} {rest : List Char} (hindex : o ≠ .subscript)
    (hfield : o ≠ .field) : (ofOperator o).Fits (some .blank) (' ' :: rest) := by
  by_cases hcast : o = .cast
  · subst hcast
    exact .cast (by simp)
  · refine .operator (by simp [hindex, hcast, hfield]) ?_
    rintro _ ⟨⟩
    decide

theorem spaced_arguments {args : List Node} {rest : List Char}
    (hargs : ∀ arg ∈ args, arg ≠ .text "" →
      arg.Legible read ∧ ∀ before cs, EndsRun cs → Spaced before arg.lexemes cs)
    (before : Option TokenKind) :
    Spaced before ([comma, blank].intercalate (lexemesAll args) ++ [closeParen]) rest := by
  have hclose : ∀ before, Spaced before [closeParen] rest := fun _ => ⟨.mark rfl, trivial⟩
  -- an omitted argument leaves nothing between its neighbours
  have happend : ∀ arg ∈ args, ∀ ys before, EndsRun (allChars ys ++ rest) →
      (∀ before, Spaced before ys rest) → Spaced before (arg.lexemes ++ ys) rest := by
    intro arg harg ys before hends hys
    by_cases hempty : arg = .text ""
    · subst hempty
      exact hys before
    · obtain ⟨hlegible, hspaced⟩ := hargs arg harg hempty
      exact hlegible.spaced_append (hspaced _ _ hends) fun before _ => hys before
  rw [lexemesAll_eq_map]
  clear hargs
  induction args generalizing before with
  | nil => exact hclose before
  | cons arg args ih =>
    rw [List.forall_mem_cons] at happend
    obtain ⟨harg, hargs⟩ := happend
    cases args with
    | nil =>
      rw [List.map_singleton, List.intercalate_singleton]
      exact harg _ _ (endsRun_cons rfl) hclose
    | cons arg' args =>
      rw [List.map_cons, List.map_cons, List.intercalate_cons_cons, List.append_assoc,
        List.append_assoc]
      refine harg _ _ (endsRun_cons rfl) fun _ => ⟨.mark rfl, .blank ⟨_, rfl, rfl⟩, ?_⟩
      exact ih _ hargs

/-- The lexemes of a legible node fit, if no run goes on after them. -/
theorem Legible.spaced (h : n.Legible read) (before : Option TokenKind) {rest : List Char}
    (hrest : EndsRun rest) : Spaced before n.lexemes rest := by
  induction h generalizing before rest with
  | name h => exact spaced_ofName h hrest
  | string h => exact ⟨.string h, trivial⟩
  | number h => exact spaced_ofNumeral h hrest
  | @unary o n ho hn ih =>
    have hsymbol : o ∉ [Operator.subscript, .cast, .field] := by
      cases o <;> first | decide | cases ho
    rw [lexemes_unary, List.cons_append, List.cons_append]
    refine ⟨.mark rfl, .operator hsymbol ?_,
      hn.spaced_append (ih _ (endsRun_cons rfl)) fun _ _ => ?_⟩
    · rw [allChars_append, List.append_assoc]
      exact hn.head_lexemes _
    · exact ⟨.mark rfl, trivial⟩
  | @binary o l r ho hfield hl hr ihl ihr =>
    by_cases hindex : o = .subscript
    · subst hindex
      show Spaced before (l.lexemes ++ openBracket :: r.lexemes ++ [closeBracket]) rest
      rw [List.append_assoc, List.cons_append]
      refine hl.spaced_append (ihl _ (endsRun_cons rfl)) fun _ _ => ⟨.mark rfl, ?_⟩
      exact hr.spaced_append (ihr _ (endsRun_cons rfl)) fun _ _ => ⟨.mark rfl, trivial⟩
    · rw [lexemes_binary hindex hfield, List.append_assoc, List.cons_append]
      refine ⟨.mark rfl, hl.spaced_append (ihl _ (endsRun_cons rfl)) fun _ hbefore => ?_⟩
      have hsymbol : IsAfterSignificant (some (ofOperator o).kind) := by
        refine ⟨_, rfl, ?_⟩
        unfold ofOperator
        split <;> rfl
      have hr : Spaced (some .blank) (r.lexemes ++ [closeParen]) rest :=
        hr.spaced_append (ihr _ (endsRun_cons rfl)) fun _ _ => ⟨.mark rfl, trivial⟩
      exact ⟨.blank hbefore, fits_ofOperator hindex hfield, .blank hsymbol, hr⟩
  | field hs hpart =>
    exact (spaced_ofName hs (endsRun_cons rfl)).append_of_forall fun _ =>
      ⟨.mark rfl, spaced_ofPart hpart hrest⟩
  | @call name size args hname hsize hargs h ih =>
    have hargs : ∀ before, Spaced before
        (openParen :: ([comma, blank].intercalate (lexemesAll args) ++ [closeParen])) rest :=
      fun _ => ⟨.mark rfl, spaced_arguments (fun arg harg hempty =>
        ⟨h arg harg hempty, fun before _ hcs => ih arg harg hempty before hcs⟩) _⟩
    show Spaced before (ofName name ++ ofSize size ++ openParen :: _ ++ [closeParen]) rest
    rw [List.append_assoc, List.cons_append]
    exact (spaced_callee hname hsize (endsRun_cons rfl)).append_of_forall hargs

end Node

end MacroAsm

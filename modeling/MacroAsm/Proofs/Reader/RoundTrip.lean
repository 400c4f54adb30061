import MacroAsm.Proofs.Print.Fold
import MacroAsm.Proofs.Reader.Label

/-!
# Printed nodes are read again

`Reader.line_print`: a line with the printed text of a legible node is read as this node just if no
cast in it has an indexed right operand, and the same holds of the target of a label.

Proof. The text is a row of lexemes that the scanner takes for one token each (`Legible.spaced`).
The tokens are nested to scopes of the same shape as the node (`Legible.nests`), which fold to the
node as its text is grouped (`Legible.foldChildren_scopes`). So a legible node is read as
`Node.regrouped`, whatever is in it, and that is the node itself just if no cast is regrouped
(`Legible.regrouped_eq_iff`).
-/

namespace MacroAsm

open Fold Fold.Reading Lexeme Nest

/-! ## Rows with a label -/

theorem foldTerms_bareLabel {name : String} :
    foldTerms .line [.node (.text name), .mark] = .ok (some (.label (.text name) none)) := by
  have hraw : ∀ t ∈ [Term.node (.text name), .mark], t.Raw := by
    rw [List.forall_mem_cons, List.forall_mem_singleton]
    exact ⟨.value rfl, .mark⟩
  rw [foldTerms_line_iff hraw]
  rfl

theorem Node.Legible.foldTerms_label {read : NumeralReader} {n : Node} {name : String}
    (h : n.Legible read) :
    foldTerms .line (.node (.text name) :: .mark :: n.terms) =
      .ok (some (.label (.text name) (some n.regrouped))) := by
  have hraw : ∀ t ∈ Term.node (.text name) :: .mark :: n.terms, t.Raw := by
    rw [List.forall_mem_cons, List.forall_mem_cons]
    exact ⟨.value rfl, .mark, h.raw_terms⟩
  have hloose : ∀ f ∈ [Frame.label (.text name)].head?,
      Operator.subscript.looseness < f.looseness := by
    rintro _ ⟨⟩
    exact looseness_lt_mark .subscript
  have hsigns : signs ([.node (.text name)] ++ .mark :: n.terms) =
      [.node (.text name)] ++ .mark :: signs n.terms := signs_mark
  have hpieces : rowPieces (signs (.node (.text name) :: .mark :: n.terms)) =
      [.operand (.text name), .mark] ++ rowPieces n.terms := by
    rw [List.singleton_append, h.signs_terms] at hsigns
    rw [hsigns]
    rfl
  have hrun : (wanting []).run true [.operand (.text name), .mark] =
      some (targeting (.text name)) := rfl
  rw [foldTerms_line_iff hraw, hpieces, outcome_append, hrun, Option.bind_some, outcome,
    h.run_terms true rfl hloose]
  rfl

/-! ## Lines -/

namespace Reader

variable {r : Reader} {text name : String} {n : Node} {tokens : List Token} {row : List Term}

theorem line_of_isRowOf {result : Option Node} (hscan : scan text.toList = .ok tokens)
    (hrow : IsRowOf (cutLine text.toList) r.numeral tokens row)
    (hfold : foldTerms .line row = .ok result) : r.line text = .ok result := by
  obtain ⟨root, hroot, hterms⟩ := hrow
  have hnode : root.fold = .ok result := by
    rw [Scope.fold_eq, hterms]
    exact hfold
  simp only [line, notedLine, hscan, hroot, hnode]

theorem isRowOf_of_addTokens {cut : Nat → Nat → String} {read : NumeralReader} {m : Nesting}
    (hadd : addTokens cut read {} true none 0 tokens = .ok m) (hframes : m.frames = [])
    (hterms : foldChildren .line m.items.reverse = .ok row) : IsRowOf cut read tokens row := by
  refine ⟨⟨.plain, 0, none, m.items.reverse⟩, ?_, hterms⟩
  unfold Scope.ofTokens
  rw [hadd]
  show Nesting.closeAll m.items m.frames = _
  rw [hframes]
  rfl

theorem line_print_eq (h : n.Legible r.numeral) :
    r.line (" " ++ n.print) = .ok (some n.regrouped) := by
  have hline : (" " ++ n.print).toList = ' ' :: allChars n.lexemes := by
    rw [String.toList_append, h.allChars_lexemes]
    rfl
  obtain ⟨t, ht, hscan⟩ := Scan.scan_of_spaced (h.spaced none (by rintro _ ⟨⟩)) h.getLast_lexemes
  have hat : StandsAt (' ' :: allChars n.lexemes) 1 (allChars n.lexemes) :=
    ⟨[' '], [], by simp, rfl⟩
  have hadd : addTokens (cutLine (' ' :: allChars n.lexemes)) r.numeral {} true none 0
      (place 1 n.lexemes ++ [t]) = .ok (Nesting.addAll {} (n.scopes 1)) := by
    have hfollows : Follows {} [t] := ⟨by simp [ht], by simp [ht], fun _ _ => rfl⟩
    rw [h.nests _ _ _ _ _ hat hfollows]
    exact addTokens_blank (by simp [ht])
  have hscopes : foldChildren .line (n.scopes 1) = .ok n.terms :=
    h.foldChildren_scopes .line 1 (by simp)
  have hterms : foldChildren .line (Nesting.addAll {} (n.scopes 1)).items.reverse =
      .ok n.terms := by
    simpa [Nesting.addAll] using hscopes
  rw [← hline] at hscan hadd
  exact line_of_isRowOf hscan (isRowOf_of_addTokens hadd rfl hterms) (h.foldTerms_terms (by simp))

def labelled (name : String) : Nesting :=
  ⟨[⟨.label, 1, none, []⟩, ⟨.text, 1, some (.text name), []⟩], 1, []⟩

theorem addTokens_label {m : Token} {rest : List Token} {line : List Char} (hname : IsName name)
    (hm : m.kind = .label) (hat : StandsAt line 1 name.toList) :
    addTokens (cutLine line) r.numeral {} true none 0 (place 1 (ofName name) ++ m :: rest) =
      addTokens (cutLine line) r.numeral (labelled name) true none 0 rest := by
  have h : (Node.text name).Legible r.numeral := .name hname
  have hlexemes : StandsAt line 1 (allChars (Node.text name).lexemes) := by
    rwa [h.allChars_lexemes]
  have hfollows : Follows {} (m :: rest) := ⟨by simp [hm], by simp [hm], by simp [hm]⟩
  have hadd : addToken (cutLine line) r.numeral (Nesting.addAll {} ((Node.text name).scopes 1))
      false none m rest = .ok (labelled name, 0) := by
    simp [addToken, hm, Node.scopes, hname.ne_empty, Nesting.addAll, Nesting.addLeaf, labelled]
  apply (h.nests _ _ _ _ _ hlexemes hfollows).trans
  rw [addTokens_cons hadd (by rw [hm]; rfl), hm]
  rfl

theorem line_of_label {xs : List Lexeme} (m : Nesting) (hname : IsName name)
    (hline : text.toList = ' ' :: (name.toList ++ ':' :: allChars xs))
    (hxs : Spaced (some .label) xs []) (hlast : ∀ x ∈ xs.getLast?, x.kind.isSignificant = true)
    (hcolon : ∀ c ∈ (allChars xs).head?, c ≠ ':')
    (hadd : ∀ t : Token, t.kind = .blank →
      addTokens (cutLine text.toList) r.numeral (labelled name) true none 0
        (place (1 + Text.byteSize name.toList + 1) xs ++ [t]) = .ok m)
    (hframes : m.frames = []) (hterms : foldChildren .line m.items.reverse = .ok row)
    (hfold : foldTerms .line row = .ok (some n)) : r.line text = .ok (some n) := by
  obtain ⟨u, t, hu, ht, hscan⟩ := Scan.scan_label hname hxs hlast hcolon
  have hat : StandsAt text.toList 1 name.toList :=
    ⟨[' '], ':' :: allChars xs, by simp [hline], rfl⟩
  rw [← hline] at hscan
  exact line_of_isRowOf hscan
    (isRowOf_of_addTokens ((addTokens_label hname hu hat).trans (hadd t ht)) hframes hterms) hfold

theorem line_print_bareLabel (hname : IsName name) :
    r.line (" " ++ (Node.label (.text name) none).print) =
      .ok (some (.label (.text name) none)) := by
  have hline : (" " ++ (Node.label (.text name) none).print).toList =
      ' ' :: (name.toList ++ ':' :: allChars []) := by
    simp [Node.print]
  refine line_of_label (labelled name) hname hline trivial (by simp) (by simp) (fun t ht => ?_) rfl
    rfl foldTerms_bareLabel
  exact addTokens_blank (by simp [ht])

theorem line_print_label (hname : IsName name) (h : n.Legible r.numeral) :
    r.line (" " ++ (Node.label (.text name) (some n)).print) =
      .ok (some (.label (.text name) (some n.regrouped))) := by
  have hline : (" " ++ (Node.label (.text name) (some n)).print).toList =
      ' ' :: (name.toList ++ ':' :: allChars (blank :: n.lexemes)) := by
    simp [Node.print, h.allChars_lexemes]
  have hxs : Spaced (some .label) (blank :: n.lexemes) [] :=
    ⟨.blank ⟨.label, rfl, rfl⟩, h.spaced _ (by rintro _ ⟨⟩)⟩
  have hlast : ∀ x ∈ (blank :: n.lexemes).getLast?, x.kind.isSignificant = true := by
    obtain ⟨x, hx, hsignificant⟩ := h.getLast_lexemes
    rw [List.getLast?_cons, hx]
    rintro _ ⟨⟩
    exact hsignificant
  have hcolon : ∀ c ∈ (allChars (blank :: n.lexemes)).head?, c ≠ ':' := by
    rintro _ ⟨⟩
    decide
  have hat : StandsAt (" " ++ (Node.label (.text name) (some n)).print).toList
      (1 + Text.byteSize name.toList + 1 + 1) (allChars n.lexemes) := by
    have hblank : ' '.utf8Size = 1 := rfl
    have hmark : ':'.utf8Size = 1 := rfl
    rw [hline]
    refine ⟨' ' :: (name.toList ++ [':', ' ']), [], by simp, ?_⟩
    simp only [Text.byteSize_cons, Text.byteSize_append, Text.byteSize_nil, hblank, hmark]
    omega
  refine line_of_label ((labelled name).addAll (n.scopes 1)) hname hline hxs hlast hcolon
    (fun t ht => ?_) rfl ?_ h.foldTerms_label
  · have hfollows : Follows (labelled name) [t] := ⟨by simp [ht], by simp [ht], fun _ _ => rfl⟩
    rw [place_cons, List.cons_append, addTokens_space]
    apply (h.nests _ _ _ _ _ hat hfollows).trans
    exact addTokens_blank (by simp [ht])
  · have hscopes : foldChildren .line (n.scopes 1) = .ok n.terms :=
      h.foldChildren_scopes .line 1 (by simp)
    have hmark : foldChildren .line (⟨.label, 1, none, []⟩ :: n.scopes 1) =
        .ok (.mark :: n.terms) := Node.foldChildren_leaf rfl hscopes
    have hrow : foldChildren .line
        (⟨.text, 1, some (.text name), []⟩ :: ⟨.label, 1, none, []⟩ :: n.scopes 1) =
          .ok (.node (.text name) :: .mark :: n.terms) := Node.foldChildren_leaf rfl hmark
    simpa [Nesting.addAll, labelled] using hrow

/-- A legible node is read again from its printed text, alone and as the target of a label, just if
no cast in it has an indexed right operand. A label without a target is always read again. -/
theorem line_print (h : n.Legible r.numeral) :
    (r.line (" " ++ n.print) = .ok (some n) ↔ n.CastsWhole) ∧
      ∀ name, IsName name →
        r.line (" " ++ (Node.label (.text name) none).print) =
            .ok (some (.label (.text name) none)) ∧
          (r.line (" " ++ (Node.label (.text name) (some n)).print) =
            .ok (some (.label (.text name) (some n))) ↔ n.CastsWhole) := by
  constructor
  · rw [line_print_eq h, Except.ok.injEq, Option.some.injEq]
    exact h.regrouped_eq_iff
  · intro name hname
    refine ⟨line_print_bareLabel hname, ?_⟩
    rw [line_print_label hname h]
    simpa using h.regrouped_eq_iff

/-- The element `c` of the cast of `a` to `b` is read again, after `l:` too. -/
theorem line_print_index_cast :
    ∃ n, n = Node.binary .subscript (.binary .cast (.text "a") (.text "b")) (.text "c") ∧
      n.Legible readNumeral ∧ IsName "l" ∧ n.CastsWhole ∧
      ({} : Reader).line " (a :: b)[c]" = .ok (some n) ∧
      ({} : Reader).line " l: (a :: b)[c]" = .ok (some (.label (.text "l") (some n))) := by
  have ha : IsName "a" := isName_of_letter rfl rfl
  have hb : IsName "b" := isName_of_letter rfl rfl
  have hc : IsName "c" := isName_of_letter rfl rfl
  have hl : IsName "l" := isName_of_letter rfl rfl
  have hlegible : (Node.binary .subscript (.binary .cast (.text "a") (.text "b"))
      (.text "c")).Legible readNumeral :=
    .binary rfl (by decide) (.binary rfl (by decide) (.name ha) (.name hb)) (.name hc)
  obtain ⟨halone, htarget⟩ := line_print (r := {}) hlegible
  have hline : ({} : Reader).line " (a :: b)[c]" =
      .ok (some (.binary .subscript (.binary .cast (.text "a") (.text "b")) (.text "c"))) := by
    cbv
  have hwhole := halone.mp hline
  exact ⟨_, rfl, hlegible, hl, hwhole, hline, (htarget "l" hl).2.mpr hwhole⟩

/-- The cast of `a` to the element `c` of `b` is read as the element of the cast. -/
theorem line_print_cast_index :
    ∃ n, n = Node.binary .cast (.text "a") (.binary .subscript (.text "b") (.text "c")) ∧
      n.Legible readNumeral ∧
      ({} : Reader).line (" " ++ n.print) =
        .ok (some (.binary .subscript (.binary .cast (.text "a") (.text "b")) (.text "c"))) ∧
      ({} : Reader).line (" " ++ n.print) ≠ .ok (some n) := by
  have ha : IsName "a" := isName_of_letter rfl rfl
  have hb : IsName "b" := isName_of_letter rfl rfl
  have hc : IsName "c" := isName_of_letter rfl rfl
  have hline : ({} : Reader).line " (a :: b[c])" =
      .ok (some (.binary .subscript (.binary .cast (.text "a") (.text "b")) (.text "c"))) := by
    cbv
  refine ⟨_, rfl, .binary rfl (by decide) (.name ha) (.binary rfl (by decide) (.name hb)
    (.name hc)), hline, fun h => ?_⟩
  cases hline.symm.trans h

end Reader

end MacroAsm

import MacroAsm.Proofs.Line.Strings
import MacroAsm.Proofs.Reader.Policy
import MacroAsm.Proofs.Reader.RoundTrip
import MacroAsm.Proofs.Token.Strings

/-!
# Strings of a source file

Every string can be written in a source file (`Text.literal`): a backslash, a double quote and a
line break get a backslash before them, and all else stands for itself. `Reader.assigns_string`: the
line that assigns it is read to the string again, in a file of bytes too.
-/

namespace MacroAsm

namespace Text

def literalChar (c : Char) : List Char :=
  if c = '\\' then ['\\', '\\']
  else if c = '"' then ['\\', '"']
  else if c = '\n' then ['\\', 'n']
  else [c]

/-- A string as it is written between double quotes. -/
def literal (cs : List Char) : List Char := cs.flatMap literalChar

def literalByte (byte : UInt8) : List UInt8 :=
  if byte = 92 then [92, 92]
  else if byte = 34 then [92, 34]
  else if byte = 10 then [92, 110]
  else [byte]

def literalBytes (bytes : List UInt8) : List UInt8 := bytes.flatMap literalByte

theorem escapes_literalChar (c : Char) : Escapes c (literalChar c) := by
  rw [literalChar]
  split
  next h =>
    subst h
    exact .letter rfl
  next hback =>
    split
    next h =>
      subst h
      exact .letter rfl
    next hquote =>
      split
      next h =>
        subst h
        exact .letter rfl
      next => exact .plain hback hquote

theorem unescaped_literal (cs : List Char) : unescaped (literal cs) = String.ofList cs :=
  unescaped_flatMap fun c _ => escapes_literalChar c

theorem lineBreak_not_mem_literal (cs : List Char) : '\n' ∉ literal cs := by
  rw [literal, List.mem_flatMap]
  rintro ⟨c, -, hc⟩
  rw [literalChar] at hc
  split at hc
  · simp at hc
  · split at hc
    · simp at hc
    · split at hc
      · simp at hc
      next hbreak => exact hbreak (List.mem_singleton.mp hc).symm

theorem map_byteChar_literalByte (byte : UInt8) :
    (literalByte byte).map byteChar = literalChar (byteChar byte) := by
  have hback : byteChar byte = '\\' ↔ byte = 92 := byteChar_inj (b := 92)
  have hquote : byteChar byte = '"' ↔ byte = 34 := byteChar_inj (b := 34)
  have hbreak : byteChar byte = '\n' ↔ byte = 10 := byteChar_inj (b := 10)
  rw [literalChar, literalByte]
  simp only [hback, hquote, hbreak, apply_ite (List.map byteChar)]
  rfl

theorem map_byteChar_literalBytes (bytes : List UInt8) :
    (literalBytes bytes).map byteChar = literal (bytes.map byteChar) := by
  rw [literalBytes, literal, List.map_flatMap, List.flatMap_map]
  exact congrArg bytes.flatMap (funext map_byteChar_literalByte)

theorem closingQuote?_literal (cs : List Char) (offset : Nat) (rest : List Char) :
    Scan.closingQuote? '"' false offset (literal cs ++ '"' :: rest) =
      some (offset + byteSize (literal cs), rest) :=
  closingQuote?_flatMap (fun c _ => escapes_literalChar c) offset rest

theorem stringBody?_literal (cs rest : List Char) :
    stringBody? '"' false (literal cs ++ '"' :: rest) = some (literal cs, rest) := by
  have hclose := closingQuote?_literal cs 0 rest
  rw [Scan.closingQuote?_eq rfl, Option.map_eq_some_iff] at hclose
  obtain ⟨⟨body, rest'⟩, hbody, heq⟩ := hclose
  obtain rfl : rest' = rest := congrArg Prod.snd heq
  have happend : literal cs ++ '"' :: rest' = body ++ '"' :: rest' := eq_of_stringBody? hbody
  rw [List.append_left_inj] at happend
  rw [hbody, ← happend]

end Text

open Text Lexeme Nest Fold

/-! ## Lines -/

/-- A line that assigns a string to `x`, of which `cs` stands between the quotes. -/
def assignment (cs : List Char) : List Char :=
  ' ' :: 'x' :: ' ' :: '=' :: ' ' :: '"' :: (cs ++ ['"'])

theorem scan_assignment {cs : List Char}
    (hclose : ∀ offset, Scan.closingQuote? '"' false offset (cs ++ ['"']) =
      some (offset + byteSize cs, [])) :
    scan (assignment cs) =
      .ok [⟨.name, 1, 2⟩, ⟨.blank, 2, 3⟩, ⟨.operator, 3, 4⟩, ⟨.blank, 4, 5⟩,
        ⟨.string, 6, 6 + byteSize cs⟩, ⟨.blank, 6 + byteSize cs + 1, 6 + byteSize cs + 1⟩] := by
  have hspaced : Spaced none [⟨.name, ['x']⟩, blank, ofOperator .set, blank]
      ('"' :: (cs ++ ['"'])) := by
    refine ⟨.run ⟨'x', [], rfl, rfl, by simp⟩ ?_, .blank ⟨.name, rfl, rfl⟩,
      Node.fits_ofOperator (by decide) (by decide), .blank ⟨.operator, rfl, rfl⟩, trivial⟩
    rintro _ ⟨⟩
    rfl
  have hstart : Scan.scanFrom 1 [] ('x' :: ' ' :: '=' :: ' ' :: '"' :: (cs ++ ['"'])) =
      Scan.scanFrom 5 [⟨.blank, 4, 5⟩, ⟨.operator, 3, 4⟩, ⟨.blank, 2, 3⟩, ⟨.name, 1, 2⟩]
        ('"' :: (cs ++ ['"'])) :=
    (scanFrom_start_of_spaced hspaced).1
  have hstring : Scan.scanFrom 5 [⟨.blank, 4, 5⟩, ⟨.operator, 3, 4⟩, ⟨.blank, 2, 3⟩, ⟨.name, 1, 2⟩]
      ('"' :: (cs ++ ['"'])) =
        Scan.scanFrom (6 + byteSize cs + 1) [⟨.string, 6, 6 + byteSize cs⟩, ⟨.blank, 4, 5⟩,
          ⟨.operator, 3, 4⟩, ⟨.blank, 2, 3⟩, ⟨.name, 1, 2⟩] [] :=
    Scan.scanFrom_string hclose
  have hend : Scan.scanFrom (6 + byteSize cs + 1) [⟨.string, 6, 6 + byteSize cs⟩, ⟨.blank, 4, 5⟩,
      ⟨.operator, 3, 4⟩, ⟨.blank, 2, 3⟩, ⟨.name, 1, 2⟩] [] =
        .ok [⟨.blank, 6 + byteSize cs + 1, 6 + byteSize cs + 1⟩, ⟨.string, 6, 6 + byteSize cs⟩,
          ⟨.blank, 4, 5⟩, ⟨.operator, 3, 4⟩, ⟨.blank, 2, 3⟩, ⟨.name, 1, 2⟩] := by
    rw [Scan.scanFrom, Scan.addBlank_eq ⟨_, rfl, rfl, Nat.succ_pos _⟩]
  rw [assignment, Scan.scan_cons_blank, hstart, hstring, hend]
  rfl

theorem isRowOf_assignment {read : NumeralReader} {cs : List Char} :
    IsRowOf (cutLine (assignment cs)) read
      [⟨.name, 1, 2⟩, ⟨.blank, 2, 3⟩, ⟨.operator, 3, 4⟩, ⟨.blank, 4, 5⟩,
        ⟨.string, 6, 6 + byteSize cs⟩, ⟨.blank, 6 + byteSize cs + 1, 6 + byteSize cs + 1⟩]
      [.node (.text "x"), .node (.bare .set), .node (.string (unescaped cs))] := by
  have hat : StandsAt (assignment cs) 1 (['x'] ++ ([' '] ++ (['='] ++ ([' ', '"'] ++ cs)))) :=
    ⟨[' '], ['"'], by simp [assignment], rfl⟩
  have hname : cutLine (assignment cs) 1 2 = "x" := hat.left.cut
  have hset : cutLine (assignment cs) 3 4 = "=" := hat.right.right.left.cut
  have hstring : cutLine (assignment cs) 6 (6 + byteSize cs) = String.ofList cs :=
    hat.right.right.right.right.cut
  refine Reader.isRowOf_of_addTokens (m := ⟨[⟨.string, 1, some (.string (unescaped cs)), []⟩,
    ⟨.operator, 1, some (.bare .set), []⟩, ⟨.text, 1, some (.text "x"), []⟩], 1, []⟩) ?_ rfl rfl
  simp [addTokens, addToken, addName, sizeSuffix, opensOperand, Token.isSignificant,
    TokenKind.isSignificant, hname, hset, hstring, Operator.ofSymbol?, Nesting.addLeaf]

theorem foldTerms_assignment (s : String) :
    foldTerms .line [.node (.text "x"), .node (.bare .set), .node (.string s)] =
      .ok (some (.binary .set (.text "x") (.string s))) := by
  have hraw : ∀ t ∈ [Term.node (.text "x"), .node (.bare .set), .node (.string s)], t.Raw := by
    rw [List.forall_mem_cons, List.forall_mem_cons, List.forall_mem_singleton]
    exact ⟨.value rfl, .operator (by decide), .value rfl⟩
  rw [foldTerms_line_iff hraw]
  rfl

/-! ## Files -/

/-- A file of one line that assigns a string to `x`, of which `bytes` stand between the quotes. -/
def assignmentFile (bytes : List UInt8) : List UInt8 :=
  32 :: 120 :: 32 :: 61 :: 32 :: 34 :: (bytes ++ [34, 10])

theorem regions_code {c : Char} {cs : List Char} (hbreak : c ≠ '\n') (hcomment : c ≠ ';')
    (hquote : isQuote c = false) : regions (c :: cs) = .code c :: regions cs := by
  rw [regions, if_neg hbreak, if_neg hcomment, if_neg (by simp [hquote])]

theorem regions_string {quote : Char} {cs body rest : List Char} (hquote : isQuote quote = true)
    (hbody : stringBody? quote false cs = some (body, rest)) :
    regions (quote :: cs) = .string quote body :: regions rest := by
  have hbreak : quote ≠ '\n' := by
    rintro rfl
    cases hquote
  have hcomment : quote ≠ ';' := by
    rintro rfl
    cases hquote
  rw [regions, if_neg hbreak, if_neg hcomment, if_pos hquote]
  split
  next body' rest' h =>
    rw [hbody] at h
    cases h
    rfl
  next h =>
    rw [hbody] at h
    cases h

theorem regions_assignment (cs : List Char) :
    regions (assignment (literal cs) ++ ['\n']) =
      [.code ' ', .code 'x', .code ' ', .code '=', .code ' ', .string '"' (literal cs),
        .lineBreak] := by
  have hend : regions ['\n'] = [.lineBreak] := by rw [regions, if_pos rfl, regions]
  have hbody := stringBody?_literal cs ['\n']
  simp only [assignment, List.cons_append, List.append_assoc, List.nil_append]
  rw [regions_code (by decide) (by decide) rfl, regions_code (by decide) (by decide) rfl,
    regions_code (by decide) (by decide) rfl, regions_code (by decide) (by decide) rfl,
    regions_code (by decide) (by decide) rfl, regions_string rfl hbody, hend]

theorem eq_of_items_singleton {split : LineSplit} {l : Line} (h : split.items = [.ok l]) :
    split = ⟨[l], none⟩ := by
  obtain ⟨lines, fault?⟩ := split
  have hnone : fault? = none := by
    rw [Option.eq_none_iff_forall_not_mem]
    intro fault hfault
    have hmem : .error fault ∈ (⟨lines, fault?⟩ : LineSplit).items :=
      error_mem_items_iff.mpr hfault
    rw [h] at hmem
    simp at hmem
  subst hnone
  rw [LineSplit.items, Option.toList_none, List.map_nil, List.append_nil,
    List.map_eq_singleton_iff] at h
  obtain ⟨l', rfl, heq⟩ := h
  cases heq
  rfl

theorem logicalLines_assignmentFile (bytes : List UInt8) :
    logicalLines (assignmentFile (literalBytes bytes)) =
      ⟨[⟨String.ofList (assignment (literal (bytes.map byteChar))), 1⟩], none⟩ := by
  have hchars : (assignmentFile (literalBytes bytes)).map byteChar =
      assignment (literal (bytes.map byteChar)) ++ ['\n'] := by
    rw [← map_byteChar_literalBytes]
    simp only [assignmentFile, assignment, List.map_cons, List.map_append, List.cons_append,
      List.append_assoc]
    rfl
  have hfilter : (literal (bytes.map byteChar)).filter (· ≠ '\n') =
      literal (bytes.map byteChar) := by
    rw [List.filter_eq_self]
    intro c hc
    rw [decide_eq_true_eq]
    rintro rfl
    exact lineBreak_not_mem_literal _ hc
  have hitems : (logicalLines (assignmentFile (literalBytes bytes))).items =
      [.ok ⟨String.ofList (assignment (literal (bytes.map byteChar))), 1⟩] := by
    rw [items_logicalLines, (LineBuilder.read_new _).1, lineItems_eq, hchars, regions_assignment]
    simpa [itemsFrom, itemOf?, textOf, Region.text, startOf, charsBefore, assignment] using
      congrArg String.ofList hfilter
  exact eq_of_items_singleton hitems

namespace Reader

variable {r : Reader}

theorem line_assignment (r : Reader) (s : String) :
    r.line (String.ofList (assignment (literal s.toList))) =
      .ok (some (.binary .set (.text "x") (.string s))) := by
  have htext : (String.ofList (assignment (literal s.toList))).toList =
      assignment (literal s.toList) := String.toList_ofList
  have hscan := scan_assignment (closingQuote?_literal s.toList · [])
  have hrow : IsRowOf (cutLine (assignment (literal s.toList))) r.numeral _ _ :=
    isRowOf_assignment
  rw [unescaped_literal, String.ofList_toList] at hrow
  rw [← htext] at hscan hrow
  exact line_of_isRowOf hscan hrow (foldTerms_assignment s)

theorem file_of_singleton {name : String} {bytes : List UInt8} {l : Line} {node : Node}
    (hlines : logicalLines bytes = ⟨[l], none⟩) (hline : r.line l.text = .ok (some node))
    (hsource : bytes.length ≤ r.limits.sourceBytes)
    (hbytes : l.text.utf8ByteSize ≤ r.limits.lineBytes) :
    r.file name bytes = .ok ⟨name, [⟨name, l.number, node⟩]⟩ := by
  have hvalue : (r.notedLine l.text).value = .ok (some node) := hline
  rw [file_eq_of_source r name (Nat.not_lt.mpr hsource), readAll, hlines]
  simp only [addLines, addLine, if_neg (Nat.not_lt.mpr hbytes), hvalue]
  rfl

/-- Every string can be written as a literal: the line that assigns it is read to the string. So is
a file of that line, of which each byte stands for one character, by any reader the limits of which
are not exceeded. -/
theorem assigns_string (r : Reader) :
    (∀ s : String, r.line (String.ofList (assignment (literal s.toList))) =
        .ok (some (.binary .set (.text "x") (.string s)))) ∧
      ∀ (name : String) (bytes : List UInt8),
        (assignmentFile (literalBytes bytes)).length ≤ r.limits.sourceBytes →
        (String.ofList (assignment (literal (bytes.map byteChar)))).utf8ByteSize ≤
          r.limits.lineBytes →
        r.file name (assignmentFile (literalBytes bytes)) =
          .ok ⟨name, [⟨name, 1,
            .binary .set (.text "x") (.string (String.ofList (bytes.map byteChar)))⟩]⟩ := by
  refine ⟨line_assignment r, fun name bytes hsource hbytes => ?_⟩
  have hline := line_assignment r (String.ofList (bytes.map byteChar))
  rw [String.toList_ofList] at hline
  exact file_of_singleton (logicalLines_assignmentFile bytes) hline hsource hbytes

/-- The four bytes are a semicolon, a double quote, a backslash and a line break. -/
theorem assigns_string_mixed :
    (assignmentFile (literalBytes [59, 34, 92, 10])).length ≤ 64 * 1024 * 1024 ∧
      (String.ofList (assignment (literal [';', '"', '\\', '\n']))).utf8ByteSize ≤ 1024 * 1024 ∧
      file {} "f" (assignmentFile (literalBytes [59, 34, 92, 10])) =
        .ok ⟨"f", [⟨"f", 1, .binary .set (.text "x") (.string ";\"\\\n")⟩]⟩ := by
  have hsource : (assignmentFile (literalBytes [59, 34, 92, 10])).length ≤ 64 * 1024 * 1024 := by
    decide
  have hbytes : (String.ofList (assignment (literal [';', '"', '\\', '\n']))).utf8ByteSize ≤
      1024 * 1024 := by
    decide
  exact ⟨hsource, hbytes, (assigns_string {}).2 "f" [59, 34, 92, 10] hsource hbytes⟩

end Reader

end MacroAsm

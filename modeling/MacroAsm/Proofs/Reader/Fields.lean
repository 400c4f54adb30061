import MacroAsm.Proofs.Reader.RoundTrip
import MacroAsm.Proofs.Scope.BareCall

/-!
# Chains of field accesses

`Reader.line_fields`: what `x = a.b.c` and the like are read as. A name takes in the dot after it
and the name after that, so that the names of a chain are read in pairs, and only the dots between
two pairs are operators of the line. These take their operands from left to right. So a chain is
nested to the left just if it has at most three names; `a.b.c.d` is the field `c.d` of `a.b`.
-/

namespace MacroAsm

open Fold Fold.Reading Lexeme Nest

/-! ## Chains -/

namespace Node

def accesses (n : Node) (parts : List Node) : Node := parts.foldl (.binary .field) n

/-- Names in pairs, each of them a field access. A last name without another one stays a name. -/
def fieldPairs : List String → List Node
  | a :: b :: names => .binary .field (.text a) (.text b) :: fieldPairs names
  | [a] => [.text a]
  | [] => []

/-- The first name of a chain with the one after it, if there is one. -/
def firstPair (first : String) : List String → Node
  | [] => .text first
  | second :: _ => .binary .field (.text first) (.text second)

/-- The chain of the name `first` and those after it, as it is read. -/
def fields (first : String) (names : List String) : Node :=
  (firstPair first names).accesses (fieldPairs names.tail)

/-- How many operators stand one in the left operand of the other. -/
def leftDepth : Node → Nat
  | op _ (some l) _ => l.leftDepth + 1
  | _ => 0
termination_by structural n => n

theorem leftDepth_accesses (n : Node) (parts : List Node) :
    (n.accesses parts).leftDepth = n.leftDepth + parts.length := by
  induction parts generalizing n with
  | nil => rfl
  | cons part parts ih =>
    have hfirst : (binary .field n part).leftDepth = n.leftDepth + 1 := rfl
    show ((binary .field n part).accesses parts).leftDepth = _
    rw [ih, hfirst, List.length_cons]
    omega

theorem length_fieldPairs (names : List String) :
    (fieldPairs names).length = (names.length + 1) / 2 := by
  fun_induction fieldPairs names with
  | case1 a b names ih =>
    rw [List.length_cons, ih, List.length_cons, List.length_cons]
    omega
  | case2 | case3 => simp

theorem fields_eq_iff (first : String) (names : List String) :
    fields first names = (text first).accesses (names.map .text) ↔ names.length ≤ 2 := by
  constructor
  · intro heq
    cases names with
    | nil => exact Nat.zero_le 2
    | cons second names =>
      have hpair : (binary .field (.text first) (.text second)).leftDepth = 1 := rfl
      have hname : (text first).leftDepth = 0 := rfl
      have hdepth := congrArg leftDepth heq
      rw [fields, firstPair, leftDepth_accesses, leftDepth_accesses, length_fieldPairs, hpair,
        hname, List.length_map, List.length_cons, List.tail_cons] at hdepth
      rw [List.length_cons]
      omega
  · intro hle
    rcases names with _ | ⟨second, _ | ⟨third, _ | ⟨fourth, names⟩⟩⟩
    · rfl
    · rfl
    · rfl
    · simp only [List.length_cons] at hle
      omega

end Node

/-! ## Scanning -/

def Lexeme.assigned : List Lexeme := [⟨.name, ['x']⟩, blank, ofOperator .set, blank]

/-- The dots and names of a chain after its first name. -/
def Lexeme.dotted (names : List String) : List Lexeme :=
  names.flatMap fun s => [dot, ⟨.name, s.toList⟩]

@[simp] theorem Lexeme.dotted_cons (s : String) (names : List String) :
    dotted (s :: names) = dot :: ⟨.name, s.toList⟩ :: dotted names := rfl

theorem Lexeme.allChars_chain (first : String) (names : List String) :
    allChars (⟨.name, first.toList⟩ :: dotted names) =
      (".".intercalate (first :: names)).toList := by
  induction names generalizing first with
  | nil => simp [dotted]
  | cons second names ih =>
    have hrest := ih second
    simp only [String.toList_intercalate, List.map_cons] at hrest
    simp only [String.toList_intercalate, List.map_cons, List.intercalate_cons_cons, ← hrest]
    simp

theorem Lexeme.getLast_chain (first : String) (names : List String) :
    ∃ s : String, (⟨.name, first.toList⟩ :: dotted names).getLast? =
      some (⟨.name, s.toList⟩ : Lexeme) := by
  induction names generalizing first with
  | nil => exact ⟨first, rfl⟩
  | cons second names ih =>
    rw [dotted_cons, List.getLast?_cons_cons, List.getLast?_cons_cons]
    exact ih second

theorem Lexeme.spaced_chain {before : Option TokenKind} {first : String} {names : List String}
    {rest : List Char} (hnames : ∀ s ∈ first :: names, IsRun .name s.toList)
    (hrest : EndsRun rest) : Spaced before (⟨.name, first.toList⟩ :: dotted names) rest := by
  induction names generalizing before first with
  | nil => exact ⟨.run (hnames first (by simp)) hrest, trivial⟩
  | cons second names ih =>
    rw [List.forall_mem_cons] at hnames
    exact ⟨.run hnames.1 (endsRun_cons rfl), .mark rfl, ih hnames.2⟩

/-! ## Nesting -/

namespace Nest

variable {cut : Nat → Nat → String} {read : NumeralReader} {n : Nesting} {offset : Nat}
  {atHead : Bool} {before : Option Token} {t d u : Token} {rest : List Token} {line : List Char}

/-- What the dots and names of a chain after its first pair are nested to. -/
def fieldScopes (depth : Nat) : List String → List Scope
  | a :: b :: names =>
    ⟨.operator, depth, some (.bare .field), []⟩ ::
      ⟨.operator, depth, some (.binary .field (.text a) (.text b)), []⟩ :: fieldScopes depth names
  | [a] => [⟨.operator, depth, some (.bare .field), []⟩, ⟨.text, depth, some (.text a), []⟩]
  | [] => []

def EndsName (n : Nesting) : List Token → Prop
  | [] => True
  | t :: rest => t.kind ≠ .openParen ∧ (t.kind = .blank → n.frames = [] → rest = [])

theorem Follows.endsName (h : Follows n rest) : EndsName n rest := by
  cases rest with
  | nil => trivial
  | cons => exact h.2

theorem addTokens_pair (ht : t.kind = .name) (hd : d.kind = .dot) (hu : u.kind = .name)
    (hrest : EndsName n rest) :
    addTokens cut read n atHead before 0 (t :: d :: u :: rest) =
      addTokens cut read (n.addLeaf .operator (some (.binary .field (.text (cut t.start t.stop))
        (.text (cut u.start u.stop))))) false (some u) 0 rest := by
  have hname : addName cut n atHead t.start t (d :: u :: rest) =
      (n.addLeaf .operator (some (.binary .field (.text (cut t.start t.stop))
        (.text (cut u.start u.stop)))), 2) := by
    have hsuffix : sizeSuffix cut (d :: u :: rest) = (some (cut u.start u.stop), 2) := by
      simp [sizeSuffix, hd, hu]
    rcases rest with _ | ⟨v, rest⟩
    · simp only [addName, hsuffix]
      rfl
    · obtain ⟨hparen, hblank⟩ := hrest
      have hbare : (atHead && n.frames.isEmpty && v.kind = .blank && opensOperand cut rest) =
          false := by
        by_contra h
        simp only [Bool.not_eq_false, Bool.and_eq_true, List.isEmpty_iff,
          decide_eq_true_eq] at h
        obtain ⟨⟨⟨-, hframes⟩, hkind⟩, hopens⟩ := h
        rw [hblank hkind hframes] at hopens
        cases hopens
      simp [addName, hsuffix, hparen, hbare]
  rw [addTokens]
  simp only [addToken, ht, hname]
  rfl

theorem addTokens_name (ht : t.kind = .name) (hrest : Follows n rest) :
    addTokens cut read n atHead before 0 (t :: rest) =
      addTokens cut read (n.addLeaf .text (some (.text (cut t.start t.stop)))) false none 0
        rest := by
  have hsuffix : sizeSuffix cut ([] ++ rest) = (none, 0) := by
    rcases rest with _ | ⟨v, rest⟩
    · rfl
    · exact if_neg hrest.1
  have hname : addName cut n atHead t.start t rest =
      (n.addLeaf .text (some (.text (cut t.start t.stop))), 0) :=
    addName_of_follows rfl hsuffix hrest
  rw [addTokens]
  simp only [addToken, ht, hname]
  exact addTokens_of_head hrest.head

theorem addTokens_dot (hd : d.kind = .dot) (ht : t.kind = .name) (hglued : t.stop = d.start) :
    addTokens cut read n atHead (some t) 0 (d :: rest) =
      addTokens cut read (n.addLeaf .operator (some (.bare .field))) false none 0 rest := by
  have hadd : addToken cut read n atHead (some t) d rest =
      .ok (n.addLeaf .operator (some (.bare .field)), 0) := by
    simp [addToken, hd, isGlued, ht, hglued, TokenKind.endsValue]
  rw [addTokens, hadd, hd]
  apply addTokens_of_before
  rintro _ ⟨⟩
  rw [hd]
  rfl

theorem endsName_dotted {names : List String} (hrest : EndsName n rest) :
    EndsName n (place offset (dotted names) ++ rest) := by
  cases names with
  | nil => exact hrest
  | cons => exact ⟨by simp, by simp⟩

theorem cut_name {s : String} (hat : StandsAt line offset s.toList) :
    cutLine line offset (offset + Text.byteSize s.toList) = s := by
  rw [hat.cut, String.ofList_toList]

theorem addTokens_dotted {names : List String} (ht : t.kind = .name) (hstop : t.stop = offset)
    (hat : StandsAt line offset (allChars (dotted names))) (hrest : Follows n rest) :
    addTokens (cutLine line) read n false (some t) 0 (place offset (dotted names) ++ rest) =
      addTokens (cutLine line) read (n.addAll (fieldScopes n.depth names)) false none 0 rest := by
  induction names using Node.fieldPairs.induct generalizing n offset t with
  | case1 a b names ih =>
    simp only [dotted_cons, allChars_cons, place_cons, List.cons_append] at hat ⊢
    simp only [chars_of_ne, token_of_ne, ne_eq, reduceCtorEq, not_false_eq_true] at hat ⊢
    have hends : ∀ {m : Nesting} {offset}, m.frames = n.frames →
        EndsName m (place offset (dotted names) ++ rest) := by
      rintro m offset hframes
      apply endsName_dotted
      unfold EndsName
      rw [hframes]
      exact hrest.endsName
    rw [addTokens_dot rfl ht hstop]
    refine Eq.trans (addTokens_pair rfl rfl rfl (hends rfl)) ?_
    refine Eq.trans (ih rfl rfl hat.right.right.right.right hrest) ?_
    rw [cut_name hat.right.left, cut_name hat.right.right.right.left]
    simp [Nesting.addLeaf, Nesting.addAll, fieldScopes]
  | case2 a =>
    simp only [dotted_cons, allChars_cons, place_cons, List.cons_append] at hat ⊢
    simp only [chars_of_ne, token_of_ne, ne_eq, reduceCtorEq, not_false_eq_true] at hat ⊢
    rw [addTokens_dot rfl ht hstop]
    refine Eq.trans (addTokens_name rfl hrest) ?_
    rw [cut_name hat.right.left]
    rfl
  | case3 => exact addTokens_of_head hrest.head

def chainScopes (depth : Nat) (first : String) : List String → List Scope
  | [] => [⟨.text, depth, some (.text first), []⟩]
  | second :: names =>
    ⟨.operator, depth, some (.binary .field (.text first) (.text second)), []⟩ ::
      fieldScopes depth names

theorem addTokens_chain {first : String} {names : List String}
    (hat : StandsAt line offset (allChars (⟨.name, first.toList⟩ :: dotted names)))
    (hrest : Follows n rest) :
    addTokens (cutLine line) read n atHead none 0
        (place offset (⟨.name, first.toList⟩ :: dotted names) ++ rest) =
      addTokens (cutLine line) read (n.addAll (chainScopes n.depth first names)) false none 0
        rest := by
  cases names with
  | nil =>
    simp only [allChars_cons, place_cons, List.cons_append] at hat ⊢
    simp only [chars_of_ne, token_of_ne, ne_eq, reduceCtorEq, not_false_eq_true] at hat ⊢
    refine Eq.trans (addTokens_name rfl hrest) ?_
    rw [cut_name hat.left]
    rfl
  | cons second names =>
    simp only [dotted_cons, allChars_cons, place_cons, List.cons_append] at hat ⊢
    simp only [chars_of_ne, token_of_ne, ne_eq, reduceCtorEq, not_false_eq_true] at hat ⊢
    refine Eq.trans (addTokens_pair rfl rfl rfl (endsName_dotted hrest.endsName)) ?_
    refine Eq.trans (addTokens_dotted rfl rfl hat.right.right.right hrest) ?_
    rw [cut_name hat.left, cut_name hat.right.right.left]
    simp [Nesting.addLeaf, Nesting.addAll, chainScopes]

theorem opensOperand_set (hat : StandsAt line offset Operator.set.symbol.toList) :
    opensOperand (cutLine line) ((ofOperator .set).token offset :: rest) = false := by
  have hcut : cutLine line offset (offset + Text.byteSize Operator.set.symbol.toList) = "=" := by
    rw [hat.cut]
    rfl
  have htoken : (ofOperator .set).token offset =
      ⟨.operator, offset, offset + Text.byteSize Operator.set.symbol.toList⟩ := rfl
  rw [htoken]
  simp [opensOperand, Token.isSignificant, TokenKind.isSignificant, hcut]

theorem addTokens_assigned (hat : StandsAt line offset (allChars assigned)) :
    addTokens (cutLine line) read {} true none 0 (place offset assigned ++ rest) =
      addTokens (cutLine line) read (({} : Nesting).addAll [⟨.text, 1, some (.text "x"), []⟩,
        ⟨.operator, 1, some (.bare .set), []⟩]) false none 0 rest := by
  have hx : IsName "x" := isName_of_letter rfl rfl
  have hcallee : ofName "x" ++ ofSize none = [⟨.name, ['x']⟩] := rfl
  have hname : StandsAt line offset (allChars (ofName "x" ++ ofSize none)) := hat.left
  have hset : StandsAt line (offset + 1 + 1) Operator.set.symbol.toList := hat.right.right.left
  have hplace : place offset assigned ++ rest = place offset (ofName "x" ++ ofSize none) ++
      blank.token (offset + 1) :: (ofOperator .set).token (offset + 1 + 1) ::
        blank.token (offset + 1 + 1 + 1) :: rest := rfl
  rw [hplace, addTokens_callee_blank hx (by simp) hname rfl, opensOperand_set hset,
    if_neg (by simp), addTokens_ofOperator (by decide) (by decide) hset, addTokens_space]
  rfl

end Nest

/-! ## Folding -/

namespace Fold

variable {depth : Nat} {first : String} {names : List String} {parts : List Node} {n : Node}
  {stack : List Frame}

/-- The terms of field accesses after the first operand. -/
def fieldTerms (parts : List Node) : List Term :=
  parts.flatMap fun part => [.node (.bare .field), .node part]

theorem foldChildren_fieldScopes :
    foldChildren .line (fieldScopes depth names) = .ok (fieldTerms (Node.fieldPairs names)) := by
  induction names using Node.fieldPairs.induct with
  | case1 a b names ih => exact Node.foldChildren_leaf rfl (Node.foldChildren_leaf rfl ih)
  | case2 a => exact Node.foldChildren_leaf rfl (Node.foldChildren_leaf rfl rfl)
  | case3 => rfl

theorem foldChildren_chainScopes :
    foldChildren .line (chainScopes depth first names) =
      .ok (.node (Node.firstPair first names) :: fieldTerms (Node.fieldPairs names.tail)) := by
  cases names with
  | nil => exact Node.foldChildren_leaf rfl rfl
  | cons => exact Node.foldChildren_leaf rfl foldChildren_fieldScopes

theorem isComplete_of_mem_fieldPairs : ∀ part ∈ Node.fieldPairs names, part.isComplete = true := by
  fun_induction Node.fieldPairs names with
  | case1 a b names ih => exact List.forall_mem_cons.mpr ⟨rfl, ih⟩
  | case2 a => simp [Node.isComplete]
  | case3 => simp

theorem outcome_accesses (stack : List Frame)
    (hparts : ∀ part ∈ parts, part.isComplete = true)
    (hstack : ∀ f ∈ stack.head?, Operator.field.looseness < f.looseness) :
    (holding stack n).outcome true (rowPieces (fieldTerms parts)) =
      some (closeFrames stack (n.accesses parts)) := by
  induction parts generalizing n with
  | nil => rfl
  | cons part parts ih =>
    rw [List.forall_mem_cons] at hparts
    have hpieces : rowPieces (fieldTerms (part :: parts)) =
        .binary .field :: .operand part :: rowPieces (fieldTerms parts) := by
      show Term.pieces _ ++ (Term.pieces _ ++ _) = _
      rw [pieces_whole hparts.1]
      rfl
    have hnext : ∀ p ∈ (rowPieces (fieldTerms parts)).head?,
        ∀ k ∈ p.leftLooseness?, (Frame.binary .field n).looseness ≤ k := by
      cases parts with
      | nil => simp [fieldTerms]
      | cons =>
        rintro _ ⟨⟩ _ ⟨⟩
        exact Nat.le_refl _
    rw [hpieces, outcome_cons, step, unwind_of_lt hstack]
    simp only [Option.bind_some]
    rw [outcome_cons, step, Option.bind_some, outcome_holding_close hnext]
    exact ih hparts.2

theorem isComplete_firstPair : (Node.firstPair first names).isComplete = true := by
  cases names <;> rfl

def chainRow (first : String) (names : List String) : List Term :=
  .node (.text "x") :: .node (.bare .set) :: .node (Node.firstPair first names) ::
    fieldTerms (Node.fieldPairs names.tail)

theorem forall_mem_chainRow {P : Term → Prop} (hset : P (.node (.bare .set)))
    (hfield : P (.node (.bare .field))) (hwhole : ∀ n : Node, n.isComplete = true → P (.node n)) :
    ∀ t ∈ chainRow first names, P t := by
  have hterms : ∀ t ∈ fieldTerms (Node.fieldPairs names.tail), P t := by
    intro t ht
    obtain ⟨part, hpart, ht⟩ := List.mem_flatMap.mp ht
    rcases List.mem_cons.mp ht with rfl | ht
    · exact hfield
    · rw [List.mem_singleton.mp ht]
      exact hwhole part (isComplete_of_mem_fieldPairs part hpart)
  rw [chainRow, List.forall_mem_cons, List.forall_mem_cons, List.forall_mem_cons]
  exact ⟨hwhole _ rfl, hset, hwhole _ isComplete_firstPair, hterms⟩

theorem foldTerms_chain : foldTerms .line (chainRow first names) =
    .ok (some (.binary .set (.text "x") (Node.fields first names))) := by
  have hraw : ∀ t ∈ chainRow first names, t.Raw :=
    forall_mem_chainRow (.operator (by decide)) (.operator (by decide)) fun _ => .value
  have hsigns : signs (chainRow first names) = chainRow first names := by
    have hrow : ∀ t ∈ chainRow first names, t ≠ .node (.bare .sub) ∧ t ≠ .node (.bare .add) := by
      refine forall_mem_chainRow (by simp [Node.bare]) (by simp [Node.bare]) fun n hn => ?_
      constructor <;> rintro ⟨⟩ <;> cases hn
    have hread : readSignsOnto [] (chainRow first names ++ []) =
        readSignsOnto ((chainRow first names).reverse ++ []) [] :=
      Node.readSignsOnto_of_not_sign hrow
    rw [signs]
    simpa [readSignsOnto] using hread
  have hpieces : rowPieces (chainRow first names) = .operand (.text "x") :: .binary .set ::
      .operand (Node.firstPair first names) ::
        rowPieces (fieldTerms (Node.fieldPairs names.tail)) := by
    rw [chainRow, rowPieces_cons, rowPieces_cons, rowPieces_cons, pieces_whole rfl,
      pieces_whole isComplete_firstPair]
    rfl
  rw [foldTerms_line_iff hraw, hsigns, hpieces]
  refine Eq.trans (outcome_accesses [.binary .set (.text "x")] isComplete_of_mem_fieldPairs ?_)
    rfl
  rintro _ ⟨⟩
  decide

end Fold

/-! ## Lines -/

namespace Reader

variable {r : Reader}

theorem isRowOf_chain {read : NumeralReader} {first : String} {names : List String} {t : Token}
    {line : List Char} (ht : t.kind = .blank)
    (hline : line = ' ' :: allChars (assigned ++ ⟨.name, first.toList⟩ :: dotted names)) :
    IsRowOf (cutLine line) read
      (place 1 (assigned ++ ⟨.name, first.toList⟩ :: dotted names) ++ [t])
      (chainRow first names) := by
  have hat : StandsAt line 1
      (allChars assigned ++ allChars (⟨.name, first.toList⟩ :: dotted names)) := by
    rw [hline, allChars_append]
    exact ⟨[' '], [], by simp, rfl⟩
  have hfollows : ∀ m, Follows m [t] := fun m => ⟨by simp [ht], by simp [ht], fun _ _ => rfl⟩
  have hadd : addTokens (cutLine line) read {} true none 0
      (place 1 (assigned ++ ⟨.name, first.toList⟩ :: dotted names) ++ [t]) =
        .ok ((({} : Nesting).addAll [⟨.text, 1, some (.text "x"), []⟩,
          ⟨.operator, 1, some (.bare .set), []⟩]).addAll (chainScopes 1 first names)) := by
    rw [place_append, List.append_assoc, addTokens_assigned hat.left,
      addTokens_chain hat.right (hfollows _)]
    exact addTokens_blank (by simp [ht])
  refine isRowOf_of_addTokens hadd rfl ?_
  simp only [Nesting.addAll, List.append_nil, List.reverse_append, List.reverse_reverse,
    List.reverse_cons, List.reverse_nil, List.nil_append, List.cons_append]
  exact Node.foldChildren_leaf rfl (Node.foldChildren_leaf rfl foldChildren_chainScopes)

/-- A chain of names with dots between them is read in pairs of names, which are nested to the left.
The names themselves are nested to the left just if there are at most three. -/
theorem line_fields {first : String} {names : List String}
    (hnames : ∀ s ∈ first :: names, IsRun .name s.toList) :
    r.line (" x = " ++ ".".intercalate (first :: names)) =
        .ok (some (.binary .set (.text "x") (Node.fields first names))) ∧
      (r.line (" x = " ++ ".".intercalate (first :: names)) =
          .ok (some (.binary .set (.text "x") ((Node.text first).accesses (names.map .text)))) ↔
        (first :: names).length ≤ 3) := by
  have hline : (" x = " ++ ".".intercalate (first :: names)).toList =
      ' ' :: allChars (assigned ++ ⟨.name, first.toList⟩ :: dotted names) := by
    rw [String.toList_append, allChars_append, allChars_chain]
    rfl
  have hspaced : Spaced none (assigned ++ ⟨.name, first.toList⟩ :: dotted names) [] := by
    have hx : IsRun .name ['x'] := ⟨'x', [], rfl, rfl, by simp⟩
    exact ⟨.run hx (endsRun_cons rfl), .blank ⟨_, rfl, rfl⟩,
      Node.fits_ofOperator (by decide) (by decide), .blank ⟨_, rfl, rfl⟩,
      spaced_chain hnames (by rintro _ ⟨⟩)⟩
  obtain ⟨s, hs⟩ := getLast_chain first names
  have hlast : ∃ x, (assigned ++ ⟨.name, first.toList⟩ :: dotted names).getLast? = some x ∧
      x.kind.isSignificant = true :=
    ⟨_, by rw [List.getLast?_append, hs, Option.some_or], rfl⟩
  obtain ⟨t, ht, hscan⟩ := Scan.scan_of_spaced hspaced hlast
  rw [← hline] at hscan
  have hread : r.line (" x = " ++ ".".intercalate (first :: names)) =
      .ok (some (.binary .set (.text "x") (Node.fields first names))) :=
    line_of_isRowOf hscan (isRowOf_chain ht hline) foldTerms_chain
  refine ⟨hread, ?_⟩
  have hlength : (first :: names).length ≤ 3 ↔ names.length ≤ 2 := Nat.succ_le_succ_iff
  rw [hread, hlength, ← Node.fields_eq_iff first]
  simp [Node.binary]

/-- A chain of four names is read in two pairs. -/
theorem line_fields_four :
    (∀ s ∈ ["a", "b1", "_c", "d"], IsRun .name s.toList) ∧
      ({} : Reader).line (" x = " ++ ".".intercalate ["a", "b1", "_c", "d"]) =
        .ok (some (.binary .set (.text "x") (.binary .field
          (.binary .field (.text "a") (.text "b1"))
          (.binary .field (.text "_c") (.text "d"))))) := by
  have hnames : ∀ s ∈ ["a", "b1", "_c", "d"], IsRun .name s.toList := by
    intro s hs
    simp only [List.mem_cons, List.not_mem_nil, or_false] at hs
    rcases hs with rfl | rfl | rfl | rfl
    · exact ⟨'a', [], rfl, rfl, by simp⟩
    · exact ⟨'b', ['1'], rfl, rfl, List.all_eq_true.mp rfl⟩
    · exact ⟨'_', ['c'], rfl, rfl, List.all_eq_true.mp rfl⟩
    · exact ⟨'d', [], rfl, rfl, by simp⟩
  exact ⟨hnames, (line_fields hnames).1⟩

/-- The names of `a.b.c.d` are not nested to the left. -/
theorem line_fields_not_left :
    ({} : Reader).line " x = a.b.c.d" ≠ .ok (some (.binary .set (.text "x")
      (.binary .field (.binary .field (.binary .field (.text "a") (.text "b")) (.text "c"))
        (.text "d")))) := by
  have hline : ({} : Reader).line " x = a.b.c.d" = .ok (some (.binary .set (.text "x")
      (.binary .field (.binary .field (.text "a") (.text "b"))
        (.binary .field (.text "c") (.text "d"))))) := by cbv
  intro h
  cases hline.symm.trans h

end Reader

end MacroAsm

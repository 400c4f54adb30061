import MacroAsm.Proofs.Print.Spacing
import MacroAsm.Proofs.Scope.Split

/-!
# Nesting the lexemes of a printed node

`Node.scopes` is what the tokens of a legible node are nested to, and `Legible.nests` says so, for
any scope around the node and any tokens after it that do not belong to its last name. The token
before only matters to a dot, so it is forgotten wherever no dot follows (`addTokens_of_head`).
-/

namespace MacroAsm

/-! ## Texts in a line -/

/-- The characters `cs` stand at a byte offset of a line. -/
def StandsAt (line : List Char) (offset : Nat) (cs : List Char) : Prop :=
  ∃ front back, line = front ++ cs ++ back ∧ offset = Text.byteSize front

section

variable {line cs ds : List Char} {offset : Nat}

theorem StandsAt.left (h : StandsAt line offset (cs ++ ds)) : StandsAt line offset cs := by
  obtain ⟨front, back, rfl, rfl⟩ := h
  exact ⟨front, ds ++ back, by simp, rfl⟩

theorem StandsAt.right (h : StandsAt line offset (cs ++ ds)) :
    StandsAt line (offset + Text.byteSize cs) ds := by
  obtain ⟨front, back, rfl, rfl⟩ := h
  exact ⟨front ++ cs, back, by simp, by simp⟩

theorem StandsAt.cut (h : StandsAt line offset cs) :
    cutLine line offset (offset + Text.byteSize cs) = String.ofList cs := by
  obtain ⟨front, back, rfl, rfl⟩ := h
  rw [cutLine, Text.slice_append]

end

/-! ## Scopes of a node -/

/-- The operator that the symbol of an operator names in a line. -/
def Operator.written : Operator → Operator
  | neg => sub
  | o => o

theorem Operator.ofSymbol?_written {o : Operator} (ho : o ∉ [subscript, cast, field]) :
    ofSymbol? o.symbol = some o.written := by
  cases o <;> first | rfl | exact absurd (by decide) ho

namespace Node

mutual

/-- What the tokens of a legible node are nested to at a depth. -/
def scopes : Node → Nat → List Scope
  | text name, depth => if name = "" then [] else [⟨.text, depth, some (.text name), []⟩]
  | string value, depth => [⟨.string, depth, some (.string value), []⟩]
  | number n, depth => [⟨.number, depth, some (.number n), []⟩]
  | call name size args, depth =>
    [⟨.call, depth, some (.call name size []), argumentScopes args (depth + 1)⟩]
  | op .subscript (some l) (some r), depth =>
    l.scopes depth ++ [⟨.operator, depth, some (.bare .subscript), r.scopes (depth + 1)⟩]
  | op .field l r, depth => [⟨.operator, depth, some (.op .field l r), []⟩]
  | op o none (some n), depth =>
    [⟨.plain, depth, none,
      ⟨.operator, depth + 1, some (.bare o.written), []⟩ :: n.scopes (depth + 1)⟩]
  | op o (some l) (some r), depth =>
    [⟨.plain, depth, none, l.scopes (depth + 1) ++
      ⟨.operator, depth + 1, some (.bare o), []⟩ :: r.scopes (depth + 1)⟩]
  | _, _ => []
termination_by structural n => n

def argumentScopes : List Node → Nat → List Scope
  | [], _ => []
  | arg :: args, depth => ⟨.plain, depth, none, arg.scopes (depth + 1)⟩ :: argumentScopes args depth
termination_by structural nodes => nodes

end

variable {n l r : Node} {o : Operator} {depth : Nat}

theorem scopes_unary (ho : o.isUnary = true) : (unary o n).scopes depth =
    [⟨.plain, depth, none,
      ⟨.operator, depth + 1, some (.bare o.written), []⟩ :: n.scopes (depth + 1)⟩] := by
  cases o <;> first | rfl | cases ho

theorem scopes_binary (hindex : o ≠ .subscript) (hfield : o ≠ .field) :
    (binary o l r).scopes depth =
      [⟨.plain, depth, none, l.scopes (depth + 1) ++
        ⟨.operator, depth + 1, some (.bare o), []⟩ :: r.scopes (depth + 1)⟩] := by
  cases o <;> first | rfl | contradiction

end Node

namespace Nest

open Lexeme

variable {cut : Nat → Nat → String} {read : NumeralReader} {n n' : Nesting} {offset : Nat}
  {atHead : Bool} {before : Option Token} {t : Token} {rest : List Token} {f : Frame}
  {outer : List Frame}

/-! ## Single tokens -/

/-- The token before says nothing to a token other than a dot. -/
theorem addTokens_of_head (h : ∀ t ∈ rest.head?, t.kind ≠ .dot) :
    addTokens cut read n atHead before 0 rest = addTokens cut read n atHead none 0 rest := by
  cases rest with
  | nil => rfl
  | cons t rest =>
    have hdot : t.kind ≠ .dot := h t rfl
    have hadd : addToken cut read n atHead before t rest =
        addToken cut read n atHead none t rest := by
      unfold addToken
      split <;> first | rfl | contradiction
    rw [addTokens, addTokens, hadd]

theorem addTokens_cons (hadd : addToken cut read n atHead none t rest = .ok (n', 0))
    (ht : t.kind.endsValue = false) :
    addTokens cut read n atHead none 0 (t :: rest) =
      addTokens cut read n' (headAfter atHead t.kind) none 0 rest := by
  rw [addTokens, hadd]
  apply addTokens_of_before
  rintro _ ⟨⟩
  exact ht

theorem addTokens_cons_of_head (hadd : addToken cut read n atHead none t rest = .ok (n', 0))
    (hrest : ∀ u ∈ rest.head?, u.kind ≠ .dot) :
    addTokens cut read n atHead none 0 (t :: rest) =
      addTokens cut read n' (headAfter atHead t.kind) none 0 rest := by
  rw [addTokens, hadd]
  exact addTokens_of_head hrest

/-! ## Values -/

/-- The tokens that may follow a value: no dot, no call, and no blanks that make it a bare call. -/
def Follows (n : Nesting) : List Token → Prop
  | [] => True
  | t :: rest => t.kind ≠ .dot ∧ t.kind ≠ .openParen ∧ (t.kind = .blank → n.frames = [] → rest = [])

theorem Follows.head (h : Follows n rest) : ∀ t ∈ rest.head?, t.kind ≠ .dot := by
  cases rest with
  | nil => simp
  | cons t rest =>
    rintro _ ⟨⟩
    exact h.1

/-- The tokens of a name, with or without a dot, are taken together: the first one adds the name. -/
theorem addTokens_ofName {s : String} (hs : IsName s)
    (hcut : cut offset (offset + Text.byteSize s.toList) = s) :
    ∃ t, cut offset t.stop = s ∧ ∀ read n atHead rest,
      (∃ first more taken, place offset (ofName s) ++ rest = first :: more ∧
        addToken cut read n atHead none first more =
          .ok ((addName cut n atHead offset t rest).1, taken)) ∧
      addTokens cut read n atHead none 0 (place offset (ofName s) ++ rest) =
        addTokens cut read (addName cut n atHead offset t rest).1 false (some t)
          (addName cut n atHead offset t rest).2 rest := by
  obtain ⟨run, hrun, ⟨heq, hlexemes⟩ | ⟨heq, hlexemes⟩⟩ := hs.ofName_eq
  · refine ⟨⟨.name, offset, offset + Text.byteSize run⟩, by rwa [heq] at hcut, ?_⟩
    intro read n atHead rest
    rw [hlexemes]
    exact ⟨⟨_, _, _, rfl, rfl⟩, rfl⟩
  · have hstop : offset + Text.byteSize ['.'] + Text.byteSize run =
        offset + Text.byteSize ('.' :: run) := by
      rw [Text.byteSize_cons, Text.byteSize_cons, Text.byteSize_nil]
      omega
    refine ⟨⟨.name, offset + Text.byteSize ['.'], offset + Text.byteSize ['.'] +
      Text.byteSize run⟩, ?_, ?_⟩
    · rwa [heq, ← hstop] at hcut
    · intro read n atHead rest
      rw [hlexemes]
      exact ⟨⟨_, _, _, rfl, rfl⟩, rfl⟩

theorem addTokens_skip {tokens : List Token} {taken : Nat} (h : tokens.length = taken) :
    addTokens cut read n atHead before taken (tokens ++ rest) =
      addTokens cut read n atHead (tokens.getLast?.or before) 0 rest := by
  subst h
  induction tokens generalizing before with
  | nil => rfl
  | cons t tokens ih =>
    rw [List.length_cons, List.cons_append, addTokens, ih, List.getLast?_cons]
    cases tokens.getLast? <;> rfl

theorem sizeSuffix_ofSize {line : List Char} {size : Option String}
    (hsize : ∀ part ∈ size, part = "" ∨ IsPart part)
    (hat : StandsAt line offset (allChars (ofSize size)))
    (hdot : ∀ u ∈ rest.head?, u.kind ≠ .dot)
    (hrun : size = some "" → ∀ u ∈ rest.head?, u.kind ≠ .name ∧ u.kind ≠ .number) :
    sizeSuffix (cutLine line) (place offset (ofSize size) ++ rest) =
      (size, (ofSize size).length) := by
  cases size with
  | none =>
    rcases rest with _ | ⟨u, rest⟩
    · rfl
    · exact if_neg (hdot u rfl)
  | some part =>
    rcases hsize part rfl with rfl | hpart
    · rcases rest with _ | ⟨u, rest⟩
      · rfl
      · obtain ⟨hname, hnumber⟩ := hrun rfl u rfl
        simp [ofSize, ofPart, sizeSuffix, hname, hnumber]
    · obtain ⟨kind, hkind, heq⟩ := hpart.ofPart_eq
      have hpart : StandsAt line offset (dot.chars ++ part.toList) := by
        rwa [ofSize, allChars_cons, allChars_ofPart] at hat
      have hcut : cutLine line (offset + '.'.utf8Size)
          (offset + '.'.utf8Size + Text.byteSize part.toList) = part := by
        simpa using hpart.right.cut
      rcases hkind.kind_eq with rfl | rfl
      · simp [ofSize, heq, sizeSuffix, hcut]
      · simp [ofSize, heq, sizeSuffix, hcut]

/-- Adds a name that opens no call, with the part after its dot. -/
def Nesting.addValue (n : Nesting) (s : String) : Option String → Nesting
  | some part => n.addLeaf .operator (some (.binary .field (.text s) (.text part)))
  | none => n.addLeaf .text (some (.text s))

theorem addName_of_follows {tokens : List Token} {start : Nat} {s : String} {size : Option String}
    (htext : cut start t.stop = s)
    (hsuffix : sizeSuffix cut (tokens ++ rest) = (size, tokens.length)) (hrest : Follows n rest) :
    addName cut n atHead start t (tokens ++ rest) = (n.addValue s size, tokens.length) := by
  simp only [addName, hsuffix, htext, List.drop_left]
  rcases rest with _ | ⟨u, rest⟩
  · cases size <;> rfl
  · obtain ⟨hdot, hparen, hblank⟩ := hrest
    have hbare : (atHead && n.frames.isEmpty && u.kind = .blank && opensOperand cut rest) =
        false := by
      by_contra h
      simp only [Bool.not_eq_false, Bool.and_eq_true, List.isEmpty_iff, decide_eq_true_eq] at h
      obtain ⟨⟨⟨-, hframes⟩, hkind⟩, hopens⟩ := h
      rw [hblank hkind hframes] at hopens
      cases hopens
    cases size <;> simp [hparen, hbare, Nesting.addValue]

theorem addName_of_openParen {tokens : List Token} {u : Token} {start : Nat} {s : String}
    {size : Option String} (htext : cut start t.stop = s)
    (hsuffix : sizeSuffix cut (tokens ++ u :: rest) = (size, tokens.length))
    (hu : u.kind = .openParen) :
    addName cut n atHead start t (tokens ++ u :: rest) =
      (n.openCall s size false u.start, tokens.length + 1) := by
  simp only [addName, hsuffix, htext, List.drop_left, hu, ↓reduceIte]

variable {line : List Char} {s : String} {size : Option String}

theorem addTokens_callee (hs : IsName s) (hsize : ∀ part ∈ size, part = "" ∨ IsPart part)
    (hat : StandsAt line offset (allChars (ofName s ++ ofSize size)))
    (hdot : ∀ u ∈ rest.head?, u.kind ≠ .dot)
    (hrun : size = some "" → ∀ u ∈ rest.head?, u.kind ≠ .name ∧ u.kind ≠ .number) :
    ∃ t tokens, cutLine line offset t.stop = s ∧
      sizeSuffix (cutLine line) (tokens ++ rest) = (size, tokens.length) ∧
      ∀ read n atHead,
        (∃ first more taken,
          place offset (ofName s ++ ofSize size) ++ rest = first :: more ∧
          addToken (cutLine line) read n atHead none first more =
            .ok ((addName (cutLine line) n atHead offset t (tokens ++ rest)).1, taken)) ∧
        addTokens (cutLine line) read n atHead none 0
            (place offset (ofName s ++ ofSize size) ++ rest) =
          addTokens (cutLine line) read
            (addName (cutLine line) n atHead offset t (tokens ++ rest)).1 false (some t)
            (addName (cutLine line) n atHead offset t (tokens ++ rest)).2 (tokens ++ rest) := by
  rw [allChars_append, allChars_ofName] at hat
  have hcut : cutLine line offset (offset + Text.byteSize s.toList) = s := by
    rw [hat.left.cut, String.ofList_toList]
  obtain ⟨t, htext, hadd⟩ := addTokens_ofName hs hcut
  have hsuffix := sizeSuffix_ofSize hsize hat.right hdot hrun
  rw [← length_place] at hsuffix
  refine ⟨t, _, htext, hsuffix, fun read n atHead => ?_⟩
  rw [place_append, allChars_ofName, List.append_assoc]
  exact hadd read n atHead _

theorem addTokens_value (hs : IsName s) (hsize : ∀ part ∈ size, IsPart part)
    (hat : StandsAt line offset (allChars (ofName s ++ ofSize size))) (hrest : Follows n rest) :
    addTokens (cutLine line) read n atHead none 0
        (place offset (ofName s ++ ofSize size) ++ rest) =
      addTokens (cutLine line) read (n.addValue s size) false none 0 rest := by
  have hempty : size ≠ some "" := by
    rintro rfl
    obtain ⟨_, ⟨c, _, heq, -⟩, -⟩ := (hsize "" rfl).ofPart_eq
    cases heq
  obtain ⟨t, tokens, htext, hsuffix, hadd⟩ := addTokens_callee hs
    (fun part h => .inr (hsize part h)) hat hrest.head fun h => absurd h hempty
  rw [(hadd read n atHead).2, addName_of_follows htext hsuffix hrest, addTokens_skip rfl]
  exact addTokens_of_head hrest.head

theorem addTokens_call (hs : IsName s) (hsize : ∀ part ∈ size, part = "" ∨ IsPart part)
    (hat : StandsAt line offset (allChars (ofName s ++ ofSize size))) (ht : t.kind = .openParen) :
    addTokens (cutLine line) read n atHead none 0
        (place offset (ofName s ++ ofSize size) ++ t :: rest) =
      addTokens (cutLine line) read (n.openCall s size false t.start) false none 0 rest := by
  have hdot : ∀ v ∈ (t :: rest).head?, v.kind ≠ .dot := by simp [ht]
  have hrun : ∀ v ∈ (t :: rest).head?, v.kind ≠ .name ∧ v.kind ≠ .number := by simp [ht]
  obtain ⟨u, tokens, htext, hsuffix, hadd⟩ := addTokens_callee hs hsize hat hdot fun _ => hrun
  rw [(hadd read n atHead).2, addName_of_openParen htext hsuffix ht, List.append_cons,
    addTokens_skip (by simp), List.getLast?_concat]
  apply addTokens_of_before
  rintro _ ⟨⟩
  rw [ht]
  rfl

theorem addToken_number {m : Numeral} {stop taken : Nat} (ht : t.kind = .number)
    (hend : numeralEnd t rest = (stop, taken)) (hcut : cut t.start stop = m.text)
    (hread : read m.text = .ok (m.value, m.width)) :
    addToken cut read n atHead none t rest =
      .ok (n.addLeaf .number (some (.number m)), taken) := by
  simp only [addToken, ht, hend, hcut, hread]

theorem addTokens_numeral {m : Numeral} (hm : IsNumeral m.text)
    (hread : read m.text = .ok (m.value, m.width))
    (hat : StandsAt line offset (allChars (ofNumeral m.text))) (hrest : Follows n rest) :
    addTokens (cutLine line) read n atHead none 0 (place offset (ofNumeral m.text) ++ rest) =
      addTokens (cutLine line) read (n.addLeaf .number (some (.number m))) false none 0 rest := by
  rw [allChars_ofNumeral] at hat
  have hcut : cutLine line offset (offset + Text.byteSize m.text.toList) = m.text := by
    rw [hat.cut, String.ofList_toList]
  rcases hm.ofNumeral_eq with ⟨-, heq⟩ | ⟨whole, places, -, -, htext, heq⟩
  · rw [heq]
    refine addTokens_cons_of_head (addToken_number rfl ?_ hcut hread) hrest.head
    have hhead := hrest.head
    rcases rest with _ | ⟨u, _ | ⟨v, rest⟩⟩
    · rfl
    · rfl
    · simp [numeralEnd, hhead u rfl]
  · have hstop : offset + Text.byteSize m.text.toList =
        offset + Text.byteSize whole + Text.byteSize ['.'] + Text.byteSize places := by
      rw [htext]
      simp only [Text.byteSize_append, Text.byteSize_cons, Text.byteSize_nil]
      omega
    rw [hstop] at hcut
    have hadd : addToken (cutLine line) read n atHead none
        ⟨.number, offset, offset + Text.byteSize whole⟩
        (place (offset + Text.byteSize whole) [dot, ⟨.number, places⟩] ++ rest) =
          .ok (n.addLeaf .number (some (.number m)), 2) :=
      addToken_number rfl (by simp [numeralEnd]) hcut hread
    rw [heq, place_cons, List.cons_append, addTokens, chars_of_ne (by decide),
      token_of_ne (by decide), hadd]
    exact addTokens_of_head hrest.head

theorem addTokens_string {value : String} (hvalue : ∀ c ∈ value.toList, IsQuotable c)
    (hat : StandsAt line offset (allChars [⟨.string, Text.quotedChars value.toList⟩]))
    (hrest : Follows n rest) :
    addTokens (cutLine line) read n atHead none 0
        (place offset [⟨.string, Text.quotedChars value.toList⟩] ++ rest) =
      addTokens (cutLine line) read (n.addLeaf .string (some (.string value))) false none 0
        rest := by
  have hquoted : StandsAt line offset (['"'] ++ (Text.quotedChars value.toList ++ ['"'])) := by
    simpa [chars_string] using hat
  have hcut : cutLine line (offset + 1)
      (offset + 1 + Text.byteSize (Text.quotedChars value.toList)) =
        String.ofList (Text.quotedChars value.toList) := hquoted.right.left.cut
  have hstring : Text.unescaped (Text.quotedChars value.toList) = value := by
    rw [Text.unescaped_quotedChars hvalue, String.ofList_toList]
  refine addTokens_cons_of_head ?_ hrest.head
  simp [addToken, token, hcut, hstring]

/-! ## Brackets and operators -/

theorem addTokens_openParen :
    addTokens cut read n atHead none 0 (openParen.token offset :: rest) =
      addTokens cut read (n.openParen offset) false none 0 rest :=
  addTokens_cons rfl rfl

theorem addTokens_openBracket :
    addTokens cut read n atHead none 0 (openBracket.token offset :: rest) =
      addTokens cut read (n.openBracket offset) false none 0 rest :=
  addTokens_cons rfl rfl

theorem addTokens_space :
    addTokens cut read n atHead none 0 (blank.token offset :: rest) =
      addTokens cut read n atHead none 0 rest :=
  addTokens_cons rfl rfl

theorem addTokens_closeParen (hn : n.closeParen offset = .ok n')
    (hrest : ∀ u ∈ rest.head?, u.kind ≠ .dot) :
    addTokens cut read n atHead none 0 (closeParen.token offset :: rest) =
      addTokens cut read n' false none 0 rest := by
  refine addTokens_cons_of_head ?_ hrest
  simp [addToken, hn, Except.map]

theorem addTokens_closeBracket (hn : n.closeBracket offset = .ok n')
    (hrest : ∀ u ∈ rest.head?, u.kind ≠ .dot) :
    addTokens cut read n atHead none 0 (closeBracket.token offset :: rest) =
      addTokens cut read n' false none 0 rest := by
  refine addTokens_cons_of_head ?_ hrest
  simp [addToken, hn, Except.map]

theorem addTokens_comma (hn : n.nextArgument offset = .ok n') :
    addTokens cut read n atHead none 0 (comma.token offset :: rest) =
      addTokens cut read n' false none 0 rest := by
  refine addTokens_cons ?_ rfl
  simp [addToken, hn, Except.map]

theorem addTokens_ofOperator {o : Operator} (hindex : o ≠ .subscript) (hfield : o ≠ .field)
    (hat : StandsAt line offset o.symbol.toList) :
    addTokens (cutLine line) read n atHead none 0 ((ofOperator o).token offset :: rest) =
      addTokens (cutLine line) read (n.addLeaf .operator (some (.bare o.written))) false none 0
        rest := by
  by_cases hcast : o = .cast
  · subst hcast
    exact addTokens_cons rfl rfl
  · have hsymbol : Operator.ofSymbol?
        (cutLine line offset (offset + Text.byteSize o.symbol.toList)) = some o.written := by
      rw [hat.cut, String.ofList_toList]
      exact Operator.ofSymbol?_written (by simp [hindex, hcast, hfield])
    have htoken : (ofOperator o).token offset =
        ⟨.operator, offset, offset + Text.byteSize o.symbol.toList⟩ := by
      simp [ofOperator, hcast]
    rw [htoken]
    refine addTokens_cons ?_ rfl
    simp [addToken, hsymbol]

/-! ## Nodes -/

def Nesting.addAll (n : Nesting) (scopes : List Scope) : Nesting :=
  { n with items := scopes.reverse ++ n.items }

/-- The tokens of a node are nested to its scopes, wherever they stand in the line. -/
def Nests (line : List Char) (read : NumeralReader) (e : Node) : Prop :=
  ∀ n atHead offset rest, StandsAt line offset (allChars e.lexemes) → Follows n rest →
    addTokens (cutLine line) read n atHead none 0 (place offset e.lexemes ++ rest) =
      addTokens (cutLine line) read (n.addAll (e.scopes n.depth)) false none 0 rest

theorem nests_unary {o : Operator} {e : Node} (ho : o.isUnary = true) (he : Nests line read e) :
    Nests line read (.unary o e) := by
  intro n atHead offset rest hat hrest
  have hindex : o ≠ .subscript := by
    rintro rfl
    cases ho
  have hfield : o ≠ .field := by
    rintro rfl
    cases ho
  rw [Node.lexemes_unary] at hat ⊢
  simp only [place_cons, place_append, place_nil, List.cons_append, List.append_assoc,
    List.nil_append, allChars_append, allChars_cons] at hat ⊢
  rw [chars_ofOperator] at hat ⊢
  rw [addTokens_openParen, addTokens_ofOperator hindex hfield hat.right.left,
    he _ _ _ _ hat.right.right.left (by simp [Follows]), addTokens_closeParen rfl hrest.head,
    Node.scopes_unary ho]
  simp [Nesting.addLeaf, Nesting.addAll, Nesting.openParen, Nesting.close, Nesting.closed]

theorem nests_binary {o : Operator} {l r : Node} (ho : o.isUnary = false) (hindex : o ≠ .subscript)
    (hfield : o ≠ .field) (hl : Nests line read l) (hr : Nests line read r) :
    Nests line read (.binary o l r) := by
  intro n atHead offset rest hat hrest
  have hwritten : o.written = o := by cases o <;> first | rfl | cases ho
  rw [Node.lexemes_binary hindex hfield] at hat ⊢
  simp only [place_cons, place_append, place_nil, List.cons_append, List.append_assoc,
    List.nil_append, allChars_append, allChars_cons] at hat ⊢
  rw [chars_ofOperator] at hat ⊢
  rw [addTokens_openParen, hl _ _ _ _ hat.right.left (by simp [Follows, Nesting.openParen]),
    addTokens_space, addTokens_ofOperator hindex hfield hat.right.right.right.left,
    addTokens_space, hr _ _ _ _ hat.right.right.right.right.right.left (by simp [Follows]),
    addTokens_closeParen rfl hrest.head, Node.scopes_binary hindex hfield, hwritten]
  simp [Nesting.addLeaf, Nesting.addAll, Nesting.openParen, Nesting.close, Nesting.closed]

theorem nests_index {l i : Node} (hl : Nests line read l) (hi : Nests line read i) :
    Nests line read (.binary .subscript l i) := by
  intro n atHead offset rest hat hrest
  have hlexemes : (Node.binary .subscript l i).lexemes =
      l.lexemes ++ openBracket :: i.lexemes ++ [closeBracket] := rfl
  rw [hlexemes] at hat ⊢
  simp only [place_cons, place_append, place_nil, List.cons_append, List.append_assoc,
    List.nil_append, allChars_append, allChars_cons] at hat ⊢
  rw [hl _ _ _ _ hat.left (by simp [Follows]), addTokens_openBracket,
    hi _ _ _ _ hat.right.right.left (by simp [Follows]),
    addTokens_closeBracket rfl hrest.head]
  simp [Node.scopes, Node.binary, Nesting.addAll, Nesting.openBracket, Nesting.close,
    Nesting.closed]

theorem addTokens_arguments {args : List Node} {before : List Scope} {depth opened : Nat}
    (hne : args ≠ []) (hargs : ∀ arg ∈ args, arg ≠ .text "" → Nests line read arg)
    (hrest : ∀ u ∈ rest.head?, u.kind ≠ .dot) {done : List Scope}
    (hat : StandsAt line offset
      (allChars ([comma, blank].intercalate (Node.lexemesAll args) ++ [closeParen]))) :
    addTokens (cutLine line) read
        ⟨[], depth + 2, ⟨.call s size false opened done, before, depth⟩ :: outer⟩ false none 0
        (place offset ([comma, blank].intercalate (Node.lexemesAll args) ++ [closeParen]) ++ rest) =
      addTokens (cutLine line) read
        ⟨⟨.call, depth, some (.call s size []),
          done.reverse ++ Node.argumentScopes args (depth + 1)⟩ :: before, depth, outer⟩
        false none 0 rest := by
  -- an omitted argument leaves its scope empty
  have hadd : ∀ arg ∈ args, ∀ n offset rest, StandsAt line offset (allChars arg.lexemes) →
      Follows n rest →
      addTokens (cutLine line) read n false none 0 (place offset arg.lexemes ++ rest) =
        addTokens (cutLine line) read (n.addAll (arg.scopes n.depth)) false none 0 rest := by
    intro arg harg n offset rest hat hrest
    by_cases hempty : arg = .text ""
    · subst hempty
      rfl
    · exact hargs arg harg hempty n false offset rest hat hrest
  clear hargs
  induction args generalizing done offset with
  | nil => exact absurd rfl hne
  | cons arg args ih =>
    rw [List.forall_mem_cons] at hadd
    obtain ⟨harg, hargs⟩ := hadd
    cases args with
    | nil =>
      simp only [Node.lexemesAll, List.intercalate_singleton, allChars_append, place_append,
        List.append_assoc] at hat ⊢
      rw [harg _ _ _ hat.left (by simp [Follows])]
      apply (addTokens_closeParen rfl hrest).trans
      simp [Nesting.addAll, Nesting.close, Nesting.closed, Node.argumentScopes]
    | cons arg' args =>
      have hlexemes : [comma, blank].intercalate (Node.lexemesAll (arg :: arg' :: args)) ++
          [closeParen] = arg.lexemes ++ comma :: blank ::
            ([comma, blank].intercalate (Node.lexemesAll (arg' :: args)) ++ [closeParen]) := by
        rw [Node.lexemesAll, Node.lexemesAll, List.intercalate_cons_cons]
        simp
      rw [hlexemes, allChars_append, allChars_cons, allChars_cons] at hat
      rw [hlexemes, place_append, place_cons, place_cons, List.append_assoc, List.cons_append,
        List.cons_append, harg _ _ _ hat.left (by simp [Follows]), addTokens_comma rfl,
        addTokens_space]
      apply (ih (by simp) hat.right.right.right hargs).trans
      simp [Nesting.addAll, Node.argumentScopes]

theorem nests_call {args : List Node} (hs : IsName s)
    (hsize : ∀ part ∈ size, part = "" ∨ IsPart part) (hne : args ≠ [])
    (hargs : ∀ arg ∈ args, arg ≠ .text "" → Nests line read arg) :
    Nests line read (.call s size args) := by
  intro n atHead offset rest hat hrest
  have hlexemes : (Node.call s size args).lexemes = ofName s ++ ofSize size ++
      openParen :: ([comma, blank].intercalate (Node.lexemesAll args) ++ [closeParen]) := by
    rw [Node.lexemes]
    simp
  rw [hlexemes, allChars_append, allChars_cons] at hat
  rw [hlexemes, place_append, place_cons, List.append_assoc, List.cons_append,
    addTokens_call hs hsize hat.left rfl]
  apply (addTokens_arguments hne hargs hrest.head hat.right.right).trans
  simp [Node.scopes, Nesting.addAll]

end Nest

namespace Node

/-- The tokens of a legible node are nested to its scopes. -/
theorem Legible.nests {read : NumeralReader} {n : Node} (h : n.Legible read) (line : List Char) :
    Nest.Nests line read n := by
  induction h with
  | @name s h =>
    intro n atHead offset rest hat hrest
    have hlexemes : (Node.text s).lexemes = Lexeme.ofName s ++ Lexeme.ofSize none :=
      (List.append_nil _).symm
    rw [hlexemes] at hat ⊢
    apply (Nest.addTokens_value h (by simp) hat hrest).trans
    simp [scopes, h.ne_empty, Nest.Nesting.addAll, Nest.Nesting.addValue, Nest.Nesting.addLeaf]
  | string h =>
    intro n atHead offset rest hat hrest
    exact Nest.addTokens_string h hat hrest
  | number h hread =>
    intro n atHead offset rest hat hrest
    exact Nest.addTokens_numeral h hread hat hrest
  | unary ho _ ih => exact Nest.nests_unary ho ih
  | @binary o l r ho hfield _ _ ihl ihr =>
    by_cases hindex : o = .subscript
    · subst hindex
      exact Nest.nests_index ihl ihr
    · exact Nest.nests_binary ho hindex hfield ihl ihr
  | @field s part hs hpart =>
    intro n atHead offset rest hat hrest
    have hsize : ∀ part' ∈ some part, IsPart part' := by
      rintro _ ⟨⟩
      exact hpart
    exact Nest.addTokens_value hs hsize hat hrest
  | call hname hsize hargs _ ih => exact Nest.nests_call hname hsize hargs ih

end Node

end MacroAsm

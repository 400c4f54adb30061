import MacroAsm.Proofs.Access
import MacroAsm.Proofs.Token.Cover

/-!
# Scanning one character at a time

`CharScanner.read` scans a line character by character. It keeps the tokens so far in a list that it
looks back into: an operator character makes the operator before it longer if the text of that
operator, cut out of the line, allows it, and a `:` turns the mark of an implied label, of which the
index is remembered, into a blank. All these accesses are checked (`Access`).

The lemmas say what it does with one character of each class, and from that, with the rest of a run,
of a string and of an operator.
-/

namespace MacroAsm

namespace Scan

open Text (byteSize slice?)

/-- A scanner that takes one character at a time. -/
structure CharScanner where
  /-- The tokens so far, in order. -/
  tokens : List Token := []
  /-- The kind of the name or number that is being read, and where it starts. -/
  run : Option (TokenKind × Nat) := none
  /-- The quote of the open string, and where its contents start. -/
  string : Option (Char × Nat) := none
  /-- Whether a backslash comes before the next character of the open string. -/
  escaped : Bool := false
  /-- Whether the name that is being read starts the line. -/
  startsLine : Bool := false
  labelled : Bool := false
  /-- The index of the mark of an implied label. -/
  implied : Option Nat := none

namespace CharScanner

/-- The token of the name or number that ends here, if one is being read. -/
def runToken (s : CharScanner) (stop : Nat) : List Token :=
  match s.run with
  | some (kind, start) => [⟨kind, start, stop⟩]
  | none => []

def push (s : CharScanner) (t : Token) : CharScanner := { s with tokens := s.tokens ++ [t] }

def closeRun (s : CharScanner) (stop : Nat) : CharScanner :=
  { s with tokens := s.tokens ++ s.runToken stop, run := none, startsLine := false }

def startRun (s : CharScanner) (kind : TokenKind) (offset : Nat) : CharScanner :=
  let startsLine := if kind = .name then decide (offset = 0) else s.startsLine
  { s with run := some (kind, offset), startsLine }

def single (s : CharScanner) (kind : TokenKind) (offset : Nat) : CharScanner :=
  (s.closeRun offset).push ⟨kind, offset, offset + 1⟩

/-- Opens a string. Its contents start right behind the quote. -/
def openString (s : CharScanner) (quote : Char) (offset : Nat) : CharScanner :=
  { s.closeRun offset with string := some (quote, offset + 1), escaped := false }

def blank (s : CharScanner) (start stop : Nat) : CharScanner :=
  if s.startsLine then
    { (s.closeRun start).push ⟨.impliedLabel, start, stop⟩ with
      implied := some (s.closeRun start).tokens.length }
  else if (s.closeRun start).tokens.getLast?.any Token.isSignificant then
    (s.closeRun start).push ⟨.blank, start, stop⟩
  else s.closeRun start

/-- Turns the mark of an implied label into a blank. -/
def unmark (implied : Option Nat) (tokens : List Token) : Access (List Token) :=
  match implied with
  | none => return tokens
  | some k => do
    let t ← .get tokens[k]?
    return tokens.set k { t with kind := .blank }

/-- Takes the `:` of a label. -/
def label (s : CharScanner) (offset : Nat) : Access CharScanner :=
  if s.labelled then .result (.error (.repeatedLabel offset))
  else do
    let tokens ← unmark s.implied s.tokens
    return { s with tokens, labelled := true, implied := none }.push ⟨.label, offset, offset + 1⟩

/-- The characters that may make an operator before them longer. -/
def isGrowth (c : Char) : Bool := c = '=' || c = '<' || c = '>'

/-- Whether an operator goes on with such a character. -/
def goesOn (operator : List Char) (c : Char) : Bool :=
  if c = '=' then operator ∈ [['!'], ['='], ['<'], ['>']]
  else byteSize operator ≤ 2 && operator.all (· = c)

/-- Makes the operator that ends right before `offset` longer, if it goes on with the character
there. -/
def extend? (line : List Char) (tokens : List Token) (offset : Nat) (c : Char) :
    Access (Option (List Token)) :=
  match tokens.getLast? with
  | none => return none
  | some t =>
    if t.kind = .operator && t.stop = offset then do
      let operator ← .get (slice? line t.start t.stop)
      if goesOn operator c then
        return some (tokens.dropLast ++ [{ t with stop := offset + 1 }])
      else return none
    else return none

/-- Takes a character of the open string. -/
def takeInside (s : CharScanner) (quote : Char) (start offset : Nat) (c : Char) : CharScanner :=
  if c = '\\' then { s with escaped := !s.escaped }
  else if c = quote && !s.escaped then { s.push ⟨.string, start, offset⟩ with string := none }
  else { s with escaped := false }

/-- Takes a character outside of strings, but for `:`. -/
def takeOutside (line : List Char) (s : CharScanner) (offset : Nat) (c : Char) :
    Access CharScanner :=
  if isBlank c then return s.blank offset (offset + 1)
  else if isQuote c then return s.openString c offset
  else if isGrowth c then do
    match ← extend? line s.tokens offset c with
    | some tokens => return { s with tokens }
    | none => return s.single .operator offset
  else if operatorChars.contains c then return s.single .operator offset
  else
    match markKind? c with
    | some kind => return s.single kind offset
    | none =>
      if s.run.isSome then return s
      else
        match runKind? c with
        | none => .result (.error (.unrecognized c offset))
        | some kind => return s.startRun kind offset

/-- Reads on at byte `offset` of the line. -/
def read (line : List Char) (s : CharScanner) (offset : Nat) : List Char → Access (List Token)
  | [] =>
    match s.string with
    | some _ => .result (.error (.unterminated 1))
    | none => return (s.blank offset offset).tokens
  | c :: cs =>
    let next := offset + c.utf8Size
    match s.string with
    | some (quote, start) => read line (s.takeInside quote start offset c) next cs
    | none =>
      if c = ':' then
        let s := s.closeRun offset
        if !s.tokens.any Token.isSignificant then .result (.error (.emptyLabel offset))
        else
          match cs with
          | ':' :: rest => read line (s.push ⟨.cast, offset, offset + 2⟩) (offset + 2) rest
          | rest => do
            let s ← s.label offset
            read line s next rest
      else do
        let s ← s.takeOutside line offset c
        read line s next cs

variable {line before cs rest ops more : List Char} {offset start stop next : Nat} {c quote : Char}
  {s : CharScanner} {kind : TokenKind} {t : Token} {done tokens : List Token} {fault : Fault}

theorem closeRun_tokens (s : CharScanner) (stop : Nat) :
    (s.closeRun stop).tokens = s.tokens ++ s.runToken stop := rfl

/-! ## One character -/

theorem read_takeInside (hs : s.string = some (quote, start)) :
    read line s offset (c :: cs) =
      read line (s.takeInside quote start offset c) (offset + c.utf8Size) cs := by
  rw [read, hs]

theorem read_takeOutside (hs : s.string = none) (hc : c ≠ ':') :
    read line s offset (c :: cs) =
      s.takeOutside line offset c >>= fun s => read line s (offset + c.utf8Size) cs := by
  rw [read, hs]
  simp only [if_neg hc]

theorem read_blank (hs : s.string = none) (hc : isBlank c = true) :
    read line s offset (c :: cs) = read line (s.blank offset (offset + 1)) (offset + 1) cs := by
  have hcolon : c ≠ ':' := by
    rintro rfl
    cases hc
  rw [read_takeOutside hs hcolon, takeOutside, if_pos hc, utf8Size_of_isBlank hc]
  rfl

theorem read_quote (hs : s.string = none) (hc : isQuote c = true) :
    read line s offset (c :: cs) = read line (s.openString c offset) (offset + 1) cs := by
  have hcolon : c ≠ ':' := by
    rintro rfl
    cases hc
  have hblank : isBlank c = false := by
    rw [Bool.eq_false_iff]
    intro hblank
    rw [isQuote_of_isBlank hblank] at hc
    cases hc
  rw [read_takeOutside hs hcolon, takeOutside, utf8Size_of_isQuote hc]
  simp [hblank, hc]

theorem mem_operatorChars_of_isGrowth (h : isGrowth c = true) : c ∈ operatorChars := by
  simp only [isGrowth, Bool.or_eq_true, decide_eq_true_eq] at h
  rcases h with (rfl | rfl) | rfl <;> decide

theorem isGrowth_of_not_mem (h : c ∉ operatorChars) : isGrowth c = false := by
  rw [Bool.eq_false_iff]
  exact fun hgrowth => h (mem_operatorChars_of_isGrowth hgrowth)

theorem read_mark (hs : s.string = none) (hc : markKind? c = some kind) :
    read line s offset (c :: cs) = read line (s.single kind offset) (offset + 1) cs := by
  obtain ⟨hblank, hquote, hcolon⟩ := classes_of_markKind? hc
  have hoperator : c ∉ operatorChars := fun h => by simp [classes_of_mem_operatorChars h] at hc
  have hgrowth := isGrowth_of_not_mem hoperator
  rw [read_takeOutside hs hcolon, takeOutside, utf8Size_of_mark hc]
  simp [hblank, hquote, hoperator, hgrowth, hc]

theorem read_operator (hs : s.string = none) (hc : c ∈ operatorChars)
    (hgrowth : isGrowth c = true → extend? line s.tokens offset c = .result (.ok none)) :
    read line s offset (c :: cs) = read line (s.single .operator offset) (offset + 1) cs := by
  obtain ⟨hblank, hquote, hcolon, -⟩ := classes_of_mem_operatorChars hc
  rw [read_takeOutside hs hcolon, takeOutside, utf8Size_of_mem_operatorChars hc]
  by_cases hgrows : isGrowth c = true
  · simp [hblank, hquote, hgrows, hgrowth hgrows]
  · simp [hblank, hquote, hgrows, hc]

theorem read_growth (hs : s.string = none) (hc : isGrowth c = true)
    (hextend : extend? line s.tokens offset c = .result (.ok (some tokens))) :
    read line s offset (c :: cs) = read line { s with tokens } (offset + 1) cs := by
  have hoperator := mem_operatorChars_of_isGrowth hc
  obtain ⟨hblank, hquote, hcolon, -⟩ := classes_of_mem_operatorChars hoperator
  rw [read_takeOutside hs hcolon, takeOutside, utf8Size_of_mem_operatorChars hoperator]
  simp [hblank, hquote, hc, hextend]

theorem read_plain (hs : s.string = none) (hblank : isBlank c = false) (hquote : isQuote c = false)
    (hcolon : c ≠ ':') (hoperator : c ∉ operatorChars) (hmark : markKind? c = none) :
    read line s offset (c :: cs) =
      if s.run.isSome then read line s (offset + c.utf8Size) cs
      else
        match runKind? c with
        | none => .result (.error (.unrecognized c offset))
        | some kind => read line (s.startRun kind offset) (offset + c.utf8Size) cs := by
  have hgrowth := isGrowth_of_not_mem hoperator
  rw [read_takeOutside hs hcolon]
  simp only [takeOutside, hblank, hquote, hgrowth, hmark, List.contains_eq_mem, hoperator,
    decide_false, Bool.false_eq_true, ↓reduceIte]
  split
  · rfl
  · cases runKind? c <;> rfl

/-! ## Runs and strings -/

theorem read_run (hs : s.string = none) (hrun : s.run.isSome = true)
    (hmore : ∀ d ∈ more, continuesRun d = true) :
    read line s offset (more ++ rest) = read line s (offset + byteSize more) rest := by
  induction more generalizing offset with
  | nil => rfl
  | cons d more ih =>
    rw [List.forall_mem_cons] at hmore
    obtain ⟨hblank, hquote, hcolon, hoperator, hmark⟩ := classes_of_continuesRun hmore.1
    rw [List.cons_append, read_plain hs hblank hquote hcolon hoperator hmark, if_pos hrun,
      ih hmore.2, Text.byteSize_cons, Nat.add_assoc]

theorem read_string {close : Nat} (hs : s.string = some (quote, start))
    (hclose : closingQuote? quote s.escaped offset cs = some (close, rest)) :
    read line s offset cs =
      read line { s.push ⟨.string, start, close⟩ with string := none, escaped := false }
        (close + quote.utf8Size) rest := by
  generalize hescaped : s.escaped = escaped at hclose
  fun_induction closingQuote? quote escaped offset cs generalizing s with
  | case1 => cases hclose
  | case2 escaped offset cs ih =>
    rw [read_takeInside hs, takeInside, if_pos rfl]
    exact ih hs (by simp [hescaped]) hclose
  | case3 escaped offset c cs hback hquote =>
    cases hclose
    simp only [Bool.and_eq_true, decide_eq_true_eq, Bool.not_eq_true'] at hquote
    obtain ⟨rfl, rfl⟩ := hquote
    rw [read_takeInside hs]
    simp [takeInside, hback, hescaped, push]
  | case4 escaped offset c cs hback hquote ih =>
    rw [read_takeInside hs, takeInside, if_neg hback, hescaped, if_neg hquote]
    exact ih hs rfl hclose

theorem read_unclosed (hs : s.string = some (quote, start))
    (hclose : closingQuote? quote s.escaped offset cs = none) :
    read line s offset cs = .result (.error (.unterminated 1)) := by
  generalize hescaped : s.escaped = escaped at hclose
  fun_induction closingQuote? quote escaped offset cs generalizing s with
  | case1 =>
    rw [read, hs]
  | case2 escaped offset cs ih =>
    rw [read_takeInside hs, takeInside, if_pos rfl]
    exact ih hs (by simp [hescaped]) hclose
  | case3 => cases hclose
  | case4 escaped offset c cs hback hquote ih =>
    rw [read_takeInside hs, takeInside, if_neg hback, hescaped, if_neg hquote]
    exact ih hs rfl hclose

/-! ## Colons -/

theorem read_emptyLabel (hs : s.string = none)
    (hdone : (s.closeRun offset).tokens.any Token.isSignificant = false) :
    read line s offset (':' :: cs) = .result (.error (.emptyLabel offset)) := by
  rw [read, hs]
  simp only [↓reduceIte, hdone, Bool.not_false]

theorem read_cast (hs : s.string = none)
    (hdone : (s.closeRun offset).tokens.any Token.isSignificant = true) :
    read line s offset (':' :: ':' :: rest) =
      read line ((s.closeRun offset).push ⟨.cast, offset, offset + 2⟩) (offset + 2) rest := by
  rw [read, hs]
  simp only [↓reduceIte, hdone, Bool.not_true, Bool.false_eq_true]

theorem read_label (hs : s.string = none)
    (hdone : (s.closeRun offset).tokens.any Token.isSignificant = true)
    (hcs : ∀ c ∈ cs.head?, c ≠ ':') :
    read line s offset (':' :: cs) =
      (s.closeRun offset).label offset >>= fun s => read line s (offset + 1) cs := by
  rw [read, hs]
  simp only [↓reduceIte, hdone, Bool.not_true, Bool.false_eq_true]
  split
  next => exact absurd rfl (hcs ':' rfl)
  next => rfl

/-! ## Operators -/

theorem extend?_of_forall (h : ∀ t ∈ tokens.getLast?, t.kind = .operator → t.stop ≠ offset) :
    extend? line tokens offset c = .result (.ok none) := by
  unfold extend?
  cases hlast : tokens.getLast? with
  | none => rfl
  | some t =>
    have hno : (t.kind = .operator && t.stop = offset) = false := by
      simpa using h t hlast
    simp only [hno]
    rfl

theorem extend?_push (tokens : List Token) (c : Char) (hline : line = before ++ ops ++ rest) :
    extend? line (tokens ++ [⟨.operator, byteSize before, byteSize (before ++ ops)⟩])
        (byteSize (before ++ ops)) c =
      .result (.ok (if goesOn ops c then
        some (tokens ++ [⟨.operator, byteSize before, byteSize (before ++ ops) + 1⟩])
      else none)) := by
  have hslice : slice? line (byteSize before) (byteSize (before ++ ops)) = some ops :=
    Text.slice?_eq_some_iff.mpr ⟨before, rest, hline, rfl, rfl⟩
  simp only [extend?, List.getLast?_concat, decide_true, Bool.and_self, ↓reduceIte, hslice,
    Access.get_some_bind, List.dropLast_concat]
  split <;> rfl

/-- Each of the characters `more` makes the operator longer that starts with `ops`. -/
def growsBy (ops : List Char) : List Char → Bool
  | [] => true
  | c :: more => isGrowth c && goesOn ops c && growsBy (ops ++ [c]) more

theorem read_growsBy (hs : s.string = none) (hline : line = before ++ ops ++ (more ++ rest))
    (hmore : growsBy ops more = true) :
    read line (s.push ⟨.operator, byteSize before, byteSize (before ++ ops)⟩)
        (byteSize (before ++ ops)) (more ++ rest) =
      read line (s.push ⟨.operator, byteSize before, byteSize (before ++ (ops ++ more))⟩)
        (byteSize (before ++ (ops ++ more))) rest := by
  induction more generalizing ops with
  | nil => rw [List.append_nil, List.nil_append]
  | cons c more ih =>
    simp only [growsBy, Bool.and_eq_true] at hmore
    obtain ⟨⟨hgrowth, hgoes⟩, hmore⟩ := hmore
    have hextend := extend?_push s.tokens c hline
    rw [if_pos hgoes] at hextend
    have hsize : byteSize (before ++ ops) + 1 = byteSize (before ++ (ops ++ [c])) := by
      have hc := utf8Size_of_mem_operatorChars (mem_operatorChars_of_isGrowth hgrowth)
      simp [hc, Nat.add_assoc]
    rw [List.cons_append, read_growth (s := s.push _) hs hgrowth hextend, hsize]
    refine (ih (by simp [hline]) hmore).trans ?_
    rw [List.append_assoc, List.singleton_append]

/-- The longest operator that a text starts with: each of its characters makes it longer, and the
one after it does not. -/
theorem exists_growsBy (hc : c ∈ operatorChars) (cs : List Char) :
    ∃ more rest, cs = more ++ rest ∧ operatorLength (c :: cs) = more.length + 1 ∧
      growsBy [c] more = true ∧
      ∀ d ∈ rest.head?, isGrowth d = true → goesOn (c :: more) d = false := by
  have hends : ∀ {ops rest : List Char}, ('=' ∈ rest.head? → goesOn ops '=' = false) →
      ('<' ∈ rest.head? → goesOn ops '<' = false) → ('>' ∈ rest.head? → goesOn ops '>' = false) →
      ∀ d ∈ rest.head?, isGrowth d = true → goesOn ops d = false := by
    intro ops rest heq hlt hgt d hd hgrowth
    simp only [isGrowth, Bool.or_eq_true, decide_eq_true_eq] at hgrowth
    rcases hgrowth with (rfl | rfl) | rfl
    exacts [heq hd, hlt hd, hgt hd]
  generalize hcs : c :: cs = chars
  -- one case for each operator of several characters, and one for all that are of one
  fun_cases operatorLength chars
  all_goals (try cases hcs)
  case case1 rest | case2 rest =>
    exact ⟨[_, _], rest, rfl, rfl, rfl, hends (fun _ => rfl) (fun _ => rfl) fun _ => rfl⟩
  case case3 rest h =>
    refine ⟨['<'], rest, rfl, rfl, rfl, hends (fun _ => rfl) (fun hd => ?_) fun _ => rfl⟩
    exact (h _ (List.eq_cons_of_mem_head? hd)).elim
  case case4 rest h =>
    refine ⟨['>'], rest, rfl, rfl, rfl, hends (fun _ => rfl) (fun _ => rfl) fun hd => ?_⟩
    exact (h _ (List.eq_cons_of_mem_head? hd)).elim
  case case5 rest | case6 rest | case7 rest | case8 rest =>
    exact ⟨['='], rest, rfl, rfl, rfl, hends (fun _ => rfl) (fun _ => rfl) fun _ => rfl⟩
  case case9 hlt hgt hlte hgte heq hne =>
    refine ⟨[], cs, rfl, rfl, rfl, hends (fun hd => ?_) (fun hd => ?_) fun hd => ?_⟩
    all_goals
      obtain ⟨rest, rfl⟩ : ∃ rest, cs = _ :: rest := ⟨_, List.eq_cons_of_mem_head? hd⟩
      simp only [goesOn, List.mem_cons, List.cons.injEq, and_true, List.not_mem_nil, or_false,
        List.all_cons, List.all_nil, Bool.and_true]
      grind
  case case10 => simp_all

end CharScanner

/-- The tokens of a line, read one character at a time. -/
def checkedScan (line : List Char) : Access (List Token) := CharScanner.read line {} 0 line

end Scan

end MacroAsm

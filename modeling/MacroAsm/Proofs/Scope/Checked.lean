import MacroAsm.Proofs.Scope.Reach
import MacroAsm.Proofs.Token.Checked

/-!
# Nesting with checked accesses

`Nest.nestFrom` nests the tokens of a line by their indices: it looks at the tokens before and after
one of them in the list of all tokens, and cuts texts out of the line between the offsets of several
of them. All these accesses are checked.

`checkedNest_eq`: for the tokens of a scanned line none of them is out of bounds, and the result is
that of `Scope.ofTokens`. All that it takes is that tokens lie between characters of the line and
come in order (`Nest.Cuts`).
-/

namespace MacroAsm

namespace Nest

open Text (byteSize isBoundary slice?)

/-! ## Nesting by index -/

section

variable (line : List Char) (tokens : List Token) (read : NumeralReader) (n : Nesting)
  (atHead : Bool)

def cut? (start stop : Nat) : Access String :=
  .get ((slice? line start stop).map String.ofList)

def opensOperand? : Access Bool :=
  match tokens.findIdx? Token.isSignificant with
  | none => return false
  | some k => do
    let t ← .get tokens[k]?
    if t.kind = .operator then
      let symbol ← cut? line t.start t.stop
      return symbol = "~" || symbol = "!" ||
        ((symbol = "-" || symbol = "+") &&
          tokens[k + 1]?.any fun next => next.start = t.stop && next.kind.opensValue)
    else return t.kind.opensValue

/-- Where a numeral ends that starts with the token `t` at index `i`, and how many of the following
tokens it takes. -/
def numeralEndAt (t : Token) (i : Nat) : Nat × Nat :=
  match tokens[i + 1]?, tokens[i + 2]? with
  | some dot, some fraction =>
    if dot.kind = .dot && fraction.kind = .number && dot.start = t.stop &&
        fraction.start = dot.stop then (fraction.stop, 2)
    else (t.stop, 0)
  | _, _ => (t.stop, 0)

def numberAt (i : Nat) : Access (Nesting × Nat) := do
  let t ← .get tokens[i]?
  let (stop, taken) := numeralEndAt tokens t i
  let text ← cut? line t.start stop
  match read text with
  | .ok (value, width) => return (n.addLeaf .number (some (.number ⟨text, value, width⟩)), taken)
  | .error cause => .result (.error (.badNumeral text cause t.start))

def suffixAt (i : Nat) : Access (Option String × Nat) :=
  if tokens[i + 1]?.any (·.kind = .dot) then
    match tokens[i + 2]? with
    | some run =>
      if run.kind = .name || run.kind = .number then do
        let part ← cut? line run.start run.stop
        return (some part, 2)
      else return (some "", 1)
    | none => return (some "", 1)
  else return (none, 0)

/-- Adds the name that starts at offset `start` and ends with the token at index `i`, and says how
many of the following tokens belong to it. -/
def nameAt (i start : Nat) : Access (Nesting × Nat) := do
  let t ← .get tokens[i]?
  let text ← cut? line start t.stop
  let (size, taken) ← suffixAt line tokens i
  let plain :=
    match size with
    | some part => n.addLeaf .operator (some (.binary .field (.text text) (.text part)))
    | none => n.addLeaf .text (some (.text text))
  let last := i + taken
  if tokens[last + 1]?.any (·.kind = .openParen) then
    let paren ← .get tokens[last + 1]?
    return (n.openCall text size false paren.start, taken + 1)
  else if atHead && n.frames.isEmpty && tokens[last + 1]?.any (·.kind = .blank) then
    if ← opensOperand? line (tokens.drop (last + 2)) then
      return (n.openCall text size true start, taken)
    else return (plain, taken)
  else return (plain, taken)

def gluedAt (t : Token) (i : Nat) : Access Bool :=
  if 0 < i then do
    let b ← .get tokens[i - 1]?
    return b.stop = t.start && b.kind.endsValue
  else return false

def dotAt (i : Nat) : Access (Nesting × Nat) := do
  let t ← .get tokens[i]?
  if ← gluedAt tokens t i then return (n.addLeaf .operator (some (.bare .field)), 0)
  else if tokens[i + 1]?.any (·.kind = .name) then
    let (n, taken) ← nameAt line tokens n atHead (i + 1) t.start
    return (n, taken + 1)
  else .result (.error (.unknownOperator "." t.start))

def tokenAt (i : Nat) : Access (Nesting × Nat) := do
  let t ← .get tokens[i]?
  match t.kind with
  | .string =>
    let text ← cut? line t.start t.stop
    return (n.addLeaf .string (some (.string (Text.unescaped text.toList))), 0)
  | .number => numberAt line tokens read n i
  | .operator =>
    let symbol ← cut? line t.start t.stop
    match Operator.ofSymbol? symbol with
    | some o => return (n.addLeaf .operator (some (.bare o)), 0)
    | none => .result (.error (.unknownOperator symbol t.start))
  | .name => nameAt line tokens n atHead i t.start
  | .dot => dotAt line tokens n atHead i
  -- the others look at nothing but themselves
  | _ => .result (addToken (fun _ _ => "") read n atHead none t [])

end

/-- Nests the tokens from index `i` on. -/
def nestFrom (line : List Char) (tokens : List Token) (read : NumeralReader) (n : Nesting)
    (atHead : Bool) (i : Nat) : Access Nesting :=
  if i < tokens.length then do
    let t ← .get tokens[i]?
    let (n, taken) ← tokenAt line tokens read n atHead i
    nestFrom line tokens read n (headAfter atHead t.kind) (i + taken + 1)
  else return n
termination_by tokens.length - i

end Nest

/-- Nests the tokens of a line by their indices. -/
def checkedNest (line : List Char) (tokens : List Token) (read : NumeralReader) : Access Scope := do
  let n ← Nest.nestFrom line tokens read {} true 0
  .result (Nest.Nesting.closeAll n.items n.frames)

namespace Nest

open Text (byteSize isBoundary slice?)

variable {line : List Char} {tokens front back : List Token} {read : NumeralReader}
  {n : Nesting} {atHead : Bool} {t : Token} {start stop i : Nat}

/-! ## In bounds -/

/-- Tokens that lie between characters of the line and start one after the other. -/
structure Cuts (line : List Char) (tokens : List Token) : Prop where
  within : ∀ t ∈ tokens, t.start ≤ t.stop ∧ isBoundary line t.start = true ∧
    isBoundary line t.stop = true
  order : tokens.Pairwise fun t u => t.start ≤ u.start

theorem cut?_eq (hle : start ≤ stop) (hstart : isBoundary line start = true)
    (hstop : isBoundary line stop = true) :
    cut? line start stop = .result (.ok (cutLine line start stop)) := by
  simp only [cut?, slice?, hle, hstart, hstop, decide_true, Bool.and_self, ↓reduceIte]
  rfl

theorem Cuts.cut?_eq (h : Cuts line tokens) (ht : t ∈ tokens) :
    cut? line t.start t.stop = .result (.ok (cutLine line t.start t.stop)) := by
  obtain ⟨hle, hstart, hstop⟩ := h.within t ht
  exact Nest.cut?_eq hle hstart hstop

theorem Cuts.sublist (h : Cuts line tokens) (hsub : back.Sublist tokens) : Cuts line back :=
  ⟨fun t ht => h.within t (hsub.subset ht), h.order.sublist hsub⟩

theorem getElem?_append_add {α : Type} (front back : List α) (k : Nat) :
    (front ++ back)[front.length + k]? = back[k]? := by
  rw [List.getElem?_append_right (Nat.le_add_right ..), Nat.add_sub_cancel_left]

theorem opensOperand?_eq (h : Cuts line back) :
    opensOperand? line back = .result (.ok (opensOperand (cutLine line) back)) := by
  have hskip : ∀ t ∈ back.takeWhile fun t => !t.isSignificant, t.isSignificant = false := by
    intro t ht
    simpa using List.mem_takeWhile_imp ht
  have hsplit := List.takeWhile_append_dropWhile (p := fun t : Token => !t.isSignificant)
    (l := back)
  have hhead := List.head?_dropWhile_not (fun t : Token => !t.isSignificant) back
  unfold opensOperand? opensOperand
  generalize (back.takeWhile fun t => !t.isSignificant) = blanks at hskip hsplit
  generalize (back.dropWhile fun t => !t.isSignificant) = rest at hsplit hhead ⊢
  subst hsplit
  have hnone : blanks.findIdx? Token.isSignificant = none := List.findIdx?_eq_none_iff.mpr hskip
  rw [List.findIdx?_append, hnone]
  cases rest with
  | nil => rfl
  | cons t rest =>
    have ht : t.isSignificant = true := by simpa using hhead
    have hfind : (t :: rest).findIdx? Token.isSignificant = some 0 := by
      rw [List.findIdx?_cons, ht]
      rfl
    have hget : (blanks ++ t :: rest)[0 + blanks.length]? = some t := by simp
    have hnext : (blanks ++ t :: rest)[0 + blanks.length + 1]? = rest.head? := by
      rw [Nat.zero_add, getElem?_append_add, List.head?_eq_getElem?]
      rfl
    have hcut := h.cut?_eq (t := t) (by simp)
    simp only [hfind, Option.none_or, Option.map_some, hget, hnext, hcut, Access.get_some_bind,
      Access.result_ok_bind]
    split <;> rfl

/-! ## One token -/

theorem numeralEndAt_eq (front back : List Token) (t : Token) :
    numeralEndAt (front ++ t :: back) t front.length = numeralEnd t back := by
  unfold numeralEndAt numeralEnd
  rw [getElem?_append_add, getElem?_append_add]
  rcases back with _ | ⟨dot, _ | ⟨fraction, back⟩⟩ <;> rfl

theorem numeralEnd_eq (t : Token) (back : List Token) :
    numeralEnd t back = (t.stop, 0) ∨ ∃ dot ∈ back, ∃ fraction ∈ back,
      dot.start = t.stop ∧ fraction.start = dot.stop ∧
        numeralEnd t back = (fraction.stop, 2) := by
  unfold numeralEnd
  split
  next dot fraction back =>
    split
    next hglued =>
      simp only [Bool.and_eq_true, decide_eq_true_eq] at hglued
      exact .inr ⟨dot, by simp, fraction, by simp, hglued.1.2, hglued.2, rfl⟩
    next => exact .inl rfl
  next => exact .inl rfl

theorem Cuts.cut?_numeral (h : Cuts line (front ++ t :: back)) :
    cut? line t.start (numeralEnd t back).1 =
      .result (.ok (cutLine line t.start (numeralEnd t back).1)) := by
  obtain ⟨hle, hstart, -⟩ := h.within t (by simp)
  rcases numeralEnd_eq t back with heq | ⟨dot, hdot, fraction, hfraction, hglued, hglued', heq⟩
  · rw [heq]
    exact h.cut?_eq (by simp)
  · have hdot := (h.within dot (by simp [hdot])).1
    obtain ⟨hle', -, hstop⟩ := h.within fraction (by simp [hfraction])
    rw [heq]
    exact Nest.cut?_eq (by omega) hstart hstop

theorem getElem?_front (front : List Token) (t : Token) (back : List Token) :
    (front ++ t :: back)[front.length]? = some t := getElem?_append_add front (t :: back) 0

theorem numberAt_eq (h : Cuts line (front ++ t :: back)) (hkind : t.kind = .number) :
    numberAt line (front ++ t :: back) read n front.length =
      .result (addToken (cutLine line) read n atHead front.getLast? t back) := by
  have hcut := h.cut?_numeral
  unfold numberAt addToken
  rw [getElem?_front, hkind, Access.get_some_bind, numeralEndAt_eq]
  cases hend : numeralEnd t back with
  | mk stop taken =>
    rw [hend] at hcut
    simp only [hcut, Access.result_ok_bind]
    cases read (cutLine line t.start stop) <;> rfl

theorem suffixAt_eq (h : Cuts line back) :
    suffixAt line (front ++ t :: back) front.length =
      .result (.ok (sizeSuffix (cutLine line) back)) := by
  unfold suffixAt
  rw [getElem?_append_add, getElem?_append_add]
  unfold sizeSuffix
  cases back with
  | nil => rfl
  | cons dot back =>
    simp only [List.getElem?_cons_zero, List.getElem?_cons_succ, Option.any_some, decide_eq_true_eq]
    split
    · cases back with
      | nil => rfl
      | cons run back =>
        simp only [List.getElem?_cons_zero, List.head?_cons]
        split
        · rw [h.cut?_eq (by simp), Access.result_ok_bind]
          rfl
        · rfl
    · rfl

theorem nameAt_eq (h : Cuts line (front ++ t :: back)) (hstart : isBoundary line start = true)
    (hle : start ≤ t.stop) :
    nameAt line (front ++ t :: back) n atHead front.length start =
      .result (.ok (addName (cutLine line) n atHead start t back)) := by
  have hback : Cuts line back := h.sublist (by simp)
  have hcut := Nest.cut?_eq hle hstart (h.within t (by simp)).2.2
  unfold nameAt addName
  rw [getElem?_front, Access.get_some_bind, hcut, Access.result_ok_bind, suffixAt_eq hback,
    Access.result_ok_bind]
  cases sizeSuffix (cutLine line) back with
  | mk size taken =>
    simp only
    have hnext : (front ++ t :: back)[front.length + taken + 1]? = (back.drop taken).head? := by
      rw [Nat.add_assoc, getElem?_append_add, List.head?_drop]
      rfl
    have hafter : (front ++ t :: back).drop (front.length + taken + 2) =
        (back.drop taken).tail := by
      rw [Nat.add_assoc, List.drop_length_add_append, List.tail_drop]
      rfl
    rw [hnext, hafter]
    cases hdrop : back.drop taken with
    | nil =>
      rw [List.head?_nil, Option.any_none, Option.any_none, Bool.and_false]
      rfl
    | cons next after =>
      have hsub : after.Sublist back :=
        (List.sublist_cons_self next after).trans (hdrop ▸ List.drop_sublist taken back)
      have hopens := opensOperand?_eq (hback.sublist hsub)
      rw [List.head?_cons, List.tail_cons, Option.any_some, Option.any_some, hopens]
      by_cases hparen : next.kind = .openParen
      · simp only [hparen, decide_true, ↓reduceIte]
        rfl
      · simp only [hparen, decide_false, Bool.false_eq_true, ↓reduceIte]
        by_cases hhead : (atHead && n.frames.isEmpty && decide (next.kind = .blank)) = true
        · rw [if_pos hhead, hhead, Bool.true_and, Access.result_ok_bind]
          split <;> rfl
        · rw [if_neg hhead, Bool.eq_false_iff.mpr hhead, Bool.false_and]
          rfl

theorem gluedAt_eq (front : List Token) (t : Token) (back : List Token) :
    gluedAt (front ++ t :: back) t front.length = .result (.ok (isGlued front.getLast? t)) := by
  unfold gluedAt isGlued
  rcases List.eq_nil_or_concat' front with rfl | ⟨front, b, rfl⟩
  · rfl
  · have hget : (front ++ [b] ++ t :: back)[(front ++ [b]).length - 1]? = some b := by simp
    rw [if_pos (by simp), hget, List.getLast?_concat]
    rfl

theorem dotAt_eq (h : Cuts line (front ++ t :: back)) (hkind : t.kind = .dot) :
    dotAt line (front ++ t :: back) n atHead front.length =
      .result (addToken (cutLine line) read n atHead front.getLast? t back) := by
  unfold dotAt addToken
  rw [getElem?_front, hkind, Access.get_some_bind, gluedAt_eq, Access.result_ok_bind,
    getElem?_append_add]
  simp only
  split
  · rfl
  · cases back with
    | nil => rfl
    | cons next rest =>
      simp only [List.getElem?_cons_succ, List.getElem?_cons_zero, Option.any_some,
        decide_eq_true_eq]
      split
      next hname =>
        obtain ⟨-, hstart, -⟩ := h.within t (by simp)
        have hle : t.start ≤ next.stop := by
          have hnext := (h.within next (by simp)).1
          have horder := (List.pairwise_append.mp h.order).2.1
          have hbefore := (List.pairwise_cons.mp horder).1 next (by simp)
          omega
        have hsplit : front ++ t :: next :: rest = (front ++ [t]) ++ next :: rest := by simp
        have hlength : front.length + 1 = (front ++ [t]).length := by simp
        rw [hsplit] at h ⊢
        rw [hlength, nameAt_eq h hstart hle]
        rfl
      · rfl

theorem tokenAt_eq (h : Cuts line (front ++ t :: back)) :
    tokenAt line (front ++ t :: back) read n atHead front.length =
      .result (addToken (cutLine line) read n atHead front.getLast? t back) := by
  unfold tokenAt
  rw [getElem?_front, Access.get_some_bind]
  have hcut := h.cut?_eq (t := t) (by simp)
  cases hkind : t.kind
  case string =>
    simp only [hcut, Access.result_ok_bind, addToken, hkind]
    rfl
  case operator =>
    simp only [hcut, Access.result_ok_bind, addToken, hkind]
    cases Operator.ofSymbol? (cutLine line t.start t.stop) <;> rfl
  case number => exact numberAt_eq h hkind
  case dot => exact dotAt_eq h hkind
  case name =>
    obtain ⟨hle, hstart, -⟩ := h.within t (by simp)
    simp only [nameAt_eq h hstart hle, addToken, hkind]
  all_goals simp only [addToken, hkind]

/-! ## All tokens -/

theorem nestFrom_eq (front : List Token) (h : Cuts line (front ++ back)) :
    nestFrom line (front ++ back) read n atHead front.length =
      .result (addTokens (cutLine line) read n atHead front.getLast? 0 back) := by
  -- a token may take several of those after it, so the induction is on how many are left
  induction hlength : back.length using Nat.strong_induction_on
    generalizing front n atHead back with
  | _ k ih =>
    rw [nestFrom]
    cases back with
    | nil =>
      rw [List.append_nil, if_neg (Nat.lt_irrefl _)]
      rfl
    | cons t back =>
      rw [if_pos (by simp), getElem?_front, Access.get_some_bind, tokenAt_eq h]
      cases hadd : addToken (cutLine line) read n atHead front.getLast? t back with
      | error fault => rw [Access.result_error_bind, addTokens, hadd]
      | ok result =>
        obtain ⟨n', taken⟩ := result
        have hsplit : front ++ t :: back = front ++ t :: back.take taken ++ back.drop taken := by
          simp
        have hstop : front.length + taken + 1 = (front ++ t :: back.take taken).length := by
          have hle := List.length_take_of_le (addToken_le hadd)
          simp [hle, Nat.add_assoc]
        rw [Access.result_ok_bind, addTokens_step hadd]
        simp only
        rw [hstop, hsplit]
        rw [hsplit] at h
        refine ih _ ?_ _ h rfl
        rw [← hlength, List.length_drop, List.length_cons]
        omega

theorem cuts_of_scan (h : scan line = .ok tokens) : Cuts line tokens where
  within := by
    intro t ht
    obtain ⟨before, text, after, rfl, hstart, hstop, -⟩ := ((Scan.occurs_of_scan h).1 t ht).spells
    have hstop' := Text.isBoundary_append (before ++ text) after
    have hstart' := Text.isBoundary_append before (text ++ after)
    rw [← List.append_assoc] at hstart'
    rw [hstart, hstop]
    exact ⟨by simp, hstart', hstop'⟩
  order := (Scan.scan_inOrder h).start_lt.imp Nat.le_of_lt

end Nest

/-- No access to the tokens of a scanned line is out of bounds, and they are nested as by
`Scope.ofTokens`. -/
theorem checkedNest_eq {line : List Char} {tokens : List Token} (read : NumeralReader)
    (h : scan line = .ok tokens) :
    checkedNest line tokens read = .result (Scope.ofTokens (cutLine line) read tokens) := by
  have hnest : Nest.nestFrom line tokens read {} true 0 =
      .result (Nest.addTokens (cutLine line) read {} true none 0 tokens) :=
    Nest.nestFrom_eq [] (Nest.cuts_of_scan h)
  rw [checkedNest, Scope.ofTokens, hnest]
  cases Nest.addTokens (cutLine line) read {} true none 0 tokens <;> rfl

end MacroAsm

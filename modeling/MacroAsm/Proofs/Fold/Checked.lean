import MacroAsm.Fold.Walk
import MacroAsm.Proofs.Fold.Turns

/-!
# Folding with checked accesses

`Fold.attach?` lets the slot at an index take what it can: it looks at the slots next to it, removes
those that it takes, and then changes the slot at the place where it is now. Accesses to slots are
checked, also those to the list after a removal.

`checkedRow_eq`: whatever the row, no access is out of bounds, and the row is folded as by
`foldRow`. A slot that is picked is there, what it takes is next to it, and a removal on its left
moves it by one (`attach?_eq`).
-/

namespace MacroAsm

namespace Fold

/-! ## Slots -/

section

variable (labels : Bool) (slots : List Entry)

/-- The index of the leftmost slot that binds tightest. -/
def pick : Option Nat :=
  match tightest? labels slots with
  | some looseness => slots.findIdx? fun e => (e.looseness? labels).any (· = looseness)
  | none => none

def completeAt (k : Nat) : Bool := slots[k]?.any (·.term.isComplete)

/-- Removes the slot at index `k`, and gives its node. -/
def takeNode? (k : Nat) : Option (Option Node × List Entry) := do
  let e ← slots[k]?
  return (e.term.node?, slots.eraseIdx k)

def takeIf? (takes : Bool) (k : Nat) : Option (Option Node × List Entry) :=
  if takes then takeNode? slots k else some (none, slots)

/-- Gives the operator at index `k` operands. -/
def setOperands? (k : Nat) (left right : Option Node) : Option (List Entry) := do
  let e ← slots[k]?
  match e.term with
  | .node (.op o l r) =>
    return slots.set k { e with term := .node (.op o (left.or l) (right.or r)) }
  | _ => return slots

/-- Lets the operator at index `k` take the neighbours that it needs and can take, and says whether
it has taken any. -/
def attachOperator? (k : Nat) (needsLeft needsRight : Bool) : Option (Bool × List Entry) :=
  let takesRight := needsRight && completeAt slots (k + 1)
  let takesLeft := needsLeft && (decide (0 < k) && completeAt slots (k - 1))
  if !takesRight && !takesLeft then some (false, slots)
  else do
    let (right, slots) ← takeIf? slots takesRight (k + 1)
    let (left, slots) ← takeIf? slots takesLeft (k - 1)
    let slots ← setOperands? slots (if takesLeft then k - 1 else k) left right
    return (true, slots)

/-- Removes the name before the label mark at index `k`, and puts the label in its place. -/
def setLabel? (k : Nat) (target : Option Node) : Option (Bool × List Entry) := do
  let (name?, slots) ← takeNode? slots (k - 1)
  match name? with
  | none => return (false, slots)
  | some name =>
    let e ← slots[k - 1]?
    return (true, slots.set (k - 1) { e with term := .node (.label name target) })

/-- Lets the label mark at index `k` take the name before it and its target, if there is one, and
says whether it has taken them. -/
def attachLabel? (k : Nat) : Option (Bool × List Entry) :=
  if !(decide (0 < k) && completeAt slots (k - 1)) then some (false, slots)
  else
    match slots[k + 1]? with
    | none => setLabel? slots k none
    | some e =>
      if e.term.isTarget then do
        let (target, slots) ← takeNode? slots (k + 1)
        setLabel? slots k target
      else some (false, slots)

/-- Lets the slot at index `k` take what it can, and says whether it has taken anything. -/
def attach? (k : Nat) : Option (Bool × List Entry) := do
  let e ← slots[k]?
  match e.term with
  | .mark => attachLabel? slots k
  | .node (.op o l r) => attachOperator? slots k (!o.isUnary && l.isNone) r.isNone
  | .node _ => return (false, slots)

/-- Takes one turn, unless there is nothing to do any more. -/
def turnSlots? : Option (Option (List Entry)) :=
  match pick labels slots with
  | none => return none
  | some k => do
    let (attached, slots) ← attach? slots k
    if attached then return some (slots.map fun e => .fresh e.term)
    let e ← slots[k]?
    return some (slots.set k { e with passed := true })

end

variable {labels : Bool} {slots next : List Entry}

/-! ## The slots around a pivot -/

theorem getElem?_pivot (left : List Entry) (e : Entry) (right : List Entry) :
    (left.reverse ++ e :: right)[left.length]? = some e := by
  simp

theorem getElem?_pivot_succ (left : List Entry) (e : Entry) (right : List Entry) :
    (left.reverse ++ e :: right)[left.length + 1]? = right.head? := by
  rw [List.getElem?_append_right (by simp)]
  simp [List.head?_eq_getElem?]

theorem completeAt_succ (left : List Entry) (e : Entry) (right : List Entry) :
    completeAt (left.reverse ++ e :: right) (left.length + 1) =
      right.head?.any (·.term.isComplete) := by
  rw [completeAt, getElem?_pivot_succ]

theorem completeAt_pred (left : List Entry) (e : Entry) (right : List Entry) :
    (decide (0 < left.length) && completeAt (left.reverse ++ e :: right) (left.length - 1)) =
      left.head?.any (·.term.isComplete) := by
  cases left with
  | nil => rfl
  | cons d left => simp [completeAt]

theorem takeNode?_succ (left : List Entry) (e d : Entry) (right : List Entry) :
    takeNode? (left.reverse ++ e :: d :: right) (left.length + 1) =
      some (d.term.node?, left.reverse ++ e :: right) := by
  have hsplit : left.reverse ++ e :: d :: right = (e :: left).reverse ++ d :: right := by simp
  have hlength : left.length + 1 = (e :: left).length := rfl
  rw [hsplit, hlength, takeNode?, getElem?_pivot, List.eraseIdx_append_of_length_le (by simp)]
  simp

theorem takeNode?_pred (left : List Entry) (e d : Entry) (right : List Entry) :
    takeNode? ((d :: left).reverse ++ e :: right) ((d :: left).length - 1) =
      some (d.term.node?, left.reverse ++ e :: right) := by
  have hsplit : (d :: left).reverse ++ e :: right = left.reverse ++ d :: e :: right := by simp
  have hlength : (d :: left).length - 1 = left.length := rfl
  rw [hsplit, hlength, takeNode?, getElem?_pivot, List.eraseIdx_append_of_length_le (by simp)]
  simp

theorem set_pivot (left : List Entry) (e d : Entry) (right : List Entry) :
    (left.reverse ++ e :: right).set left.length d = left.reverse ++ d :: right := by
  rw [List.set_append_right _ _ (by simp)]
  simp

/-- What an operator takes from one side, and what is left there. -/
def takeSide (needs : Bool) (entries : List Entry) : Option Node × List Entry :=
  match if needs then takeComplete? entries else none with
  | some (n, rest) => (some n, rest)
  | none => (none, entries)

theorem takeComplete?_cases (entries : List Entry) :
    (∃ n passed rest, entries = ⟨.node n, passed⟩ :: rest ∧
        entries.head?.any (·.term.isComplete) = true ∧ takeComplete? entries = some (n, rest)) ∨
      entries.head?.any (·.term.isComplete) = false ∧ takeComplete? entries = none := by
  rcases entries with _ | ⟨⟨n | _, passed⟩, rest⟩
  · exact .inr ⟨rfl, rfl⟩
  · by_cases hn : n.isComplete = true
    · exact .inl ⟨n, passed, rest, rfl, by simp [Term.isComplete, hn], by simp [takeComplete?, hn]⟩
    · exact .inr ⟨by simp [Term.isComplete, hn], by simp [takeComplete?, hn]⟩
  · exact .inr ⟨rfl, rfl⟩

theorem takeSide_cases (needs : Bool) (entries : List Entry) :
    (∃ n passed rest, (needs && entries.head?.any (·.term.isComplete)) = true ∧
        entries = ⟨.node n, passed⟩ :: rest ∧ takeSide needs entries = (some n, rest)) ∨
      (needs && entries.head?.any (·.term.isComplete)) = false ∧
        takeSide needs entries = (none, entries) := by
  unfold takeSide
  cases needs with
  | false => exact .inr ⟨rfl, rfl⟩
  | true =>
    rcases takeComplete?_cases entries with ⟨n, passed, rest, heq, hhead, htake⟩ | ⟨hhead, htake⟩
    · exact .inl ⟨n, passed, rest, by rw [hhead, Bool.true_and], heq, by rw [if_pos rfl, htake]⟩
    · exact .inr ⟨by rw [hhead, Bool.and_false], by rw [if_pos rfl, htake]⟩

theorem isNone_takeSide (needs : Bool) (entries : List Entry) :
    (takeSide needs entries).1.isNone = !(needs && entries.head?.any (·.term.isComplete)) := by
  rcases takeSide_cases needs entries with ⟨n, passed, rest, htakes, -, hside⟩ | ⟨hnone, hside⟩
  · rw [hside, htakes]
    rfl
  · rw [hside, hnone]
    rfl

theorem takeIf?_succ (needs : Bool) (left : List Entry) (e : Entry) (right : List Entry) :
    takeIf? (left.reverse ++ e :: right) (needs && right.head?.any (·.term.isComplete))
        (left.length + 1) =
      some ((takeSide needs right).1, left.reverse ++ e :: (takeSide needs right).2) := by
  rcases takeSide_cases needs right with ⟨n, passed, rest, htakes, rfl, hside⟩ | ⟨hnone, hside⟩
  · rw [takeIf?, if_pos htakes, hside, takeNode?_succ]
    rfl
  · rw [takeIf?, hnone, hside]
    rfl

theorem takeIf?_pred (needs : Bool) (left : List Entry) (e : Entry) (right : List Entry) :
    takeIf? (left.reverse ++ e :: right) (needs && left.head?.any (·.term.isComplete))
        (left.length - 1) =
      some ((takeSide needs left).1, (takeSide needs left).2.reverse ++ e :: right) ∧
    (if needs && left.head?.any (·.term.isComplete) then left.length - 1 else left.length) =
      (takeSide needs left).2.length := by
  rcases takeSide_cases needs left with ⟨n, passed, rest, htakes, rfl, hside⟩ | ⟨hnone, hside⟩
  · rw [takeIf?, if_pos htakes, if_pos htakes, hside, takeNode?_pred]
    exact ⟨rfl, rfl⟩
  · rw [takeIf?, hnone, hside]
    exact ⟨rfl, rfl⟩

/-! ## What a slot takes -/

theorem takeOperands?_eq (left right : List Entry) (o : Operator) (l r : Option Node) :
    Pivot.takeOperands? left right o l r =
      let fromLeft := takeSide (!o.isUnary && l.isNone) left
      let fromRight := takeSide r.isNone right
      if fromRight.1.isNone && fromLeft.1.isNone then none
      else some (Pivot.row fromLeft.2
        (.fresh (.node (.op o (fromLeft.1.or l) (fromRight.1.or r)))) fromRight.2) := by
  unfold Pivot.takeOperands? takeSide
  generalize (if (!o.isUnary && l.isNone) = true then takeComplete? left else none) = fromLeft
  generalize (if r.isNone = true then takeComplete? right else none) = fromRight
  rcases fromLeft with _ | ⟨n, left⟩ <;> rcases fromRight with _ | ⟨m, right⟩ <;> rfl

theorem setOperands?_eq (left right : List Entry) (o : Operator) (l r l' r' : Option Node) :
    setOperands? (left.reverse ++ ⟨.node (.op o l r), false⟩ :: right) left.length l' r' =
      some (Pivot.row left (.fresh (.node (.op o (l'.or l) (r'.or r)))) right) := by
  rw [setOperands?, getElem?_pivot, Pivot.row, List.reverseAux_eq]
  simp only [Option.bind_eq_bind, Option.bind_some, set_pivot]
  rfl

theorem attachOperator?_eq (left right : List Entry) (o : Operator) (l r : Option Node) :
    attachOperator? (left.reverse ++ ⟨.node (.op o l r), false⟩ :: right) left.length
        (!o.isUnary && l.isNone) r.isNone =
      some (match Pivot.takeOperands? left right o l r with
        | some next => (true, next)
        | none => (false, left.reverse ++ ⟨.node (.op o l r), false⟩ :: right)) := by
  obtain ⟨htake, hpivot⟩ := takeIf?_pred (!o.isUnary && l.isNone) left ⟨.node (.op o l r), false⟩
    (takeSide r.isNone right).2
  unfold attachOperator?
  rw [takeOperands?_eq]
  simp only [completeAt_succ, completeAt_pred, isNone_takeSide, takeIf?_succ, htake, hpivot,
    setOperands?_eq, Option.bind_eq_bind, Option.bind_some]
  split <;> rfl

theorem setLabel?_eq (left right : List Entry) (name : Node) (passed : Bool)
    (target : Option Node) :
    setLabel? ((⟨.node name, passed⟩ :: left).reverse ++ ⟨.mark, false⟩ :: right)
        (⟨.node name, passed⟩ :: left : List Entry).length target =
      some (true, Pivot.row left (.fresh (.node (.label name target))) right) := by
  rw [setLabel?, takeNode?_pred, Pivot.row, List.reverseAux_eq]
  simp only [Option.bind_eq_bind, Option.bind_some, Term.node?, List.length_cons,
    Nat.add_sub_cancel, getElem?_pivot, set_pivot]
  rfl

theorem attachLabel?_eq (left right : List Entry) :
    attachLabel? (left.reverse ++ ⟨.mark, false⟩ :: right) left.length =
      some (match Pivot.takeTarget? left right with
        | some next => (true, next)
        | none => (false, left.reverse ++ ⟨.mark, false⟩ :: right)) := by
  unfold attachLabel? Pivot.takeTarget?
  rw [getElem?_pivot_succ, completeAt_pred]
  rcases takeComplete?_cases left with ⟨name, passed, left, rfl, hhead, htake⟩ | ⟨hhead, htake⟩
  · rw [hhead, htake]
    rcases right with _ | ⟨⟨target | _, passed'⟩, right⟩
    · exact setLabel?_eq left [] name passed none
    · have htarget : (Term.node target).isTarget =
          (target.isComplete || lacksLeftSide target) := rfl
      simp only [Bool.not_true, Bool.false_eq_true, ↓reduceIte, List.head?_cons, htarget]
      split
      · rw [takeNode?_succ]
        exact setLabel?_eq left right name passed (some target)
      · rfl
    · rfl
  · rw [hhead, htake]
    rfl

/-- A slot takes what the pivot of the row takes. -/
theorem attach?_eq (p : Pivot) :
    attach? (p.left.reverse ++ ⟨p.term, false⟩ :: p.right) p.left.length =
      some (match p.take? with
        | some next => (true, next)
        | none => (false, p.left.reverse ++ ⟨p.term, false⟩ :: p.right)) := by
  obtain ⟨left, term, right⟩ := p
  unfold attach? Pivot.take?
  rw [getElem?_pivot]
  rcases term with n | _
  · cases n
    case op o l r => exact attachOperator?_eq left right o l r
    all_goals rfl
  · exact attachLabel?_eq left right

/-! ## Turns -/

theorem firstAt_eq (labels : Bool) (looseness : Nat) (left entries : List Entry) :
    (entries.findIdx? fun e => (e.looseness? labels).any (· = looseness)).map (left.length + ·) =
      match firstAt labels looseness left entries with
      | .settled _ => none
      | .pivot p => some p.left.length := by
  fun_induction firstAt labels looseness left entries with
  | case1 => rfl
  | case2 left e right he =>
    rw [List.findIdx?_cons, if_pos he]
    rfl
  | case3 left e right he ih =>
    rw [← ih, List.findIdx?_cons, if_neg he, Option.map_map]
    congr 1
    funext k
    simp [Nat.add_assoc, Nat.add_comm 1]

theorem pick_eq (labels : Bool) (slots : List Entry) :
    pick labels slots =
      match turn labels slots with
      | .settled _ => none
      | .pivot p => some p.left.length := by
  unfold pick turn
  cases tightest? labels slots with
  | none => rfl
  | some looseness => simpa using firstAt_eq labels looseness [] slots

theorem turnSlots?_eq (labels : Bool) (slots : List Entry) :
    turnSlots? labels slots = some (match turn labels slots with
      | .settled _ => none
      | .pivot p =>
        match p.take? with
        | some next => some (next.map fun e => .fresh e.term)
        | none => some p.passedOver) := by
  unfold turnSlots?
  rw [pick_eq]
  cases hturn : turn labels slots with
  | settled => rfl
  | pivot p =>
    obtain ⟨hslots, -⟩ := eq_of_turn_pivot hturn
    have hpassed : p.left.reverse ++ ⟨p.term, true⟩ :: p.right = p.passedOver := by
      rw [Pivot.passedOver, Pivot.row, List.reverseAux_eq]
    have hattach := attach?_eq p
    rw [← hslots] at hattach
    simp only [hattach, Option.bind_eq_bind, Option.bind_some]
    cases p.take? with
    | some next => rfl
    | none =>
      simp only [Bool.false_eq_true, ↓reduceIte]
      rw [hslots, getElem?_pivot, Option.bind_some, set_pivot, hpassed]
      rfl

theorem turns_of_turnSlots? (h : turnSlots? labels slots = some (some next)) :
    Turns labels slots next := by
  rw [turnSlots?_eq, Option.some_inj] at h
  split at h
  next => cases h
  next p hturn =>
    split at h
    next htake =>
      cases h
      exact .takes hturn htake
    next htake =>
      cases h
      exact .passes hturn htake

/-- Folds the slots as far as they go. -/
def resolve? (labels : Bool) (slots : List Entry) : Option (List Term) :=
  match _h : turnSlots? labels slots with
  | none => none
  | some none => some (slots.map (·.term))
  | some (some slots) => resolve? labels slots
termination_by workLeft slots
decreasing_by exact (turns_of_turnSlots? _h).workLeft_lt

theorem resolve?_eq (labels : Bool) (slots : List Entry) :
    resolve? labels slots = some (foldEntries labels slots) := by
  fun_induction foldEntries labels slots with
  | case1 slots last hturn =>
    obtain ⟨rfl, -⟩ := eq_of_turn_settled hturn
    have hnone : turnSlots? labels last = some none := by rw [turnSlots?_eq, hturn]
    rw [resolve?, hnone]
  | case2 slots p hturn next htake ih =>
    have hsome : turnSlots? labels slots = some (some (next.map fun e => .fresh e.term)) := by
      rw [turnSlots?_eq, hturn]
      simp only [htake]
    rw [resolve?, hsome]
    exact ih
  | case3 slots p hturn htake ih =>
    have hsome : turnSlots? labels slots = some (some p.passedOver) := by
      rw [turnSlots?_eq, hturn]
      simp only [htake]
    rw [resolve?, hsome]
    exact ih

def checkedRow (labels : Bool) (terms : List Term) : Option (List Term) :=
  resolve? labels ((signs terms).map .fresh)

/-- No access to the slots of a row is out of bounds, and the row is folded as by `foldRow`. -/
theorem checkedRow_eq (labels : Bool) (terms : List Term) :
    checkedRow labels terms = some (foldRow labels terms) :=
  resolve?_eq labels ((signs terms).map .fresh)

/-! ## The walk -/

def foldTerms? (place : Place) (terms : List Term) : Option (Except Obstacle (Option Node)) :=
  match place with
  | .call name size => some (.ok (some (.call name size (terms.filterMap Term.node?))))
  | place => do
    match ← checkedRow (place = .line) terms with
    | [] => return foldEmpty place
    | [.mark] => return .error (.bareMark place)
    | [.node n] =>
      return if n.isComplete then .ok (some (wrap place n)) else .error (.incomplete place n)
    | terms => return .error (.several place terms.length)

theorem foldTerms?_eq (place : Place) (terms : List Term) :
    foldTerms? place terms = some (foldTerms place terms) := by
  unfold foldTerms? foldTerms
  cases place
  case call => rfl
  all_goals
    simp only [checkedRow_eq, Option.bind_eq_bind, Option.bind_some]
    generalize foldRow _ terms = rest
    rcases rest with _ | ⟨n | _, _ | ⟨t, rest⟩⟩ <;> rfl

def walk? (f : OpenScope) (outer : List OpenScope) : Option (Except Obstacle (Option Node)) :=
  match f, outer with
  | ⟨place, child :: pending, terms⟩, outer =>
    if child.isScope then
      walk? ⟨placeWithin place child, child.children, []⟩ (⟨place, pending, terms⟩ :: outer)
    else walk? ⟨place, pending, .ofLeaf child :: terms⟩ outer
  | ⟨place, [], terms⟩, outer => do
    match ← foldTerms? place terms.reverse with
    | .error obstacle => return .error obstacle
    | .ok result =>
      match outer with
      | [] => return .ok result
      | ⟨place, pending, terms⟩ :: outer =>
        match result with
        | some n => walk? ⟨place, pending, .node n :: terms⟩ outer
        | none => walk? ⟨place, pending, terms⟩ outer
termination_by weightOpen (f :: outer)
decreasing_by
  all_goals simp only [weightOpen, weightAll, weight_eq]
  all_goals omega

theorem walk?_eq (f : OpenScope) (outer : List OpenScope) :
    walk? f outer = some (walk f outer) := by
  induction f, outer using walk.induct with
  | case1 place child pending terms outer hscope ih =>
    rw [walk?, walk, if_pos hscope, if_pos hscope, ih]
  | case2 place child pending terms outer hscope ih =>
    rw [walk?, walk, if_neg hscope, if_neg hscope, ih]
  | case3 place terms outer obstacle hfold =>
    rw [List.unattach_reverse, List.unattach_attach] at hfold
    rw [walk?, walk, foldTerms?_eq, hfold]
    rfl
  | case4 place terms result hfold =>
    rw [List.unattach_reverse, List.unattach_attach] at hfold
    rw [walk?, walk, foldTerms?_eq, hfold]
    rfl
  | case5 place terms place' pending terms' outer n hfold ih =>
    rw [List.unattach_reverse, List.unattach_attach] at hfold
    rw [walk?, walk, foldTerms?_eq, hfold]
    exact ih
  | case6 place terms place' pending terms' outer hfold ih =>
    rw [List.unattach_reverse, List.unattach_attach] at hfold
    rw [walk?, walk, foldTerms?_eq, hfold]
    exact ih

end Fold

/-- Folds a nested line, with checked accesses to the slots of every scope. -/
def checkedFold (root : Scope) : Option (Except Fold.Obstacle (Option Node)) :=
  Fold.walk? ⟨.line, root.children, []⟩ []

theorem checkedFold_eq (root : Scope) : checkedFold root = some root.fold :=
  Fold.walk?_eq _ _

end MacroAsm

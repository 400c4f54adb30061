import MacroAsm.Proofs.Node
import MacroAsm.Token.Scan

/-!
# Printed nodes that can be read

`Node.Legible` is the form of a node of which the printed text is a line: names and numerals are
runs, strings hold no character that is shown by its code point, and calls have an argument.

The text says how such a node is grouped, with one exception. An index is printed without
parentheses, and a cast binds tighter: the cast of `a` to `b[c]` is printed like the element `c` of
the cast of `a` to `b`. `Node.regrouped` is the node with all its casts grouped that way, and
`Legible.regrouped_eq_iff` says which nodes this does not change.
-/

namespace MacroAsm

/-! ## The form of a node -/

/-- Characters that the scanner takes for one name or number. -/
def IsRun (kind : TokenKind) (cs : List Char) : Prop :=
  ∃ c rest, cs = c :: rest ∧ Scan.runKind? c = some kind ∧
    ∀ d ∈ rest, Scan.continuesRun d = true

/-- A run that starts with a letter, after a dot or not. -/
inductive IsName (s : String) : Prop
  | plain (h : IsRun .name s.toList)
  | dotted {run} (hs : s.toList = '.' :: run) (h : IsRun .name run)

theorem isName_of_letter {s : String} {c : Char} (hs : s.toList = [c])
    (hc : Scan.runKind? c = some .name) : IsName s :=
  .plain ⟨c, [], hs, hc, by simp⟩

/-- A run that starts with a digit, or two of them with a point in between. -/
inductive IsNumeral (s : String) : Prop
  | whole (h : IsRun .number s.toList)
  | fraction {whole places} (hs : s.toList = whole ++ '.' :: places) (hwhole : IsRun .number whole)
      (hplaces : IsRun .number places)

/-- What may stand after the dot of a field. -/
def IsPart (s : String) : Prop := IsRun .name s.toList ∨ IsRun .number s.toList

/-- A character that a string shows as itself or by an escape letter. -/
def IsQuotable (c : Char) : Prop :=
  0x20 ≤ c.toNat ∧ c.toNat < 0x7f ∨ c ∈ ['\t', '\r', '\n', '\x00']

/-- A node that is printed as a line. -/
inductive Node.Legible (read : NumeralReader) : Node → Prop
  | name {s} (h : IsName s) : Legible read (.text s)
  | string {s} (h : ∀ c ∈ s.toList, IsQuotable c) : Legible read (.string s)
  | number {n} (h : IsNumeral n.text) (hread : read n.text = .ok (n.value, n.width)) :
      Legible read (.number n)
  | unary {o n} (ho : o.isUnary = true) (hn : Legible read n) : Legible read (.unary o n)
  | binary {o l r} (ho : o.isUnary = false) (hfield : o ≠ .field) (hl : Legible read l)
      (hr : Legible read r) : Legible read (.binary o l r)
  | field {s part} (hs : IsName s) (hpart : IsPart part) :
      Legible read (.binary .field (.text s) (.text part))
  | call {name size args} (hname : IsName name) (hsize : ∀ part ∈ size, part = "" ∨ IsPart part)
      (hargs : args ≠ []) (h : ∀ arg ∈ args, arg ≠ .text "" → Legible read arg) :
      Legible read (.call name size args)

namespace Node

variable {read : NumeralReader} {n l r : Node} {o : Operator} {args : List Node}

/-! ## Casts and indices -/

/-- The cast of `l` to the operand that `r` is printed as, where `r'` is `r` regrouped: the indices
at the end of `r` come after the cast. -/
def castOnto (l r r' : Node) : Node :=
  match r, r' with
  | op .subscript (some r) (some _), op .subscript (some r') i =>
    .op .subscript (some (castOnto l r r')) i
  | _, r' => .binary .cast l r'

mutual

/-- The node as its printed text is grouped. -/
def regrouped : Node → Node
  | call name size args => .call name size (regroupedAll args)
  | op .cast (some l) (some r) => castOnto l.regrouped r r.regrouped
  | op o l r => .op o (regroupedOperand l) (regroupedOperand r)
  | n => n
termination_by structural n => n

def regroupedOperand : Option Node → Option Node
  | some n => some n.regrouped
  | none => none
termination_by structural n => n

def regroupedAll : List Node → List Node
  | [] => []
  | n :: rest => n.regrouped :: regroupedAll rest
termination_by structural nodes => nodes

end

theorem regroupedAll_eq_map : regroupedAll args = args.map regrouped := by
  induction args with
  | nil => rfl
  | cons n args ih => rw [regroupedAll, ih, List.map_cons]

theorem regrouped_unary : (unary o n).regrouped = .unary o n.regrouped := by
  cases o <;> rfl

theorem regrouped_binary (ho : o ≠ .cast) :
    (binary o l r).regrouped = .binary o l.regrouped r.regrouped := by
  cases o <;> first | rfl | exact absurd rfl ho

theorem regrouped_cast : (binary .cast l r).regrouped = castOnto l.regrouped r r.regrouped := rfl

theorem castOnto_index {i i' r' : Node} :
    castOnto l (.binary .subscript r i) (.binary .subscript r' i') =
      .binary .subscript (castOnto l r r') i' := rfl

theorem castOnto_of_ne {r' : Node} (h : ∀ a i, r ≠ .binary .subscript a i) :
    castOnto l r r' = .binary .cast l r' := by
  unfold castOnto
  split
  next a i _ _ => exact absurd rfl (h a i)
  next => rfl

theorem isComplete_castOnto {r' : Node} (hr : r'.isComplete = true) :
    (castOnto l r r').isComplete = true := by
  unfold castOnto
  split
  next => simpa [isComplete, Operator.isUnary] using hr
  next => rfl

theorem Legible.isComplete_regrouped (h : n.Legible read) : n.regrouped.isComplete = true := by
  induction h with
  | unary ho hn =>
    rw [regrouped_unary]
    simp [Node.unary, Node.isComplete, ho]
  | @binary o l r ho hfield hl hr ihl ihr =>
    by_cases hcast : o = .cast
    · subst hcast
      exact isComplete_castOnto ihr
    · rw [regrouped_binary hcast]
      simp [Node.binary, Node.isComplete]
  | _ => rfl

/-! ## Nodes that are not regrouped -/

/-- No cast in the tree has an indexed right operand. -/
def CastsWhole (n : Node) : Prop :=
  ∀ slot l a i, ¬ n.Occurs slot (.binary .cast l (.binary .subscript a i))

theorem castsWhole_iff : n.CastsWhole ↔
    (∀ l a i, n ≠ .binary .cast l (.binary .subscript a i)) ∧
      ∀ c ∈ n.children, c.CastsWhole := by
  constructor
  · refine fun h => ⟨?_, fun c hc slot l a i hoccurs => ?_⟩
    · rintro l a i rfl
      exact h _ l a i .root
    · obtain ⟨slot, hn⟩ := occurs_iff.mpr (.inr ⟨c, hc, slot, hoccurs⟩)
      exact h slot l a i hn
  · rintro ⟨hroot, hbelow⟩ slot l a i hoccurs
    rcases occurs_iff.mp ⟨slot, hoccurs⟩ with heq | ⟨c, hc, slot, hoccurs⟩
    · exact hroot l a i heq.symm
    · exact hbelow c hc slot l a i hoccurs

theorem castsWhole_of_children (h : n.children = []) : n.CastsWhole := by
  refine castsWhole_iff.mpr ⟨?_, ?_⟩
  · rintro l a i rfl
    cases h
  · rw [h]
    simp

theorem castsWhole_op {l r : Option Node} (h : o ≠ .cast) :
    (op o l r).CastsWhole ↔ (∀ c, l = some c → c.CastsWhole) ∧ ∀ c, r = some c → c.CastsWhole := by
  rw [castsWhole_iff]
  have hroot : ∀ l' a i, Node.op o l r ≠ .binary .cast l' (.binary .subscript a i) := by
    rintro l' a i ⟨⟩
    exact h rfl
  simp only [children, List.mem_append, Option.mem_toList, or_imp, forall_and]
  exact and_iff_right hroot

/-- Regrouping changes those nodes only in which the operand of a cast is indexed. -/
theorem Legible.regrouped_eq_iff (h : n.Legible read) : n.regrouped = n ↔ n.CastsWhole := by
  induction h with
  | name | string | number => exact iff_of_true rfl (castsWhole_of_children rfl)
  | unary ho hn ih =>
    rw [regrouped_unary, Node.unary, Node.unary, castsWhole_op (by rintro rfl; cases ho)]
    simpa using ih
  | @binary o l r ho hfield hl hr ihl ihr =>
    by_cases hcast : o = .cast
    · subst hcast
      by_cases hindex : ∃ a i, r = .binary .subscript a i
      · obtain ⟨a, i, rfl⟩ := hindex
        refine iff_of_false ?_ fun h => h _ l a i .root
        rw [regrouped_cast, regrouped_binary (by decide), castOnto_index]
        simp [Node.binary]
      · have hne : ∀ a i, r ≠ .binary .subscript a i := fun a i h => hindex ⟨a, i, h⟩
        have hroot : ∀ l' a i,
            Node.binary .cast l r ≠ .binary .cast l' (.binary .subscript a i) := by
          rintro l' a i ⟨⟩
          exact hne a i rfl
        rw [regrouped_cast, castOnto_of_ne hne, castsWhole_iff, and_iff_right hroot]
        simp [Node.binary, children, ihl, ihr]
    · rw [regrouped_binary hcast, Node.binary, Node.binary, castsWhole_op hcast]
      simp [ihl, ihr]
  | @field s part hs hpart =>
    refine iff_of_true rfl ((castsWhole_op (by decide)).mpr ⟨?_, ?_⟩)
    · rintro _ ⟨⟩
      exact castsWhole_of_children rfl
    · rintro _ ⟨⟩
      exact castsWhole_of_children rfl
  | @call name size args hname hsize hargs h ih =>
    have hmap : args.map regrouped = args ↔ ∀ arg ∈ args, arg.regrouped = arg := by
      have h := List.map_inj_left (l := args) (f := regrouped) (g := id)
      rwa [List.map_id] at h
    have harg : ∀ arg ∈ args, arg.regrouped = arg ↔ arg.CastsWhole := by
      intro arg harg
      by_cases hempty : arg = .text ""
      · subst hempty
        exact iff_of_true rfl (castsWhole_of_children rfl)
      · exact ih arg harg hempty
    have hroot : ∀ l a i, Node.call name size args ≠ .binary .cast l (.binary .subscript a i) := by
      rintro l a i ⟨⟩
    rw [regrouped, regroupedAll_eq_map, castsWhole_iff, and_iff_right hroot, Node.call.injEq]
    simp only [true_and, hmap, children]
    exact forall₂_congr harg

end Node

end MacroAsm

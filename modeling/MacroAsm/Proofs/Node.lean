import MacroAsm.Node

/-!
# Where nodes stand and what they lack

`Node.Occurs` says that a node stands anywhere inside another one, and in what slot. `Node.Sound` is
the form of a whole tree in which every operator has its operands. The one operator that may lack
one is the equate sign of a label: in `size: = 4` its left side is the label itself.
-/

namespace MacroAsm

namespace Node

/-- Where a node stands in a tree. -/
inductive Slot where
  | root
  /-- The target of a label. -/
  | target
  /-- Any other place: an operand, an argument or the name of a label. -/
  | inner
  deriving DecidableEq, Repr

/-- The tree `n` has the node `p` in a slot of the given kind. -/
inductive Occurs (n : Node) : Slot → Node → Prop
  | root : Occurs n .root n
  | name {slot name target} (h : Occurs n slot (.label name target)) : Occurs n .inner name
  | target {slot name target} (h : Occurs n slot (.label name (some target))) :
      Occurs n .target target
  | argument {slot name size args arg} (h : Occurs n slot (.call name size args))
      (harg : arg ∈ args) : Occurs n .inner arg
  | left {slot o l r} (h : Occurs n slot (.op o (some l) r)) : Occurs n .inner l
  | right {slot o l r} (h : Occurs n slot (.op o l (some r))) : Occurs n .inner r

def children : Node → List Node
  | label name target => name :: target.toList
  | call _ _ args => args
  | op _ l r => l.toList ++ r.toList
  | _ => []

/-- A tree of which every operator has its operands, apart from the equate signs of labels. -/
inductive Sound : Node → Prop
  | text {name} : Sound (.text name)
  | string {value} : Sound (.string value)
  | number {n} : Sound (.number n)
  | brace {b} : Sound (.brace b)
  | unary {o n} (ho : o.isUnary = true) (hn : Sound n) : Sound (.unary o n)
  | binary {o l r} (ho : o.isUnary = false) (hl : Sound l) (hr : Sound r) : Sound (.binary o l r)
  | call {name size args} (hargs : args ≠ []) (h : ∀ arg ∈ args, Sound arg) :
      Sound (.call name size args)
  | bareLabel {name} (hname : Sound name) : Sound (.label name none)
  | label {name target} (hname : Sound name) (htarget : Sound target) :
      Sound (.label name (some target))
  | equate {name value} (hname : Sound name) (hvalue : Sound value) :
      Sound (.label name (some (.unary .set value)))

inductive Unlabelled : Node → Prop
  | text {name} : Unlabelled (.text name)
  | string {value} : Unlabelled (.string value)
  | number {n} : Unlabelled (.number n)
  | brace {b} : Unlabelled (.brace b)
  | op {o l r} (hl : ∀ n, l = some n → Unlabelled n) (hr : ∀ n, r = some n → Unlabelled n) :
      Unlabelled (.op o l r)
  | call {name size args} (h : ∀ arg ∈ args, Unlabelled arg) : Unlabelled (.call name size args)

variable {n p : Node} {slot : Slot}

theorem Occurs.child {c : Node} (h : n.Occurs slot p) (hc : c ∈ p.children) :
    ∃ slot, n.Occurs slot c := by
  cases p with
  | label name target =>
    rcases List.mem_cons.mp hc with rfl | hc
    · exact ⟨_, h.name⟩
    · obtain rfl := Option.mem_toList.mp hc
      exact ⟨_, h.target⟩
  | call name size args => exact ⟨_, h.argument hc⟩
  | op o l r =>
    rcases List.mem_append.mp hc with hc | hc
    · obtain rfl := Option.mem_toList.mp hc
      exact ⟨_, h.left⟩
    · obtain rfl := Option.mem_toList.mp hc
      exact ⟨_, h.right⟩
  | _ => cases hc

theorem occurs_iff :
    (∃ slot, n.Occurs slot p) ↔ p = n ∨ ∃ c ∈ n.children, ∃ slot, c.Occurs slot p := by
  constructor
  · rintro ⟨slot, h⟩
    have hstep : ∀ {q p : Node}, (q = n ∨ ∃ c ∈ n.children, ∃ slot, c.Occurs slot q) →
        p ∈ q.children → ∃ c ∈ n.children, ∃ slot, c.Occurs slot p := by
      rintro q p (rfl | ⟨c, hc, slot, h⟩) hp
      · exact ⟨p, hp, .root, .root⟩
      · exact ⟨c, hc, h.child hp⟩
    induction h with
    | root => exact .inl rfl
    | argument _ harg ih => exact .inr (hstep ih harg)
    | _ =>
      rename_i ih
      exact .inr (hstep ih (by simp [children]))
  · rintro (rfl | ⟨c, hc, slot, h⟩)
    · exact ⟨.root, .root⟩
    · induction h with
      | root => exact Occurs.root.child hc
      | argument _ harg ih =>
        obtain ⟨slot, ih⟩ := ih
        exact ih.child harg
      | _ =>
        rename_i ih
        obtain ⟨slot, ih⟩ := ih
        exact ih.child (by simp [children])

theorem Sound.isComplete (h : n.Sound) : n.isComplete = true := by
  cases h with
  | unary ho => simp [Node.unary, Node.isComplete, ho]
  | binary ho => simp [Node.binary, Node.isComplete]
  | _ => rfl

theorem Sound.name {name : Node} {target : Option Node} (h : (Node.label name target).Sound) :
    name.Sound := by
  cases h with
  | bareLabel hname => exact hname
  | label hname => exact hname
  | equate hname => exact hname

/-- What stands in a sound tree is sound or the equate sign of a label with a sound value. -/
theorem Sound.of_occurs (h : n.Sound) (hp : n.Occurs slot p) :
    p.Sound ∨ slot = .target ∧ ∃ value, p = .unary .set value ∧ value.Sound := by
  induction hp with
  | root => exact .inl h
  | name _ ih =>
    rcases ih with ih | ⟨-, value, heq, -⟩
    · exact .inl ih.name
    · cases heq
  | target _ ih =>
    rcases ih with ih | ⟨-, value, heq, -⟩
    · cases ih with
      | label _ htarget => exact .inl htarget
      | equate _ hvalue => exact .inr ⟨rfl, _, rfl, hvalue⟩
    · cases heq
  | argument _ harg ih =>
    rcases ih with ih | ⟨-, value, heq, -⟩
    · cases ih with
      | call _ hargs => exact .inl (hargs _ harg)
    · cases heq
  | left _ ih =>
    rcases ih with ih | ⟨-, value, heq, -⟩
    · cases ih with
      | binary _ hl _ => exact .inl hl
    · cases heq
  | right _ ih =>
    rcases ih with ih | ⟨-, value, heq, hvalue⟩
    · cases ih with
      | unary _ hn => exact .inl hn
      | binary _ _ hr => exact .inl hr
    · cases heq
      exact .inl hvalue

theorem Unlabelled.of_occurs (h : n.Unlabelled) (hp : n.Occurs slot p) : p.Unlabelled := by
  induction hp with
  | root => exact h
  | name _ ih => cases ih
  | target _ ih => cases ih
  | argument _ harg ih =>
    cases ih with
    | call hargs => exact hargs _ harg
  | left _ ih =>
    cases ih with
    | op hl _ => exact hl _ rfl
  | right _ ih =>
    cases ih with
    | op _ hr => exact hr _ rfl

theorem root_of_occurs_label {name : Node} {target : Option Node} (hname : name.Unlabelled)
    (htarget : ∀ n, target = some n → n.Unlabelled)
    (hp : (Node.label name target).Occurs slot p) :
    slot = .root ∧ p = .label name target ∨ p.Unlabelled := by
  induction hp with
  | root => exact .inl ⟨rfl, rfl⟩
  | name _ ih =>
    rcases ih with ⟨-, heq⟩ | ih
    · cases heq
      exact .inr hname
    · cases ih
  | target _ ih =>
    rcases ih with ⟨-, heq⟩ | ih
    · cases heq
      exact .inr (htarget _ rfl)
    · cases ih
  | argument _ harg ih =>
    rcases ih with ⟨-, heq⟩ | ih
    · cases heq
    · cases ih with
      | call hargs => exact .inr (hargs _ harg)
  | left _ ih =>
    rcases ih with ⟨-, heq⟩ | ih
    · cases heq
    · cases ih with
      | op hl _ => exact .inr (hl _ rfl)
  | right _ ih =>
    rcases ih with ⟨-, heq⟩ | ih
    · cases heq
    · cases ih with
      | op _ hr => exact .inr (hr _ rfl)

end Node

end MacroAsm

import MacroAsm.Proofs.Fold.Tree

/-!
# Folding as a judgment

`Folds` and `Gathers` say what a nested line folds to, rule by rule and without a stack. The
children of a scope are taken in order. A leaf is a term whatever children it has, a scope is the
node that it folds to, if any, and a child that does not fold ends it all. What is gathered then
folds in the place where the scope stands (`foldTerms`).

`fold_eq_iff_folds`: the walk over the tree folds every line to that one result, fault or not. The
whole line stands as a line, even if it is a macro call by its kind. The invariant of the walk is
`WalksOver`: on top of any stack it does to the terms of the innermost scope what its children say.
-/

namespace MacroAsm

namespace Fold

/-- Where a child stands in a scope that stands in `outer`. Its own kind goes first. -/
inductive StandsIn (outer : Place) : Scope → Place → Prop
  | call {name : String} {size : Option String} {args : List Node} {depth : Nat}
      {children : List Scope} :
      StandsIn outer ⟨.call, depth, some (.call name size args), children⟩ (.call name size)
  | nameless {child : Scope} (hkind : child.kind = .call)
      (hvalue : ∀ name size args, child.value ≠ some (.call name size args)) :
      StandsIn outer child (.call "" none)
  | subscript {child : Scope} (hkind : child.kind = .operator) : StandsIn outer child .subscript
  | argument {child : Scope} {name : String} {size : Option String} (hcall : child.kind ≠ .call)
      (hoperator : child.kind ≠ .operator) (houter : outer = .call name size) :
      StandsIn outer child .argument
  | group {child : Scope} (hcall : child.kind ≠ .call) (hoperator : child.kind ≠ .operator)
      (houter : ∀ name size, outer ≠ .call name size) : StandsIn outer child .group

mutual

/-- A scope with the given children folds to a result in its place. -/
inductive Folds : Place → List Scope → Except Obstacle (Option Node) → Prop
  | gathered {place : Place} {children : List Scope} {terms : List Term}
      (h : Gathers place children (.ok terms)) : Folds place children (foldTerms place terms)
  | failed {place : Place} {children : List Scope} {obstacle : Obstacle}
      (h : Gathers place children (.error obstacle)) : Folds place children (.error obstacle)

/-- The children of a scope are gathered as terms. -/
inductive Gathers : Place → List Scope → Except Obstacle (List Term) → Prop
  | nil {place : Place} : Gathers place [] (.ok [])
  | leaf {place : Place} {child : Scope} {children : List Scope}
      {rest : Except Obstacle (List Term)} (hleaf : child.isScope = false)
      (hrest : Gathers place children rest) :
      Gathers place (child :: children) (rest.map (.ofLeaf child :: ·))
  | node {place inner : Place} {child : Scope} {children : List Scope} {n : Node}
      {rest : Except Obstacle (List Term)} (hscope : child.isScope = true)
      (hinner : StandsIn place child inner) (hchild : Folds inner child.children (.ok (some n)))
      (hrest : Gathers place children rest) :
      Gathers place (child :: children) (rest.map (.node n :: ·))
  /-- A child that folds to nothing is skipped. -/
  | nothing {place inner : Place} {child : Scope} {children : List Scope}
      {rest : Except Obstacle (List Term)} (hscope : child.isScope = true)
      (hinner : StandsIn place child inner) (hchild : Folds inner child.children (.ok none))
      (hrest : Gathers place children rest) : Gathers place (child :: children) rest
  /-- The children after one that fails are not looked at. -/
  | failed {place inner : Place} {child : Scope} {children : List Scope} {obstacle : Obstacle}
      (hscope : child.isScope = true) (hinner : StandsIn place child inner)
      (hchild : Folds inner child.children (.error obstacle)) :
      Gathers place (child :: children) (.error obstacle)

end

variable {place inner : Place} {child : Scope} {children : List Scope}

theorem standsIn_placeWithin (place : Place) (child : Scope) :
    StandsIn place child (placeWithin place child) := by
  obtain ⟨kind, depth, value, children⟩ := child
  by_cases hcall : kind = .call
  · subst hcall
    rcases value with _ | n
    · exact .nameless rfl (by simp)
    · cases n with
      | call => exact .call
      | _ => exact .nameless rfl (by simp)
  by_cases hoperator : kind = .operator
  · subst hoperator
    exact .subscript rfl
  have hplace : placeWithin place ⟨kind, depth, value, children⟩ =
      placeWithin place ⟨.plain, depth, value, children⟩ := by
    cases kind <;> first | rfl | contradiction
  rw [hplace]
  cases place with
  | call => exact .argument hcall hoperator rfl
  | _ => exact .group hcall hoperator (by simp)

theorem StandsIn.eq (h : StandsIn place child inner) : inner = placeWithin place child := by
  cases h with
  | call => rfl
  | nameless hkind hvalue =>
    obtain ⟨kind, depth, value, children⟩ := child
    subst hkind
    rcases value with _ | n
    · rfl
    · cases n with
      | call name size args => exact absurd rfl (hvalue name size args)
      | _ => rfl
  | subscript hkind =>
    obtain ⟨kind, depth, value, children⟩ := child
    subst hkind
    rfl
  | argument hcall hoperator houter =>
    obtain ⟨kind, depth, value, children⟩ := child
    subst houter
    cases kind <;> first | rfl | contradiction
  | group hcall hoperator houter =>
    obtain ⟨kind, depth, value, children⟩ := child
    cases place with
    | call name size => exact absurd rfl (houter name size)
    | _ => cases kind <;> first | rfl | contradiction

def foldScope (place : Place) (children : List Scope) : Except Obstacle (Option Node) :=
  match foldChildren place children with
  | .error obstacle => .error obstacle
  | .ok terms => foldTerms place terms

theorem foldChildren_cons_leaf (h : child.isScope = false) :
    foldChildren place (child :: children) =
      (foldChildren place children).map (.ofLeaf child :: ·) := by
  rw [foldChildren, foldChild_of_leaf h]
  rfl

theorem foldChildren_cons_scope (h : child.isScope = true) :
    foldChildren place (child :: children) =
      match foldScope (placeWithin place child) child.children with
      | .error obstacle => .error obstacle
      | .ok n => (foldChildren place children).map (n.toList.map .node ++ ·) := by
  rw [foldChildren, foldChild_of_scope h, foldScope]
  cases foldChildren (placeWithin place child) child.children with
  | error obstacle => rfl
  | ok terms =>
    simp only
    cases foldTerms (placeWithin place child) terms <;> rfl

/-! ## The judgment holds of what the recursion does -/

theorem folds_foldScope (h : Gathers place children (foldChildren place children)) :
    Folds place children (foldScope place children) := by
  unfold foldScope
  cases hchildren : foldChildren place children with
  | error obstacle => exact .failed (hchildren ▸ h)
  | ok terms => exact .gathered (hchildren ▸ h)

theorem gathers_cons
    (hchild : ∀ inner, Gathers inner child.children (foldChildren inner child.children))
    (h : Gathers place children (foldChildren place children)) :
    Gathers place (child :: children) (foldChildren place (child :: children)) := by
  by_cases hscope : child.isScope = true
  · have hinner := standsIn_placeWithin place child
    have hfolds := folds_foldScope (hchild (placeWithin place child))
    rw [foldChildren_cons_scope hscope]
    cases hresult : foldScope (placeWithin place child) child.children with
    | error obstacle => exact .failed hscope hinner (hresult ▸ hfolds)
    | ok result =>
      rw [hresult] at hfolds
      cases result with
      | none =>
        have hnothing := Gathers.nothing hscope hinner hfolds h
        cases hrest : foldChildren place children <;> rw [hrest] at hnothing <;> exact hnothing
      | some n => exact .node hscope hinner hfolds h
  · rw [Bool.not_eq_true] at hscope
    rw [foldChildren_cons_leaf hscope]
    exact .leaf hscope h

mutual

theorem gathers_of_child (inner : Place) :
    ∀ child : Scope, Gathers inner child.children (foldChildren inner child.children)
  | ⟨_, _, _, children⟩ => gathers inner children

theorem gathers (place : Place) :
    ∀ children : List Scope, Gathers place children (foldChildren place children)
  | [] => .nil
  | child :: children =>
    gathers_cons (fun inner => gathers_of_child inner child) (gathers place children)

end

/-! ## It holds of nothing else -/

mutual

theorem eq_of_folds {place : Place} {children : List Scope}
    {result : Except Obstacle (Option Node)} :
    Folds place children result → foldScope place children = result
  | .gathered h => by rw [foldScope, eq_of_gathers h]
  | .failed h => by rw [foldScope, eq_of_gathers h]

theorem eq_of_gathers {place : Place} {children : List Scope}
    {result : Except Obstacle (List Term)} :
    Gathers place children result → foldChildren place children = result
  | .nil => rfl
  | .leaf hleaf hrest => by rw [foldChildren_cons_leaf hleaf, eq_of_gathers hrest]
  | .node hscope hinner hchild hrest => by
    rw [foldChildren_cons_scope hscope, ← hinner.eq, eq_of_folds hchild, eq_of_gathers hrest]
    rfl
  | .nothing hscope hinner hchild hrest => by
    rw [foldChildren_cons_scope hscope, ← hinner.eq, eq_of_folds hchild, ← eq_of_gathers hrest]
    cases foldChildren _ _ <;> rfl
  | .failed hscope hinner hchild => by
    rw [foldChildren_cons_scope hscope, ← hinner.eq, eq_of_folds hchild]

end

end Fold

/-- The walk over a nested line folds it to what its tree folds to by the rules, be it a node,
nothing or an obstacle. -/
theorem Scope.fold_eq_iff_folds (root : Scope) (result : Except Fold.Obstacle (Option Node)) :
    root.fold = result ↔ Fold.Folds .line root.children result := by
  have hfold : root.fold = Fold.foldScope .line root.children := root.fold_eq
  rw [hfold]
  constructor
  · rintro rfl
    exact Fold.folds_foldScope (Fold.gathers .line root.children)
  · exact Fold.eq_of_folds

end MacroAsm

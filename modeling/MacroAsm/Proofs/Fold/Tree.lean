import MacroAsm.Fold.Walk

/-!
# The walk as a recursion

`Scope.fold` walks over a nested line with a stack of open scopes. `foldChildren` is the same as a
recursion over the tree: the terms of a scope are those of its children in turn, and a child that is
a scope itself gives the node that it folds to, if any (`fold_eq`). Proofs about folded lines follow
this recursion.
-/

namespace MacroAsm

namespace Fold

mutual

/-- The terms that a leaf or scope adds to the scope around it. -/
def foldChild (outer : Place) : Scope → Except Obstacle (List Term)
  | ⟨kind, depth, value, children⟩ =>
    if (⟨kind, depth, value, children⟩ : Scope).isScope then
      let place := placeWithin outer ⟨kind, depth, value, children⟩
      match foldChildren place children with
      | .error obstacle => .error obstacle
      | .ok terms => (foldTerms place terms).map fun n => n.toList.map .node
    else .ok [.ofLeaf ⟨kind, depth, value, children⟩]

/-- The terms of a scope with the given children. -/
def foldChildren (place : Place) : List Scope → Except Obstacle (List Term)
  | [] => .ok []
  | child :: children =>
    match foldChild place child with
    | .error obstacle => .error obstacle
    | .ok terms => (foldChildren place children).map (terms ++ ·)

end

variable {place : Place} {child : Scope} {children : List Scope} {terms : List Term}
  {outer : List OpenScope}

theorem eq_of_foldTerms {result : Option Node} (hplace : ∀ name size, place ≠ .call name size)
    (h : foldTerms place terms = .ok result) :
    (∃ n, foldRow (place = .line) terms = [.node n] ∧ n.isComplete = true ∧
        result = some (wrap place n)) ∨
      foldRow (place = .line) terms = [] ∧ foldEmpty place = .ok result := by
  rw [foldTerms.eq_2 _ _ hplace] at h
  split at h
  next hrow => exact .inr ⟨hrow, h⟩
  next => cases h
  next n hrow =>
    split at h
    next hn =>
      cases h
      exact .inl ⟨n, hrow, hn, rfl⟩
    next => cases h
  next => cases h

theorem foldTerms_of_foldRow {n : Node} (hplace : ∀ name size, place ≠ .call name size)
    (h : foldRow (place = .line) terms = [.node n]) (hn : n.isComplete = true) :
    foldTerms place terms = .ok (some (wrap place n)) := by
  rw [foldTerms.eq_2 _ _ hplace, h]
  exact if_pos hn

theorem eq_of_foldEmpty {n : Node} (h : foldEmpty place = .ok (some n)) :
    place = .argument ∧ n = .text "" := by
  cases place with
  | argument =>
    cases h
    exact ⟨rfl, rfl⟩
  | _ => cases h

theorem placeWithin_plain (outer : Place) (depth : Nat) (children : List Scope) :
    placeWithin outer ⟨.plain, depth, none, children⟩ = .group ∨
      placeWithin outer ⟨.plain, depth, none, children⟩ = .argument := by
  cases outer with
  | call => exact .inr rfl
  | _ => exact .inl rfl

theorem ofLeaf_value {kind : ScopeKind} {depth : Nat} {n : Node} (hkind : kind ≠ .label) :
    Term.ofLeaf ⟨kind, depth, some n, []⟩ = .node n := by
  cases kind <;> first | rfl | exact absurd rfl hkind

theorem foldChild_of_leaf (h : child.isScope = false) :
    foldChild place child = .ok [.ofLeaf child] := by
  obtain ⟨kind, depth, value, children⟩ := child
  rw [foldChild, if_neg (by simp [h])]

theorem foldChild_of_scope (h : child.isScope = true) :
    foldChild place child =
      match foldChildren (placeWithin place child) child.children with
      | .error obstacle => .error obstacle
      | .ok terms => (foldTerms (placeWithin place child) terms).map fun n =>
          n.toList.map .node := by
  obtain ⟨kind, depth, value, children⟩ := child
  rw [foldChild, if_pos h]

theorem foldChildren_append (front back : List Scope) :
    foldChildren place (front ++ back) =
      match foldChildren place front with
      | .error obstacle => .error obstacle
      | .ok terms => (foldChildren place back).map (terms ++ ·) := by
  induction front with
  | nil =>
    show foldChildren place back = (foldChildren place back).map ([] ++ ·)
    cases foldChildren place back <;> rfl
  | cons child front ih =>
    rw [List.cons_append, foldChildren, foldChildren, ih]
    cases foldChild place child with
    | error => rfl
    | ok terms =>
      cases foldChildren place front with
      | error => rfl
      | ok terms' =>
        cases foldChildren place back with
        | error => rfl
        | ok terms'' => simp [Except.map]

theorem foldChildren_singleton : foldChildren place [child] = foldChild place child := by
  rw [foldChildren]
  cases foldChild place child with
  | error => rfl
  | ok terms => simp [foldChildren, Except.map]

theorem eq_of_foldChildren_append {front back : List Scope}
    (h : foldChildren place (front ++ back) = .ok terms) :
    ∃ left right, foldChildren place front = .ok left ∧ foldChildren place back = .ok right ∧
      terms = left ++ right := by
  rw [foldChildren_append] at h
  cases hleft : foldChildren place front with
  | error =>
    rw [hleft] at h
    cases h
  | ok left =>
    rw [hleft] at h
    cases hright : foldChildren place back with
    | error =>
      rw [hright] at h
      cases h
    | ok right =>
      rw [hright] at h
      cases h
      exact ⟨left, right, rfl, rfl, rfl⟩

theorem eq_of_foldChildren_cons (h : foldChildren place (child :: children) = .ok terms) :
    ∃ new rest, foldChild place child = .ok new ∧ foldChildren place children = .ok rest ∧
      terms = new ++ rest := by
  rw [← foldChildren_singleton]
  exact eq_of_foldChildren_append h

/-! ## The walk -/

theorem walk_nil :
    walk ⟨place, [], terms⟩ outer =
      match foldTerms place terms.reverse, outer with
      | .error obstacle, _ => .error obstacle
      | .ok result, [] => .ok result
      | .ok result, ⟨place, pending, terms⟩ :: outer =>
        walk ⟨place, pending, (result.toList.map .node).reverse ++ terms⟩ outer := by
  rw [walk]
  cases foldTerms place terms.reverse with
  | error => rfl
  | ok result =>
    cases outer with
    | nil => rfl
    | cons f outer => cases result <;> rfl

theorem walk_leaf (h : child.isScope = false) :
    walk ⟨place, child :: children, terms⟩ outer =
      walk ⟨place, children, .ofLeaf child :: terms⟩ outer := by
  rw [walk, if_neg (by simp [h])]

theorem walk_scope (h : child.isScope = true) :
    walk ⟨place, child :: children, terms⟩ outer =
      walk ⟨placeWithin place child, child.children, []⟩ (⟨place, children, terms⟩ :: outer) := by
  rw [walk, if_pos h]

/-- What the walk does with the children that are still to come. -/
def WalksOver (place : Place) (children : List Scope) : Prop :=
  ∀ terms outer, walk ⟨place, children, terms⟩ outer =
    match foldChildren place children with
    | .error obstacle => .error obstacle
    | .ok new => walk ⟨place, [], new.reverse ++ terms⟩ outer

theorem walk_cons (h : child.isScope = true →
      WalksOver (placeWithin place child) child.children) :
    walk ⟨place, child :: children, terms⟩ outer =
      match foldChild place child with
      | .error obstacle => .error obstacle
      | .ok new => walk ⟨place, children, new.reverse ++ terms⟩ outer := by
  by_cases hscope : child.isScope = true
  · rw [walk_scope hscope, h hscope, foldChild_of_scope hscope]
    cases foldChildren (placeWithin place child) child.children with
    | error => rfl
    | ok new =>
      simp only [List.append_nil]
      rw [walk_nil, List.reverse_reverse]
      cases foldTerms (placeWithin place child) new <;> rfl
  · rw [Bool.not_eq_true] at hscope
    rw [walk_leaf hscope, foldChild_of_leaf hscope]
    rfl

mutual

theorem walksOver_of_child (place : Place) :
    ∀ child : Scope, WalksOver (placeWithin place child) child.children
  | ⟨kind, depth, value, children⟩ => walksOver (placeWithin place ⟨kind, depth, value, children⟩)
      children

theorem walksOver (place : Place) : ∀ children : List Scope, WalksOver place children
  | [] => fun _ _ => rfl
  | child :: children => by
    intro terms outer
    rw [walk_cons fun _ => walksOver_of_child place child, foldChildren]
    cases foldChild place child with
    | error => rfl
    | ok new =>
      simp only
      rw [walksOver place children]
      cases foldChildren place children with
      | error => rfl
      | ok rest => simp [Except.map]

end

end Fold

/-- A line folds as the recursion over its tree says. -/
theorem Scope.fold_eq (root : Scope) :
    root.fold =
      match Fold.foldChildren .line root.children with
      | .error obstacle => .error obstacle
      | .ok terms => Fold.foldTerms .line terms := by
  rw [Scope.fold, Fold.walksOver]
  cases Fold.foldChildren .line root.children with
  | error => rfl
  | ok terms =>
    simp only [List.append_nil]
    rw [Fold.walk_nil, List.reverse_reverse]
    cases Fold.foldTerms .line terms <;> rfl

end MacroAsm

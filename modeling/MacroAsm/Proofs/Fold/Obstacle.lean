import MacroAsm.Proofs.Fold.Words

/-!
# Which scope a line fails to fold at

`Scope.sites` lists the scopes of a nested line, each one after the scopes in it. A line that does
not fold is at fault at the first of them that does not fold, when all scopes in that one do
(`Fold.inOrder_fold`). What is reported depends on where this scope stands: of an argument it is
that the argument is not one expression, of all other scopes that they are unresolved
(`Scope.fault_of_fold`). An argument that is left with nothing but a label mark is the exception: it
is unresolved too.
-/

namespace MacroAsm

open Fold (Place Obstacle Term placeWithin foldChild foldChildren foldTerms foldRow)

/-- A scope of a nested line and where it stands. The line itself stands in no other scope. -/
structure Site where
  within? : Option Scope
  place : Place
  scope : Scope

namespace Scope

mutual

/-- The scopes of a leaf or scope, each one after the scopes in it. -/
def sitesIn (outer : Scope) (place : Place) : Scope → List Site
  | ⟨kind, depth, value, children⟩ =>
    let s : Scope := ⟨kind, depth, value, children⟩
    if s.isScope then
      sitesOf s (placeWithin place s) children ++ [⟨some outer, placeWithin place s, s⟩]
    else []

def sitesOf (outer : Scope) (place : Place) : List Scope → List Site
  | [] => []
  | s :: rest => sitesIn outer place s ++ sitesOf outer place rest

end

/-- The scopes of a nested line, each one after the scopes in it, the line itself last. -/
def sites (root : Scope) : List Site := sitesOf root .line root.children ++ [⟨none, .line, root⟩]

end Scope

namespace Site

/-- What the children of the scope fold to, if they all fold. -/
def row? (v : Site) : Option (List Term) :=
  match foldChildren v.place v.scope.children with
  | .error _ => none
  | .ok terms => some (foldRow (v.place = .line) terms)

/-- Whether the scope folds to one complete node, or to nothing where that is allowed: everywhere
but between square brackets. A macro call takes whatever its arguments fold to. -/
def folds (v : Site) : Bool :=
  match v.row? with
  | none => false
  | some row =>
    v.scope.kind = .call ||
      match row with
      | [] => v.scope.kind ≠ .operator
      | [.node n] => n.isComplete
      | _ => false

def IsLine (v : Site) : Prop := v.within? = none

def IsArgument (v : Site) : Prop := ∃ outer, v.within? = some outer ∧ outer.kind = .call

/-- The scope is a pair of parentheses that does not stand for the argument of a macro call. -/
def IsGroup (v : Site) : Prop :=
  v.scope.kind = .plain ∧ ∃ outer, v.within? = some outer ∧ outer.kind ≠ .call

def IsSubscript (v : Site) : Prop := v.scope.kind = .operator

end Site

namespace Fold

variable {place : Place} {terms : List Term} {obstacle : Obstacle} {v : Site}
  {sites rest : List Site}

/-! ## One scope -/

/-- The children of the scope fold, and the scope itself folds to `result` or does not. -/
def FoldsTo (v : Site) (result : Except Obstacle (Option Node)) : Prop :=
  ∃ terms, foldChildren v.place v.scope.children = .ok terms ∧ foldTerms v.place terms = result

theorem fault_of_foldTerms (h : foldTerms place terms = .error obstacle) :
    (place = .argument ∧ foldRow false terms ≠ [.mark] ∧
        ∃ detail, obstacle.fault = .badArgument detail none) ∨
      (place = .argument → foldRow false terms = [.mark]) ∧ obstacle.fault = .unresolved := by
  have hplace : ∀ name size, place ≠ .call name size := by
    rintro name size rfl
    cases h
  by_cases hargument : place = .argument
  · subst hargument
    rw [foldTerms.eq_2 _ _ hplace] at h
    have hlabels : decide (Place.argument = Place.line) = false := rfl
    rw [hlabels] at h
    split at h
    next => cases h
    next hrow =>
      cases h
      exact .inr ⟨fun _ => hrow, rfl⟩
    next n hrow =>
      split at h
      next => cases h
      next =>
        cases h
        exact .inl ⟨rfl, by simp [hrow], _, rfl⟩
    next hmark _ =>
      cases h
      exact .inl ⟨rfl, hmark, _, rfl⟩
  · refine .inr ⟨fun heq => absurd heq hargument, ?_⟩
    rw [foldTerms.eq_2 _ _ hplace] at h
    split at h
    next =>
      cases place <;> cases h
      rfl
    next =>
      cases h
      rfl
    next =>
      split at h
      next => cases h
      next =>
        cases h
        cases place <;> first | rfl | exact absurd rfl hargument
    next =>
      cases h
      cases place <;> first | rfl | exact absurd rfl hargument

/-! ## One scope after the other -/

/-- Scopes are folded in order up to the first that does not fold, which is the obstacle. -/
def InOrder {α : Type} (sites : List Site) : Except Obstacle α → Prop
  | .ok _ => ∀ v ∈ sites, ∃ result, FoldsTo v (.ok result)
  | .error obstacle => ∃ before v after, sites = before ++ v :: after ∧
      (∀ u ∈ before, ∃ result, FoldsTo u (.ok result)) ∧ FoldsTo v (.error obstacle)

theorem InOrder.map {α β : Type} {g : α → β} {x : Except Obstacle α} (h : InOrder sites x) :
    InOrder sites (x.map g) := by
  cases x <;> exact h

theorem InOrder.append {α β : Type} {x : Except Obstacle α} {y : Except Obstacle β}
    (hx : InOrder sites x) (herror : ∀ obstacle, x = .error obstacle → y = .error obstacle)
    (hok : ∀ a, x = .ok a → InOrder rest y) : InOrder (sites ++ rest) y := by
  cases x with
  | error obstacle =>
    obtain ⟨before, v, after, rfl, hbefore, hv⟩ := hx
    rw [herror obstacle rfl]
    exact ⟨before, v, after ++ rest, by simp, hbefore, hv⟩
  | ok a =>
    have hrest := hok a rfl
    cases y with
    | error obstacle =>
      obtain ⟨before, v, after, rfl, hbefore, hv⟩ := hrest
      exact ⟨sites ++ before, v, after, by simp, List.forall_mem_append.mpr ⟨hx, hbefore⟩, hv⟩
    | ok b => exact List.forall_mem_append.mpr ⟨hx, hrest⟩

theorem inOrder_singleton (hterms : foldChildren v.place v.scope.children = .ok terms) :
    InOrder [v] (foldTerms v.place terms) := by
  have hv : FoldsTo v (foldTerms v.place terms) := ⟨terms, hterms, rfl⟩
  cases hresult : foldTerms v.place terms with
  | error obstacle => exact ⟨[], v, [], rfl, by simp, hresult ▸ hv⟩
  | ok result => exact List.forall_mem_singleton.mpr ⟨result, hresult ▸ hv⟩

mutual

theorem inOrder_foldChild (outer : Scope) (place : Place) :
    ∀ s : Scope, InOrder (Scope.sitesIn outer place s) (foldChild place s)
  | ⟨kind, depth, value, children⟩ => by
    by_cases hs : (⟨kind, depth, value, children⟩ : Scope).isScope = true
    · rw [Scope.sitesIn, if_pos hs, foldChild_of_scope hs]
      refine (inOrder_foldChildren _ _ children).append (fun obstacle h => by rw [h])
        fun terms hterms => ?_
      rw [hterms]
      exact (inOrder_singleton (v := ⟨some outer, _, ⟨kind, depth, value, children⟩⟩) hterms).map
    · rw [Scope.sitesIn, if_neg hs, foldChild_of_leaf (by simpa using hs)]
      simp [InOrder]

theorem inOrder_foldChildren (outer : Scope) (place : Place) :
    ∀ children : List Scope,
      InOrder (Scope.sitesOf outer place children) (foldChildren place children)
  | [] => by simp [Scope.sitesOf, foldChildren, InOrder]
  | s :: rest => by
    rw [Scope.sitesOf, foldChildren]
    refine (inOrder_foldChild outer place s).append (fun obstacle h => by rw [h])
      fun terms hterms => ?_
    rw [hterms]
    exact (inOrder_foldChildren outer place rest).map

end

/-- A line folds scope by scope. -/
theorem inOrder_fold (root : Scope) : InOrder root.sites root.fold := by
  rw [Scope.fold_eq]
  refine (inOrder_foldChildren root .line root.children).append (fun obstacle h => by rw [h])
    fun terms hterms => ?_
  rw [hterms]
  exact inOrder_singleton (v := ⟨none, .line, root⟩) hterms

/-! ## Where scopes stand -/

/-- The scopes of a nested line with their places. The arguments of a macro call are all that stands
directly in it. -/
inductive Stands : Site → Prop
  | line {root} (h : root.kind = .plain) : Stands ⟨none, .line, root⟩
  | argument {outer s} (houter : outer.kind = .call) (h : s.kind = .plain) :
      Stands ⟨some outer, .argument, s⟩
  | group {outer s} (houter : outer.kind ≠ .call) (h : s.kind = .plain) :
      Stands ⟨some outer, .group, s⟩
  | subscript {outer s} (houter : outer.kind ≠ .call) (h : s.kind = .operator) :
      Stands ⟨some outer, .subscript, s⟩
  | call {outer s name size} (houter : outer.kind ≠ .call) (h : s.kind = .call) :
      Stands ⟨some outer, .call name size, s⟩

theorem mem_sitesOf {outer : Scope} {children : List Scope} :
    v ∈ Scope.sitesOf outer place children ↔ ∃ c ∈ children, v ∈ Scope.sitesIn outer place c := by
  induction children with
  | nil => simp [Scope.sitesOf]
  | cons c children ih => simp [Scope.sitesOf, ih]

theorem mem_sitesIn {outer s : Scope} (h : v ∈ Scope.sitesIn outer place s) :
    s.isScope = true ∧ (v ∈ Scope.sitesOf s (placeWithin place s) s.children ∨
      v = ⟨some outer, placeWithin place s, s⟩) := by
  obtain ⟨kind, depth, value, children⟩ := s
  rw [Scope.sitesIn] at h
  split at h
  next hs => exact ⟨hs, by simpa using h⟩
  next => cases h

/-- The scopes of a formed scope stand where they are, if it stands in a macro call just as its
place says and is plain there. -/
theorem stands_of_formed {outer s : Scope} {marks : Bool} (h : s.Formed marks)
    (hplace : outer.kind = .call ↔ ∃ name size, place = .call name size)
    (hplain : outer.kind = .call → s.kind = .plain) (hv : v ∈ Scope.sitesIn outer place s) :
    Stands v := by
  induction h generalizing outer place with
  | mark => cases (mem_sitesIn hv).1
  | operator ho => simpa [Scope.isScope, Node.bare, ho] using (mem_sitesIn hv).1
  | value hkind hleaf => cases hleaf.symm.trans (mem_sitesIn hv).1
  | @group depth children h ih =>
    have hgroup := placeWithin_plain place depth children
    rcases (mem_sitesIn hv).2 with hv | rfl
    · obtain ⟨c, hc, hv⟩ := mem_sitesOf.mp hv
      exact ih c hc (by rcases hgroup with heq | heq <;> simp [heq]) (by rintro ⟨⟩) hv
    · by_cases houter : outer.kind = .call
      · obtain ⟨name, size, rfl⟩ := hplace.mp houter
        exact .argument houter rfl
      · have hcall : ∀ name size, place ≠ .call name size := fun name size heq =>
          houter (hplace.mpr ⟨name, size, heq⟩)
        rw [hgroup.resolve_right (placeWithin_ne_argument hcall _)]
        exact .group houter rfl
  | @brackets depth children h ih =>
    rcases (mem_sitesIn hv).2 with hv | rfl
    · obtain ⟨c, hc, hv⟩ := mem_sitesOf.mp hv
      exact ih c hc (by simp [placeWithin]) (by rintro ⟨⟩) hv
    · exact .subscript (fun houter => by cases hplain houter) rfl
  | @call depth name size args hargs hkinds h ih =>
    rcases (mem_sitesIn hv).2 with hv | rfl
    · obtain ⟨c, hc, hv⟩ := mem_sitesOf.mp hv
      exact ih c hc (by simp [placeWithin]) (fun _ => hkinds c hc) hv
    · exact .call (fun houter => by cases hplain houter) rfl

theorem stands_of_mem_sites {root : Scope} {marks : Bool} (hroot : root.kind = .plain)
    (h : ∀ c ∈ root.children, c.Formed marks) (hv : v ∈ root.sites) : Stands v := by
  rcases List.mem_append.mp hv with hv | hv
  · obtain ⟨c, hc, hv⟩ := mem_sitesOf.mp hv
    exact stands_of_formed (h c hc) (by simp [hroot]) (by simp [hroot]) hv
  · rw [List.mem_singleton.mp hv]
    exact .line hroot

theorem Stands.folds_iff (h : Stands v)
    (hterms : foldChildren v.place v.scope.children = .ok terms) :
    v.folds = true ↔ ∃ result, foldTerms v.place terms = .ok result := by
  have hrow : v.row? = some (foldRow (v.place = .line) terms) := by rw [Site.row?, hterms]
  by_cases hcall : v.scope.kind = .call
  · have hplace : ∃ name size, v.place = .call name size := by
      cases h with
      | call => exact ⟨_, _, rfl⟩
      | line h | argument _ h | group _ h | subscript _ h => cases h.symm.trans hcall
    obtain ⟨name, size, hplace⟩ := hplace
    rw [Site.folds, hrow, hplace]
    simp [hcall, foldTerms]
  · have hplace : ∀ name size, v.place ≠ .call name size := by
      rintro name size heq
      cases h with
      | call _ h => exact hcall h
      | _ => cases heq
    have hempty : v.scope.kind ≠ .operator ↔ ∃ result, foldEmpty v.place = .ok result := by
      cases h with
      | call _ h => exact absurd h hcall
      | line h | group _ h | argument _ h | subscript _ h => simp [h, foldEmpty]
    rw [Site.folds, hrow, foldTerms.eq_2 _ _ hplace]
    simp only [hcall, decide_false, Bool.false_or]
    rcases foldRow (v.place = .line) terms with _ | ⟨n | _, _ | ⟨t, row⟩⟩
    case nil => simpa using hempty
    case cons.node.nil => cases hn : n.isComplete <;> simp [hn]
    all_goals simp

theorem find?_of_inOrder {before after : List Site} (hstands : ∀ u ∈ before ++ v :: after, Stands u)
    (hbefore : ∀ u ∈ before, ∃ result, FoldsTo u (.ok result)) (hv : FoldsTo v (.error obstacle)) :
    (before ++ v :: after).find? (fun u => !u.folds) = some v := by
  rw [List.forall_mem_append, List.forall_mem_cons] at hstands
  rw [List.find?_eq_some_iff_append]
  refine ⟨?_, before, after, rfl, fun u hu => ?_⟩
  · obtain ⟨terms, hterms, hresult⟩ := hv
    rw [Bool.not_eq_true', Bool.eq_false_iff]
    intro hfolds
    obtain ⟨result, hok⟩ := (hstands.2.1.folds_iff hterms).mp hfolds
    cases hok.symm.trans hresult
  · obtain ⟨result, terms, hterms, hresult⟩ := hbefore u hu
    simpa using ((hstands.1 u hu).folds_iff hterms).mpr ⟨result, hresult⟩

theorem Stands.isArgument_iff (h : Stands v) : v.IsArgument ↔ v.place = .argument := by
  cases h <;> simp [Site.IsArgument, *]

theorem Stands.isOther_iff (h : Stands v) (hplace : ∀ name size, v.place ≠ .call name size) :
    v.IsLine ∨ v.IsGroup ∨ v.IsSubscript ↔ v.place ≠ .argument := by
  cases h with
  | call => exact absurd rfl (hplace _ _)
  | line => simp [Site.IsLine]
  | argument houter h => simp [Site.IsLine, Site.IsGroup, Site.IsSubscript, houter, h]
  | group houter h => simp [Site.IsGroup, houter, h]
  | subscript houter h => simp [Site.IsSubscript, h]

end Fold

/-! ## Lines -/

/-- The fault says where the scope stands: it is that of an argument for an argument, and that of
any other scope for the line, a group or a subscript. -/
structure Site.IsNamedBy (v : Site) (fault : Fault) : Prop where
  argument : (∃ detail, fault = .badArgument detail none) ↔ v.IsArgument
  unresolved : fault = .unresolved ↔ v.IsLine ∨ v.IsGroup ∨ v.IsSubscript

/-- The fault of a scope says where it stands, except for an argument that is left with a lone label
mark. -/
theorem Fold.isNamedBy_iff {v : Site} {obstacle : Obstacle} (h : Fold.Stands v)
    (hv : Fold.FoldsTo v (.error obstacle)) :
    (v.IsNamedBy obstacle.fault ↔ ¬ (v.IsArgument ∧ v.row? = some [.mark])) ∧
      (v.IsArgument → v.row? = some [.mark] → obstacle.fault = .unresolved) := by
  obtain ⟨terms, hterms, hresult⟩ := hv
  have hplace : ∀ name size, v.place ≠ .call name size := by
    intro name size heq
    rw [heq] at hresult
    cases hresult
  have hargument := h.isArgument_iff
  have hother := h.isOther_iff hplace
  have hrow : v.place = .argument → v.row? = some (foldRow false terms) := by
    intro heq
    rw [Site.row?, hterms, heq]
    rfl
  rcases Fold.fault_of_foldTerms hresult with ⟨heq, hmark, detail, hfault⟩ | ⟨hmark, hfault⟩
  · have hne : ¬ (v.IsArgument ∧ v.row? = some [.mark]) := by
      rintro ⟨-, hrow'⟩
      exact hmark (Option.some.inj ((hrow heq).symm.trans hrow'))
    refine ⟨iff_of_true ⟨?_, ?_⟩ hne, fun h h' => absurd ⟨h, h'⟩ hne⟩
    · exact iff_of_true ⟨detail, hfault⟩ (hargument.mpr heq)
    · exact iff_of_false (by simp [hfault]) fun h => hother.mp h heq
  · refine ⟨?_, fun _ _ => hfault⟩
    by_cases heq : v.place = .argument
    · have hlone : v.IsArgument ∧ v.row? = some [.mark] :=
        ⟨hargument.mpr heq, (hrow heq).trans (congrArg some (hmark heq))⟩
      refine iff_of_false (fun hnamed => ?_) (not_not_intro hlone)
      exact hother.mp (hnamed.unresolved.mp hfault) heq
    · refine iff_of_true ⟨?_, ?_⟩ fun hlone => heq (hargument.mp hlone.1)
      · exact iff_of_false (by simp [hfault]) fun h => heq (hargument.mp h)
      · exact iff_of_true hfault (hother.mpr heq)

/-- A nested line folds just if all its scopes do. If it does not, the fault is that of the first
scope that does not fold, of an argument for an argument and of any other scope for the line, a
group or a subscript, unless this is an argument that is left with a lone label mark. Such an
argument is reported as unresolved. -/
theorem Scope.fault_of_fold {cut : Nat → Nat → String} {read : NumeralReader} {tokens : List Token}
    {root : Scope} (hroot : Scope.ofTokens cut read tokens = .ok root) :
    ((∃ result, root.fold = .ok result) ↔ ∀ v ∈ root.sites, v.folds = true) ∧
      ∀ obstacle, root.fold = .error obstacle →
        ∃ v, root.sites.find? (fun u => !u.folds) = some v ∧
          (v.IsNamedBy obstacle.fault ↔ ¬ (v.IsArgument ∧ v.row? = some [.mark])) ∧
          (v.IsArgument → v.row? = some [.mark] → obstacle.fault = .unresolved) := by
  have hstands : ∀ v ∈ root.sites, Fold.Stands v := by
    obtain ⟨n, -, hclose⟩ := Scope.eq_of_ofTokens hroot
    have hkind : root.kind = .plain := by rw [Nest.plain_of_closeAll hclose]
    have hformed : ∀ s ∈ root.children, s.Formed true :=
      Scope.formed_of_ofTokens (fun _ _ _ => rfl) hroot
    exact fun v => Fold.stands_of_mem_sites hkind hformed
  have horder := Fold.inOrder_fold root
  have hfirst : ∀ obstacle, root.fold = .error obstacle →
      ∃ v ∈ root.sites, Fold.FoldsTo v (.error obstacle) ∧
        root.sites.find? (fun u => !u.folds) = some v := by
    intro obstacle herror
    rw [herror] at horder
    obtain ⟨before, v, after, hsites, hbefore, hv⟩ := horder
    refine ⟨v, by simp [hsites], hv, ?_⟩
    rw [hsites] at hstands ⊢
    exact Fold.find?_of_inOrder hstands hbefore hv
  constructor
  · cases hfold : root.fold with
    | error obstacle =>
      obtain ⟨v, hv, -, hfind⟩ := hfirst obstacle hfold
      refine iff_of_false (by simp) fun hall => ?_
      have hnot := List.find?_some hfind
      simp [hall v hv] at hnot
    | ok result =>
      rw [hfold] at horder
      refine iff_of_true ⟨result, rfl⟩ fun v hv => ?_
      obtain ⟨result, terms, hterms, hresult⟩ := horder v hv
      exact ((hstands v hv).folds_iff hterms).mpr ⟨result, hresult⟩
  · intro obstacle herror
    obtain ⟨v, hv, hfolds, hfind⟩ := hfirst obstacle herror
    exact ⟨v, hfind, Fold.isNamedBy_iff (hstands v hv) hfolds⟩

/-- A call of `f` with one leaf as its argument. -/
def Scope.callOf (leaf : Scope) : Scope :=
  ⟨.call, 1, some (.call "f" none []), [⟨.plain, 2, none, [leaf]⟩]⟩

/-- In `f(*)` the argument is the first scope that does not fold, and the fault says so. -/
theorem Scope.fault_of_fold_argument :
    Scope.ofTokens (cutLine " f(*)".toList) readNumeral [⟨.name, 1, 2⟩, ⟨.openParen, 2, 3⟩,
          ⟨.operator, 3, 4⟩, ⟨.closeParen, 4, 5⟩, ⟨.blank, 5, 5⟩] =
        .ok ⟨.plain, 0, none, [callOf ⟨.operator, 3, some (.bare .mul), []⟩]⟩ ∧
      Scope.fold ⟨.plain, 0, none, [callOf ⟨.operator, 3, some (.bare .mul), []⟩]⟩ =
        .error (.incomplete .argument (.bare .mul)) ∧
      ∃ v, v.IsArgument ∧ (Scope.sites ⟨.plain, 0, none,
          [callOf ⟨.operator, 3, some (.bare .mul), []⟩]⟩).find? (fun u => !u.folds) = some v ∧
        v.IsNamedBy (Obstacle.incomplete .argument (.bare .mul)).fault := by
  have hroot : Scope.ofTokens (cutLine " f(*)".toList) readNumeral [⟨.name, 1, 2⟩,
      ⟨.openParen, 2, 3⟩, ⟨.operator, 3, 4⟩, ⟨.closeParen, 4, 5⟩, ⟨.blank, 5, 5⟩] =
        .ok ⟨.plain, 0, none, [callOf ⟨.operator, 3, some (.bare .mul), []⟩]⟩ := by cbv
  have hfold : Scope.fold ⟨.plain, 0, none, [callOf ⟨.operator, 3, some (.bare .mul), []⟩]⟩ =
      .error (.incomplete .argument (.bare .mul)) := by cbv
  have hsite : (Scope.sites ⟨.plain, 0, none,
      [callOf ⟨.operator, 3, some (.bare .mul), []⟩]⟩).find? (fun u => !u.folds) =
        some ⟨some (callOf ⟨.operator, 3, some (.bare .mul), []⟩), .argument,
          ⟨.plain, 2, none, [⟨.operator, 3, some (.bare .mul), []⟩]⟩⟩ := by cbv
  obtain ⟨v, hfind, hnamed, -⟩ := (Scope.fault_of_fold hroot).2 _ hfold
  obtain rfl := Option.some.inj (hsite.symm.trans hfind)
  refine ⟨hroot, hfold, _, ⟨_, rfl, rfl⟩, hfind, hnamed.mpr ?_⟩
  rintro ⟨-, hrow⟩
  have hleft : Site.row? ⟨some (callOf ⟨.operator, 3, some (.bare .mul), []⟩), .argument,
      ⟨.plain, 2, none, [⟨.operator, 3, some (.bare .mul), []⟩]⟩⟩ =
        some [.node (.bare .mul)] := by cbv
  cases hleft.symm.trans hrow

/-- In `f(:)` the argument is the first scope that does not fold, but the fault is that of any other
scope. -/
theorem Scope.fault_of_fold_mark :
    scan " f(:)".toList = .ok [⟨.name, 1, 2⟩, ⟨.openParen, 2, 3⟩, ⟨.label, 3, 4⟩,
        ⟨.closeParen, 4, 5⟩, ⟨.blank, 5, 5⟩] ∧
      Scope.ofTokens (cutLine " f(:)".toList) readNumeral [⟨.name, 1, 2⟩, ⟨.openParen, 2, 3⟩,
          ⟨.label, 3, 4⟩, ⟨.closeParen, 4, 5⟩, ⟨.blank, 5, 5⟩] =
        .ok ⟨.plain, 0, none, [callOf ⟨.label, 3, none, []⟩]⟩ ∧
      Scope.fold ⟨.plain, 0, none, [callOf ⟨.label, 3, none, []⟩]⟩ =
        .error (.bareMark .argument) ∧
      ∃ v, v.IsArgument ∧ (Scope.sites ⟨.plain, 0, none,
          [callOf ⟨.label, 3, none, []⟩]⟩).find? (fun u => !u.folds) = some v ∧
        ¬ v.IsNamedBy (Obstacle.bareMark .argument).fault := by
  refine ⟨by cbv, by cbv, by cbv, ⟨some (callOf ⟨.label, 3, none, []⟩), .argument,
    ⟨.plain, 2, none, [⟨.label, 3, none, []⟩]⟩⟩, ⟨_, rfl, rfl⟩, by cbv, fun hnamed => ?_⟩
  obtain ⟨detail, hdetail⟩ := hnamed.argument.mpr ⟨_, rfl, rfl⟩
  cases hdetail

end MacroAsm

import MacroAsm.Proofs.Fold.Label
import MacroAsm.Proofs.Fold.Tree
import MacroAsm.Proofs.Print.Nest

/-!
# Folding the scopes of a printed node

`Legible.foldChildren_scopes`: the scopes of a legible node give the terms of the node. These are
the node itself, or what is indexed and the indices after it, since only they have no parentheses.

A row of such terms is read from left to right. What waits for an operand binds looser than an index
everywhere but after a cast, so that the terms of an operand are read as the operand (`run_terms`);
after a cast they are read as `Node.castOnto` says (`run_terms_cast`).
-/

namespace MacroAsm

namespace Node

open Fold Reading

/-- The terms of a legible node in the row of the scope around it. -/
def terms : Node → List Term
  | op .subscript (some l) (some i) => l.terms ++ [.node (.unary .subscript i.regrouped)]
  | n => [.node n.regrouped]
termination_by structural n => n

variable {read : NumeralReader} {labels : Bool} {n l r i : Node} {o : Operator} {stack : List Frame}
  {row done : List Term}

theorem terms_index : (binary .subscript l i).terms =
    l.terms ++ [.node (.unary .subscript i.regrouped)] := rfl

theorem terms_of_ne (h : ∀ a i, n ≠ .binary .subscript a i) : n.terms = [.node n.regrouped] := by
  unfold terms
  split
  next a i => exact absurd rfl (h a i)
  next => rfl

theorem Legible.index_induction {motive : ∀ n : Node, n.Legible read → Prop}
    (base : ∀ n h, (∀ a i, n ≠ .binary .subscript a i) → motive n h)
    (index : ∀ l i (hl : l.Legible read) (hi : i.Legible read), motive l hl →
      motive (.binary .subscript l i) (.binary rfl (by decide) hl hi))
    (h : n.Legible read) : motive n h := by
  induction h with
  | name h => exact base _ (.name h) (by rintro a i ⟨⟩)
  | string h => exact base _ (.string h) (by rintro a i ⟨⟩)
  | number h hread => exact base _ (.number h hread) (by rintro a i ⟨⟩)
  | unary ho hn => exact base _ (.unary ho hn) (by rintro a i ⟨⟩)
  | @binary o l r ho hfield hl hr ihl =>
    by_cases ho' : o = .subscript
    · subst ho'
      exact index l r hl hr ihl
    · apply base _ (.binary ho hfield hl hr)
      rintro a i ⟨⟩
      exact ho' rfl
  | field hs hpart => exact base _ (.field hs hpart) (by rintro a i ⟨⟩)
  | call hname hsize hargs h => exact base _ (.call hname hsize hargs h) (by rintro a i ⟨⟩)

theorem Legible.mem_terms (h : n.Legible read) : ∀ t ∈ n.terms, ∃ m, t = .node m ∧
    (m.isComplete = true ∨ ∃ i, m = .unary .subscript i ∧ i.isComplete = true) := by
  induction h using Legible.index_induction with
  | base n hn hne =>
    rw [terms_of_ne hne, List.forall_mem_singleton]
    exact ⟨_, rfl, .inl hn.isComplete_regrouped⟩
  | index l i hl hi ih =>
    rw [terms_index, List.forall_mem_append, List.forall_mem_singleton]
    exact ⟨ih, _, rfl, .inr ⟨_, rfl, hi.isComplete_regrouped⟩⟩

theorem Legible.raw_terms (h : n.Legible read) : ∀ t ∈ n.terms, t.Raw := by
  intro t ht
  obtain ⟨m, rfl, hm | ⟨i, rfl, hi⟩⟩ := h.mem_terms t ht
  · exact .value hm
  · exact .index hi

theorem terms_ne_nil : n.terms ≠ [] := by
  unfold terms
  split <;> simp

/-! ## Reading the terms -/

/-- Where only looser operators wait, the terms of a node are read as the node. -/
theorem Legible.run_terms (h : n.Legible read) (labels : Bool) {before : Reading}
    (hstack : before.stack? = some stack)
    (hloose : ∀ f ∈ stack.head?, Operator.subscript.looseness < f.looseness) :
    before.run labels (rowPieces n.terms) = some (holding stack n.regrouped) := by
  induction h using Legible.index_induction with
  | base n hn hne =>
    rw [terms_of_ne hne, rowPieces_cons, pieces_whole hn.isComplete_regrouped,
      List.singleton_append, run_cons, step_operand, hstack]
    rfl
  | index l i hl hi ih =>
    rw [terms_index, rowPieces_append, run_append, ih, rowPieces_cons, pieces_index,
      Option.bind_some, List.singleton_append, run_cons, step, unwind_of_lt hloose]
    rfl

theorem closeFrames_of_unwind {k : Nat} {m : Node} (h : unwind k stack n = ([], m)) :
    closeFrames stack n = m := by
  induction stack generalizing n with
  | nil =>
    cases h
    rfl
  | cons f stack ih =>
    rw [unwind] at h
    split at h
    · exact ih h
    · cases h

/-- After a cast, the cast is the first operand of the indices. -/
theorem Legible.run_terms_cast (h : r.Legible read) (labels : Bool) (l : Node) :
    ∃ stack m, (wanting [.binary .cast l]).run labels (rowPieces r.terms) = some (holding stack m) ∧
      unwind Operator.subscript.looseness stack m = ([], castOnto l r r.regrouped) := by
  induction h using Legible.index_induction with
  | base r hr hne =>
    refine ⟨[.binary .cast l], r.regrouped, ?_, ?_⟩
    · rw [terms_of_ne hne, rowPieces_cons, pieces_whole hr.isComplete_regrouped]
      rfl
    · rw [castOnto_of_ne hne]
      rfl
  | index a i ha hi ih =>
    obtain ⟨stack, m, hrun, hunwind⟩ := ih
    refine ⟨[], castOnto l (.binary .subscript a i) (Node.binary .subscript a i).regrouped, ?_, rfl⟩
    rw [terms_index, rowPieces_append, run_append, hrun, rowPieces_cons, pieces_index,
      Option.bind_some, List.singleton_append, run_cons, step, hunwind]
    rfl

/-! ## Rows -/

theorem readSignsOnto_of_not_sign {rest : List Term}
    (hrow : ∀ t ∈ row, t ≠ .node (.bare .sub) ∧ t ≠ .node (.bare .add)) :
    readSignsOnto done (row ++ rest) = readSignsOnto (row.reverse ++ done) rest := by
  induction row generalizing done with
  | nil => rfl
  | cons t row ih =>
    rw [List.forall_mem_cons] at hrow
    obtain ⟨⟨hsub, hadd⟩, hrow⟩ := hrow
    rw [List.cons_append, readSignsOnto.eq_4 _ _ _ hsub hadd, ih hrow]
    simp

theorem Legible.not_sign_of_mem (h : n.Legible read) :
    ∀ t ∈ n.terms, t ≠ .node (.bare .sub) ∧ t ≠ .node (.bare .add) := by
  intro t ht
  obtain ⟨m, rfl, hm | ⟨i, rfl, -⟩⟩ := h.mem_terms t ht
  · constructor
    · rintro ⟨⟩
      cases hm
    · rintro ⟨⟩
      cases hm
  · simp [Node.unary, Node.bare]

theorem Legible.readSignsOnto_terms (h : n.Legible read) :
    readSignsOnto done n.terms = done.reverse ++ n.terms := by
  have hsigns : readSignsOnto done (n.terms ++ []) =
      readSignsOnto (n.terms.reverse ++ done) [] := readSignsOnto_of_not_sign h.not_sign_of_mem
  simpa [readSignsOnto] using hsigns

theorem Legible.signs_terms (h : n.Legible read) : signs n.terms = n.terms :=
  h.readSignsOnto_terms

theorem Legible.isSignPosition_terms (h : n.Legible read) :
    isSignPosition (n.terms.reverse ++ done) = false := by
  cases hterms : n.terms.reverse with
  | nil => exact absurd (List.reverse_eq_nil_iff.mp hterms) terms_ne_nil
  | cons t row =>
    have hmem : t ∈ n.terms := by
      rw [← List.mem_reverse, hterms]
      exact List.mem_cons_self ..
    obtain ⟨m, rfl, hm | ⟨i, rfl, -⟩⟩ := h.mem_terms t hmem
    · cases m with
      | op o l r =>
        cases r with
        | none => cases hm
        | some r => rfl
      | _ => rfl
    · rfl

theorem signs_binary (hl : l.Legible read) (hr : r.Legible read) (ho : o.isUnary = false) :
    signs (l.terms ++ .node (.bare o) :: r.terms) = l.terms ++ .node (.bare o) :: r.terms := by
  have hsign : isSignPosition (l.terms.reverse ++ []) = false := hl.isSignPosition_terms
  have hstep : readSignsOnto (l.terms.reverse ++ []) (.node (.bare o) :: r.terms) =
      readSignsOnto (.node (.bare o) :: (l.terms.reverse ++ [])) r.terms := by
    by_cases hsub : o = .sub
    · subst hsub
      exact if_neg (Bool.eq_false_iff.mp hsign)
    · by_cases hadd : o = .add
      · subst hadd
        exact if_neg (Bool.eq_false_iff.mp hsign)
      · exact readSignsOnto.eq_4 _ _ _ (by simp [Node.bare, hsub]) (by simp [Node.bare, hadd])
  rw [signs, readSignsOnto_of_not_sign hl.not_sign_of_mem, hstep, hr.readSignsOnto_terms]
  simp

theorem signs_unary (hn : n.Legible read) (ho : o.isUnary = true) :
    signs (.node (.bare o.written) :: n.terms) = .node (.bare o) :: n.terms := by
  have hstep : signs (.node (.bare o.written) :: n.terms) =
      readSignsOnto [.node (.bare o)] n.terms := by
    cases o <;> first | rfl | cases ho
  rw [hstep, hn.readSignsOnto_terms]
  rfl

theorem foldTerms_of_outcome {place : Place} (hplace : ∀ name size, place ≠ .call name size)
    (hrow : ∀ t ∈ row, t.Raw)
    (h : ∀ labels, (wanting []).outcome labels (rowPieces (signs row)) = some n) :
    foldTerms place row = .ok (some (wrap place n)) := by
  obtain ⟨hfold, hn⟩ : foldRow (place = .line) row = [.node n] ∧ n.isComplete = true :=
    (foldRow_eq_singleton_iff hrow).mpr (h _)
  exact foldTerms_of_foldRow hplace hfold hn

theorem Legible.foldTerms_terms {place : Place} (hplace : ∀ name size, place ≠ .call name size)
    (h : n.Legible read) : foldTerms place n.terms = .ok (some (wrap place n.regrouped)) := by
  apply foldTerms_of_outcome hplace h.raw_terms
  intro labels
  rw [h.signs_terms, outcome, h.run_terms labels rfl (by simp)]
  rfl

theorem foldTerms_unary (h : n.Legible read) (ho : o.isUnary = true) :
    foldTerms .group (.node (.bare o.written) :: n.terms) =
      .ok (some (unary o n).regrouped) := by
  have hraw : ∀ t ∈ Term.node (.bare o.written) :: n.terms, t.Raw := by
    refine List.forall_mem_cons.mpr ⟨.operator ?_, h.raw_terms⟩
    cases o <;> first | decide | cases ho
  have hlt : Operator.subscript.looseness < o.looseness := by
    cases o <;> first | decide | cases ho
  have hloose : ∀ f ∈ [Frame.unary o].head?, Operator.subscript.looseness < f.looseness := by
    rintro _ ⟨⟩
    exact hlt
  apply foldTerms_of_outcome (by simp) hraw
  intro labels
  rw [signs_unary h ho, rowPieces_cons, Node.bare, pieces_unary ho, List.singleton_append,
    outcome_cons, step, Option.bind_some, outcome, h.run_terms labels rfl hloose, regrouped_unary]
  rfl

theorem foldTerms_binary (hl : l.Legible read) (hr : r.Legible read) (ho : o.isUnary = false)
    (hindex : o ≠ .subscript) (hfield : o ≠ .field) :
    foldTerms .group (l.terms ++ .node (.bare o) :: r.terms) =
      .ok (some (binary o l r).regrouped) := by
  have hraw : ∀ t ∈ l.terms ++ Term.node (.bare o) :: r.terms, t.Raw := by
    rw [List.forall_mem_append, List.forall_mem_cons]
    exact ⟨hl.raw_terms, .operator hindex, hr.raw_terms⟩
  apply foldTerms_of_outcome (by simp) hraw
  intro labels
  have hpieces : rowPieces (signs (l.terms ++ .node (.bare o) :: r.terms)) =
      rowPieces l.terms ++ .binary o :: rowPieces r.terms := by
    rw [signs_binary hl hr ho, rowPieces_append, rowPieces_cons, Node.bare,
      pieces_binary ho hindex (.inl rfl)]
    rfl
  have hleft : (wanting []).outcome labels (rowPieces l.terms ++ .binary o :: rowPieces r.terms) =
      (wanting [.binary o l.regrouped]).outcome labels (rowPieces r.terms) := by
    rw [outcome_append, hl.run_terms labels rfl (by simp)]
    rfl
  rw [hpieces, hleft, outcome]
  by_cases hcast : o = .cast
  · -- an index closes the frame of the cast, since the cast binds tighter
    subst hcast
    obtain ⟨stack, m, hrun, hunwind⟩ := hr.run_terms_cast labels l.regrouped
    rw [hrun, regrouped_cast, ← closeFrames_of_unwind hunwind]
    rfl
  · have hlt : Operator.subscript.looseness < o.looseness := by
      clear hraw hpieces hleft
      cases o <;> first | decide | contradiction
    have hloose : ∀ f ∈ [Frame.binary o l.regrouped].head?,
        Operator.subscript.looseness < f.looseness := by
      rintro _ ⟨⟩
      exact hlt
    rw [hr.run_terms labels rfl hloose, regrouped_binary hcast]
    rfl

/-! ## Scopes -/

theorem foldChild_eq {place inner : Place} {child : Scope} (hscope : child.isScope = true)
    (hinner : placeWithin place child = inner)
    (hchildren : foldChildren inner child.children = .ok row)
    (hfold : foldTerms inner row = .ok (some n)) : foldChild place child = .ok [.node n] := by
  rw [foldChild_of_scope hscope, hinner, hchildren]
  show (foldTerms inner row).map (fun n => n.toList.map Term.node) = .ok [.node n]
  rw [hfold]
  rfl

theorem foldChildren_leaf {place : Place} {child : Scope} {children : List Scope}
    (hchild : child.isScope = false) (hchildren : foldChildren place children = .ok row) :
    foldChildren place (child :: children) = .ok (.ofLeaf child :: row) := by
  rw [foldChildren, foldChild_of_leaf hchild, hchildren]
  rfl

theorem foldTerms_argument_nil : foldTerms .argument [] = .ok (some (.text "")) := by
  have hfold : foldRow (Place.argument = .line) [] = [] := by
    rw [foldRow, foldEntries]
    rfl
  simp only [foldTerms, hfold]
  rfl

theorem foldChildren_arguments {name : String} {size : Option String} {args : List Node}
    {depth : Nat} (hargs : ∀ arg ∈ args, arg ≠ .text "" → arg.Legible read ∧
      foldChildren .argument (arg.scopes (depth + 1)) = .ok arg.terms) :
    foldChildren (.call name size) (argumentScopes args depth) =
      .ok (args.map fun arg => .node arg.regrouped) := by
  induction args with
  | nil => rfl
  | cons arg args ih =>
    rw [List.forall_mem_cons] at hargs
    obtain ⟨harg, hargs⟩ := hargs
    have hchild : foldChild (.call name size) ⟨.plain, depth, none, arg.scopes (depth + 1)⟩ =
        .ok [.node arg.regrouped] := by
      by_cases hempty : arg = .text ""
      · subst hempty
        exact foldChild_eq rfl rfl rfl foldTerms_argument_nil
      · obtain ⟨hlegible, hterms⟩ := harg hempty
        have hfold : foldTerms .argument arg.terms = .ok (some arg.regrouped) :=
          hlegible.foldTerms_terms (by simp)
        exact foldChild_eq rfl rfl hterms hfold
    rw [argumentScopes, foldChildren, hchild, ih hargs]
    rfl

theorem placeWithin_plain {place : Place} {depth : Nat} {children : List Scope}
    (hplace : ∀ name size, place ≠ .call name size) :
    placeWithin place ⟨.plain, depth, none, children⟩ = .group := by
  cases place <;> first | rfl | exact absurd rfl (hplace _ _)

/-- The scopes of a legible node give its terms. -/
theorem Legible.foldChildren_scopes (h : n.Legible read) (place : Place) (depth : Nat)
    (hplace : ∀ name size, place ≠ .call name size) :
    foldChildren place (n.scopes depth) = .ok n.terms := by
  induction h generalizing place depth with
  | @name s h =>
    rw [scopes, if_neg h.ne_empty]
    exact foldChildren_leaf rfl rfl
  | string | number | field => exact foldChildren_leaf rfl rfl
  | @unary o n ho hn ih =>
    have hleaf : (⟨.operator, depth + 1, some (.bare o.written), []⟩ : Scope).isScope = false := by
      cases o <;> first | rfl | cases ho
    have hchildren := foldChildren_leaf hleaf (ih .group (depth + 1) (by simp))
    rw [scopes_unary ho, foldChildren_singleton, terms_of_ne (by rintro a i ⟨⟩)]
    exact foldChild_eq rfl (placeWithin_plain hplace) hchildren (foldTerms_unary hn ho)
  | @binary o l r ho hfield hl hr ihl ihr =>
    by_cases hindex : o = .subscript
    · subst hindex
      have hindices : foldChildren place
          [⟨.operator, depth, some (.bare .subscript), r.scopes (depth + 1)⟩] =
            .ok [.node (.unary .subscript r.regrouped)] := by
        have hfold : foldTerms .subscript r.terms =
            .ok (some (.unary .subscript r.regrouped)) := hr.foldTerms_terms (by simp)
        rw [foldChildren_singleton]
        exact foldChild_eq rfl rfl (ihr .subscript (depth + 1) (by simp)) hfold
      show foldChildren place (l.scopes depth ++ _) = .ok (l.terms ++ _)
      rw [foldChildren_append, ihl place depth hplace, hindices]
      rfl
    · have hleaf : (⟨.operator, depth + 1, some (.bare o), []⟩ : Scope).isScope = false := by
        cases o <;> first | rfl | contradiction
      have hchildren : foldChildren .group (l.scopes (depth + 1) ++
          ⟨.operator, depth + 1, some (.bare o), []⟩ :: r.scopes (depth + 1)) =
            .ok (l.terms ++ .node (.bare o) :: r.terms) := by
        rw [foldChildren_append, ihl .group (depth + 1) (by simp),
          foldChildren_leaf hleaf (ihr .group (depth + 1) (by simp))]
        rfl
      have hne : ∀ a i, Node.binary o l r ≠ .binary .subscript a i := by
        rintro a i ⟨⟩
        exact hindex rfl
      rw [scopes_binary hindex hfield, foldChildren_singleton, terms_of_ne hne]
      exact foldChild_eq rfl (placeWithin_plain hplace) hchildren
        (foldTerms_binary hl hr ho hindex hfield)
  | @call name size args hname hsize hargs h ih =>
    have hchildren : foldChildren (.call name size) (argumentScopes args (depth + 1)) =
        .ok (args.map fun arg => .node arg.regrouped) :=
      foldChildren_arguments fun arg harg hempty =>
        ⟨h arg harg hempty, ih arg harg hempty .argument _ (by simp)⟩
    have hfold : foldTerms (.call name size) (args.map fun arg => .node arg.regrouped) =
        .ok (some (Node.call name size args).regrouped) := by
      rw [regrouped, regroupedAll_eq_map, foldTerms, List.filterMap_map]
      simp [Function.comp_def, Term.node?]
    rw [scopes, foldChildren_singleton, terms_of_ne (by rintro a i ⟨⟩)]
    exact foldChild_eq rfl rfl hchildren hfold

end Node

end MacroAsm

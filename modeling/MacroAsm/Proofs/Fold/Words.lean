import MacroAsm.Proofs.Fold.Sound
import MacroAsm.Proofs.Word

/-!
# A fold keeps the words of a line

`words_of_fold`: the node that a line folds to has the words of its leaves, in their order.

Proof. What a term of a row takes stands right next to it, so that a step of a fold leaves the words
of the row as they are (`words_of_taken`). Reading the signs of a row drops those `+` that are no
words (`words_readSignsOnto`). From there it is an induction over the nested line, in which a child
adds one term that has its words, or none if there is nothing in it (`Gives`).
-/

namespace MacroAsm

namespace Fold

/-! ## Rows -/

def Term.words : Term → List Word
  | node n => n.words
  | mark => [.mark]

def termWords (row : List Term) : List Word := row.flatMap Term.words

/-- The term is no index that lacks its operand. -/
def Term.Indexed (t : Term) : Prop := ∀ l, t ≠ .node (.op .subscript l none)

variable {labels : Bool} {place outer : Place} {n : Node} {t : Term} {c : Scope} {o : Operator}
  {l r : Option Node} {left right row terms next done : List Term} {children : List Scope}

theorem words_leftOperand : (Node.op o (some n) r).words = n.words ++ (Node.op o none r).words := by
  cases o <;> simp [Node.words, Node.optionWords]

theorem words_rightOperand (ho : o ≠ .subscript) :
    (Node.op o l (some n)).words = (Node.op o l none).words ++ n.words := by
  rw [Node.words_op ho, Node.words_op ho]
  simp [Node.optionWords]

theorem words_of_taken (h : ∀ u ∈ left.reverse ++ t :: right, u.Indexed)
    (htaken : Taken left right t next) :
    (∀ u ∈ next, u.Indexed) ∧ termWords next = termWords (left.reverse ++ t :: right) := by
  obtain ⟨hleft, ht, hright⟩ := forall_mem_around.mp h
  cases htaken with
  | @leftOperand o n r rest hl hn ho _ =>
    subst hl
    rw [List.forall_mem_cons] at hleft
    refine ⟨forall_mem_around.mpr ⟨hleft.2, ?_, hright⟩, ?_⟩
    · rintro l ⟨⟩
      exact ht _ rfl
    · simp [termWords, Term.words, words_leftOperand]
  | @rightOperand o l n rest hr hn _ =>
    subst hr
    rw [List.forall_mem_cons] at hright
    have ho : o ≠ .subscript := by
      rintro rfl
      exact ht _ rfl
    refine ⟨forall_mem_around.mpr ⟨hleft, by rintro l ⟨⟩, hright.2⟩, ?_⟩
    simp [termWords, Term.words, words_rightOperand ho]
  | @bothOperands o n m before after hl hn hr hm _ =>
    subst hl hr
    rw [List.forall_mem_cons] at hleft hright
    have ho : o ≠ .subscript := by
      rintro rfl
      exact ht _ rfl
    refine ⟨forall_mem_around.mpr ⟨hleft.2, by rintro l ⟨⟩, hright.2⟩, ?_⟩
    simp [termWords, Term.words, Node.binary, Node.bare, words_leftOperand, words_rightOperand ho]
  | @bareLabel name before hl hname hr =>
    subst hl hr
    rw [List.forall_mem_cons] at hleft
    refine ⟨forall_mem_around.mpr ⟨hleft.2, by rintro l ⟨⟩, by simp⟩, ?_⟩
    simp [termWords, Term.words, Node.words, Node.optionWords]
  | target hl hname hr | equate hl hname hr =>
    subst hl hr
    rw [List.forall_mem_cons] at hleft hright
    refine ⟨forall_mem_around.mpr ⟨hleft.2, by rintro l ⟨⟩, hright.2⟩, ?_⟩
    simp [termWords, Term.words, Node.words, Node.optionWords]

theorem words_foldRow (labels : Bool) (h : ∀ t ∈ terms, t.Indexed) :
    termWords (foldRow labels terms) = termWords (signs terms) ∧
      (foldRow labels terms = [] ↔ signs terms = []) := by
  have hsigns : ∀ t ∈ signs terms, t.Indexed :=
    forall_mem_signs (fun o ho l heq => by cases heq; simp at ho) h
  have hfold : (∀ t ∈ foldRow labels terms, t.Indexed) ∧
      termWords (foldRow labels terms) = termWords (signs terms) ∧
        (foldRow labels terms = [] ↔ signs terms = []) := by
    refine (foldRow_induction (P := fun row => (∀ t ∈ row, t.Indexed) ∧
      termWords row = termWords (signs terms) ∧ (row = [] ↔ signs terms = [])) ?_
      ⟨hsigns, rfl, Iff.rfl⟩).1
    rintro k left t right next ⟨hrow, hwords, hnil⟩ - htaken
    obtain ⟨hnext, hsame⟩ := words_of_taken hrow htaken
    have hne : next ≠ [] := by cases htaken <;> simp
    exact ⟨hnext, hsame.trans hwords, by simpa [hne] using hnil⟩
  exact hfold.2

/-! ## Signs -/

theorem readSignsOnto_cons (t : Term) (done row : List Term) :
    t = .node (.bare .add) ∧ isSignPosition done = true ∧
        readSignsOnto done (t :: row) = readSignsOnto done row ∨
      (t = .node (.bare .add) → isSignPosition done = false) ∧
        ∃ t' : Term, t'.words = t.words ∧ isSignPosition [t'] = isSignPosition [t] ∧
          readSignsOnto done (t :: row) = readSignsOnto (t' :: done) row := by
  generalize hrow : t :: row = terms
  cases hdone : isSignPosition done <;> rw [readSignsOnto.eq_def] <;> split
  next => cases hrow
  next =>
    cases hrow
    exact .inr ⟨by rintro ⟨⟩, .node (.bare .sub), rfl, rfl, by simp [hdone]⟩
  next =>
    cases hrow
    exact .inr ⟨fun _ => rfl, .node (.bare .add), rfl, rfl, by simp [hdone]⟩
  next =>
    cases hrow
    exact .inr ⟨fun _ => rfl, t, rfl, rfl, rfl⟩
  next => cases hrow
  next =>
    cases hrow
    exact .inr ⟨by rintro ⟨⟩, .node (.bare .neg), rfl, rfl, by simp [hdone]⟩
  next =>
    cases hrow
    exact .inl ⟨rfl, rfl, by simp [hdone]⟩
  next _ _ hadd =>
    cases hrow
    exact .inr ⟨fun heq => absurd heq hadd, t, rfl, rfl, rfl⟩

theorem isSignPosition_cons (t : Term) (done : List Term) :
    isSignPosition (t :: done) = isSignPosition [t] := by
  rcases t with ⟨_ | _ | _ | _ | _ | ⟨_, _, _ | _⟩ | _⟩ | _ <;> rfl

/-! ## Scopes -/

/-- What a leaf or scope adds to the row around it: a term with its words, or nothing if there is
nothing in it and it is no argument. -/
inductive Gives (outer : Place) (c : Scope) : List Term → Prop
  | nothing (hplace : placeWithin outer c ≠ .argument) (hvoid : c.isVoid = true) : Gives outer c []
  | term {t : Term} (hvoid : placeWithin outer c ≠ .argument → c.isVoid = false)
      (hwords : t.words = c.words) (hsign : isSignPosition [t] = c.leavesSign)
      (hplus : t = .node (.bare .add) ↔ c.isPlus = true) : Gives outer c [t]

theorem placeWithin_ne_argument (hplace : ∀ name size, place ≠ .call name size) (c : Scope) :
    placeWithin place c ≠ .argument := by
  unfold placeWithin
  split
  · split <;> simp
  · simp
  · split
    next => exact absurd rfl (hplace _ _)
    next => simp

/-- Reading the signs of a scope leaves the words of its children. -/
theorem words_readSignsOnto (hplace : ∀ name size, place ≠ .call name size)
    (hgives : ∀ c ∈ children, ∀ new, foldChild place c = .ok new → Gives place c new)
    (hfold : foldChildren place children = .ok terms) (done : List Term) :
    termWords (readSignsOnto done terms) =
        termWords done.reverse ++ Scope.rowWords (isSignPosition done) children ∧
      (readSignsOnto done terms = [] ↔ done = [] ∧ Scope.areVoid children = true) := by
  induction children generalizing terms done with
  | nil =>
    cases hfold
    simp [readSignsOnto, Scope.rowWords, Scope.areVoid]
  | cons c children ih =>
    rw [List.forall_mem_cons] at hgives
    obtain ⟨new, rest, hnew, hrest, rfl⟩ := eq_of_foldChildren_cons hfold
    rw [Scope.rowWords, Scope.areVoid]
    cases hgives.1 new hnew with
    | nothing _ hvoid => simpa [hvoid] using ih hgives.2 hrest done
    | @term t hvoid hwords hsign hplus =>
      have hc : c.isVoid = false := hvoid (placeWithin_ne_argument hplace c)
      rw [List.singleton_append]
      rcases readSignsOnto_cons t done rest with ⟨hadd, hdone, hread⟩ | ⟨hadd, t', ht', hsign', hread⟩
      · rw [hread, hdone, hplus.mp hadd]
        simpa [hdone] using ih hgives.2 hrest done
      · obtain ⟨hih, hnil⟩ := ih hgives.2 hrest (t' :: done)
        have hkept : (c.isVoid || isSignPosition done && c.isPlus) = false := by
          cases hp : c.isPlus with
          | false => simp [hc]
          | true => simp [hc, hadd (hplus.mpr hp)]
        rw [hread, hih, hkept, isSignPosition_cons, hsign', hsign]
        refine ⟨by simp [termWords, ht', hwords], ?_⟩
        rw [hnil]
        constructor
        · rintro ⟨hcons, -⟩
          cases hcons
        · rintro ⟨rfl, hvoid⟩
          simp only [isSignPosition, hc, Bool.true_and, Bool.false_or] at hkept
          simp [hkept, hc] at hvoid

theorem words_of_foldTerms {result : Option Node} (hplace : ∀ name size, place ≠ .call name size)
    (hgives : ∀ c ∈ children, ∀ new, foldChild place c = .ok new → Gives place c new)
    (hterms : ∀ t ∈ terms, t.Raw) (hfold : foldChildren place children = .ok terms)
    (hresult : foldTerms place terms = .ok result) :
    Scope.areVoid children = true ∧ foldEmpty place = .ok result ∨
      Scope.areVoid children = false ∧ ∃ n, result = some (wrap place n) ∧ n.isComplete = true ∧
        n.words = Scope.rowWords true children := by
  obtain ⟨hsigns, hnil⟩ := words_readSignsOnto hplace hgives hfold []
  obtain ⟨hwords, hempty⟩ := words_foldRow (place = .line) fun t ht l heq =>
    (heq ▸ (hterms t ht).formed).ne_subscript rfl
  rw [← signs] at hsigns hnil
  rcases eq_of_foldTerms hplace hresult with ⟨n, hrow, hn, rfl⟩ | ⟨hrow, hresult⟩
  · refine .inr ⟨?_, n, rfl, hn, ?_⟩
    · rw [Bool.eq_false_iff]
      intro hvoid
      rw [hempty.mpr (hnil.mpr ⟨rfl, hvoid⟩)] at hrow
      cases hrow
    · rw [hrow, hsigns] at hwords
      simpa [termWords, Term.words, isSignPosition] using hwords
  · exact .inl ⟨(hnil.mp (hempty.mp hrow)).2, hresult⟩

theorem isSignPosition_of_isComplete (hn : n.isComplete = true) :
    isSignPosition [.node n] = false := by
  rcases n with _ | _ | _ | _ | _ | ⟨o, l, _ | r⟩ | _
  case op.none => simp [Node.isComplete] at hn
  all_goals rfl

theorem gives_of_isComplete (hn : n.isComplete = true) (hwords : n.words = c.words)
    (hvoid : placeWithin outer c ≠ .argument → c.isVoid = false) (hsign : c.leavesSign = false)
    (hplus : c.isPlus = false) : Gives outer c [.node n] := by
  refine .term hvoid hwords ((isSignPosition_of_isComplete hn).trans hsign.symm) ?_
  rw [hplus]
  constructor
  · rintro ⟨⟩
    cases hn
  · rintro ⟨⟩

theorem words_of_arguments {name : String} {size : Option String}
    (hplain : ∀ c ∈ children, c.kind = .plain)
    (hgives : ∀ c ∈ children, ∀ new, foldChild (.call name size) c = .ok new →
      Gives (.call name size) c new)
    (hfold : foldChildren (.call name size) children = .ok terms) :
    Node.listWords (terms.filterMap Term.node?) = Scope.argumentWords children := by
  induction children generalizing terms with
  | nil =>
    cases hfold
    rfl
  | cons c children ih =>
    rw [List.forall_mem_cons] at hplain hgives
    obtain ⟨new, rest, hnew, hrest, rfl⟩ := eq_of_foldChildren_cons hfold
    obtain ⟨n, rfl⟩ := eq_singleton_of_foldChild_argument hplain.1 hnew
    cases hgives.1 _ hnew with
    | term _ hwords =>
      rw [Scope.argumentWords, ← hwords, ← ih hplain.2 hgives.2 hrest]
      rfl

theorem words_of_leaf {kind : ScopeKind} {depth : Nat}
    (hleaf : (⟨kind, depth, some n, []⟩ : Scope).isScope = false) :
    (⟨kind, depth, some n, []⟩ : Scope).words = n.words := by
  cases kind with
  | plain | call => cases hleaf
  | operator =>
    rcases n with _ | _ | _ | _ | _ | ⟨o, l, r⟩ | _
    case op =>
      cases o with
      | subscript => cases hleaf
      | _ => rfl
    all_goals rfl
  | _ => rfl

theorem gives_of_leaf {kind : ScopeKind} {depth : Nat} (hkind : kind ≠ .label)
    (hleaf : (⟨kind, depth, some n, []⟩ : Scope).isScope = false) (hn : n.isComplete = true) :
    Gives outer ⟨kind, depth, some n, []⟩ [.node n] := by
  refine gives_of_isComplete hn (words_of_leaf hleaf).symm ?_ ?_ ?_
  · intro _
    cases kind <;> first | rfl | cases hleaf
  · unfold Scope.leavesSign
    split
    next heq => exact absurd heq hkind
    next heq =>
      cases heq
      simp [Node.isComplete] at hn
    next => rfl
  · unfold Scope.isPlus
    split
    next heq =>
      cases heq
      cases hn
    next => rfl

theorem gives_of_foldChild {marks : Bool} (h : c.Formed marks)
    (hfold : foldChild outer c = .ok terms) : Gives outer c terms := by
  induction h generalizing outer terms with
  | mark =>
    cases hfold
    exact .term (fun _ => rfl) rfl rfl ⟨by rintro ⟨⟩, by rintro ⟨⟩⟩
  | @operator depth o ho =>
    rw [foldChild_of_leaf (by simp [Scope.isScope, Node.bare, ho])] at hfold
    cases hfold
    refine .term (fun _ => rfl) ?_ ?_ ?_
    · exact (words_of_leaf (by simp [Scope.isScope, Node.bare, ho])).symm
    · simp [Term.ofLeaf, isSignPosition, Scope.leavesSign, Node.bare, ho]
    · cases o <;> simp [Term.ofLeaf, Scope.isPlus, Node.bare]
  | @value kind depth n hkind hleaf hn hlabel =>
    rw [foldChild_of_leaf hleaf] at hfold
    cases hfold
    rw [ofLeaf_value hkind]
    exact gives_of_leaf hkind hleaf hn.isComplete
  | @group depth children h ih =>
    obtain ⟨inner, result, hinner, hresult, rfl⟩ := foldTerms_of_foldChild rfl hfold
    have hraw : ∀ t ∈ inner, t.Raw := fun t ht => (adds_of_foldChildren h hinner t ht).1
    have hplace : ∀ name size,
        placeWithin outer ⟨.plain, depth, none, children⟩ ≠ .call name size := by
      rcases placeWithin_plain outer depth children with hplace | hplace <;> simp [hplace]
    rcases words_of_foldTerms hplace (fun c hc new hnew => ih c hc hnew) hraw hinner hresult with
      ⟨hvoid, hempty⟩ | ⟨hvoid, n, rfl, hn, hwords⟩
    · rcases placeWithin_plain outer depth children with hplace | hplace
      · rw [hplace] at hempty
        cases hempty
        exact .nothing (by simp [hplace]) hvoid
      · rw [hplace] at hempty
        cases hempty
        refine gives_of_isComplete rfl ?_ (fun h => absurd hplace h) rfl rfl
        exact (Scope.rowWords_of_areVoid hvoid).symm
    · have hwrap : wrap (placeWithin outer ⟨.plain, depth, none, children⟩) n = n := by
        rcases placeWithin_plain outer depth children with hplace | hplace <;> rw [hplace] <;> rfl
      rw [hwrap]
      exact gives_of_isComplete hn hwords (fun _ => hvoid) rfl rfl
  | @brackets depth children h ih =>
    obtain ⟨inner, result, hinner, hresult, rfl⟩ := foldTerms_of_foldChild rfl hfold
    have hraw : ∀ t ∈ inner, t.Raw := fun t ht => (adds_of_foldChildren h hinner t ht).1
    have hplace : ∀ name size, Place.subscript ≠ .call name size := by simp
    rcases words_of_foldTerms hplace (fun c hc new hnew => ih c hc hnew) hraw hinner hresult with
      ⟨hvoid, hempty⟩ | ⟨hvoid, n, rfl, hn, hwords⟩
    · cases hempty
    · refine .term (fun _ => rfl) ?_ rfl ⟨by rintro ⟨⟩, by rintro ⟨⟩⟩
      show Word.openIndex :: (n.words ++ [.closeIndex]) =
        .openIndex :: (Scope.rowWords true children ++ [.closeIndex])
      rw [hwords]
  | @call depth name size args hargs hplain h ih =>
    obtain ⟨inner, result, hinner, hresult, rfl⟩ := foldTerms_of_foldChild rfl hfold
    cases hresult
    refine gives_of_isComplete rfl ?_ (fun _ => rfl) rfl rfl
    show [Word.call name size (Node.listWords (inner.filterMap Term.node?))] =
      [.call name size (Scope.argumentWords args)]
    rw [words_of_arguments hplain (fun c hc new hnew => ih c hc hnew) hinner]

end Fold

/-! ## Lines -/

/-- The node that a nested line folds to has the words of its leaves, none of them lost, doubled or
out of its place. -/
theorem Scope.words_of_fold {cut : Nat → Nat → String} {read : NumeralReader} {tokens : List Token}
    {root : Scope} {n : Node} (hroot : Scope.ofTokens cut read tokens = .ok root)
    (hfold : root.fold = .ok (some n)) : n.words = root.words := by
  have hformed : ∀ c ∈ root.children, c.Formed true :=
    Scope.formed_of_ofTokens (fun _ _ _ => rfl) hroot
  obtain ⟨nesting, -, hclose⟩ := Scope.eq_of_ofTokens hroot
  rw [Nest.plain_of_closeAll hclose]
  show n.words = Scope.rowWords true root.children
  rw [Scope.fold_eq] at hfold
  split at hfold
  next => cases hfold
  next terms hterms =>
    have hraw : ∀ t ∈ terms, t.Raw := fun t ht =>
      (Fold.adds_of_foldChildren hformed hterms t ht).1
    have hgives : ∀ c ∈ root.children, ∀ new, Fold.foldChild .line c = .ok new →
        Fold.Gives .line c new := fun c hc new hnew => Fold.gives_of_foldChild (hformed c hc) hnew
    rcases Fold.words_of_foldTerms (by simp) hgives hraw hterms hfold with
      ⟨-, hempty⟩ | ⟨-, m, heq, -, hwords⟩
    · cases hempty
    · cases heq
      exact hwords

/-- In `-(+)a` the `+` in parentheses is no word. -/
theorem Scope.words_of_fold_void :
    Scope.ofTokens (cutLine " -(+)a".toList) readNumeral
        [⟨.operator, 1, 2⟩, ⟨.openParen, 2, 3⟩, ⟨.operator, 3, 4⟩, ⟨.closeParen, 4, 5⟩,
          ⟨.name, 5, 6⟩, ⟨.blank, 6, 6⟩] =
      .ok ⟨.plain, 0, none, [⟨.operator, 1, some (.bare .sub), []⟩,
        ⟨.plain, 1, none, [⟨.operator, 2, some (.bare .add), []⟩]⟩,
        ⟨.text, 1, some (.text "a"), []⟩]⟩ ∧
      Scope.fold ⟨.plain, 0, none, [⟨.operator, 1, some (.bare .sub), []⟩,
        ⟨.plain, 1, none, [⟨.operator, 2, some (.bare .add), []⟩]⟩,
        ⟨.text, 1, some (.text "a"), []⟩]⟩ = .ok (some (.unary .neg (.text "a"))) ∧
      [Word.operator "-", .name "a"] =
        Scope.words ⟨.plain, 0, none, [⟨.operator, 1, some (.bare .sub), []⟩,
          ⟨.plain, 1, none, [⟨.operator, 2, some (.bare .add), []⟩]⟩,
          ⟨.text, 1, some (.text "a"), []⟩]⟩ := by
  have hroot : Scope.ofTokens (cutLine " -(+)a".toList) readNumeral
      [⟨.operator, 1, 2⟩, ⟨.openParen, 2, 3⟩, ⟨.operator, 3, 4⟩, ⟨.closeParen, 4, 5⟩,
        ⟨.name, 5, 6⟩, ⟨.blank, 6, 6⟩] =
      .ok ⟨.plain, 0, none, [⟨.operator, 1, some (.bare .sub), []⟩,
        ⟨.plain, 1, none, [⟨.operator, 2, some (.bare .add), []⟩]⟩,
        ⟨.text, 1, some (.text "a"), []⟩]⟩ := by cbv
  have hfold : Scope.fold ⟨.plain, 0, none, [⟨.operator, 1, some (.bare .sub), []⟩,
      ⟨.plain, 1, none, [⟨.operator, 2, some (.bare .add), []⟩]⟩,
      ⟨.text, 1, some (.text "a"), []⟩]⟩ = .ok (some (.unary .neg (.text "a"))) := by cbv
  exact ⟨hroot, hfold, Scope.words_of_fold hroot hfold⟩

end MacroAsm

import MacroAsm.Proofs.Scope.Bracket
import MacroAsm.Proofs.Word

/-!
# Lines with nothing in them

The tokens that can leave a line empty are blanks, parentheses and plus signs (`Nest.IsHollow`).
`Scope.areVoid_of_ofTokens_iff`: a line is nested to a scope with nothing in it just if it has no
other tokens and its parentheses match.

Nothing is lost when a token is added, so that a void nesting came from a void one by a hollow token
(`IsVoid.of_addToken`). In the other direction, a hollow token keeps a nesting void, and it is at
fault just if it is a parenthesis that does not match (`VoidWithin.addToken`).
-/

namespace MacroAsm

namespace Nest

/-- The token can stand in a line that has nothing in it. -/
def IsHollow (cut : Nat → Nat → String) (t : Token) : Prop :=
  t.kind = .blank ∨ t.kind = .openParen ∨ t.kind = .closeParen ∨
    t.kind = .operator ∧ cut t.start t.stop = "+"

/-- The frame is a pair of parentheses, with nothing before it in its scope. -/
def Frame.IsVoid (f : Frame) : Prop :=
  (∃ offset, f.opening = .paren offset) ∧ Scope.areVoid f.before = true

/-- There is nothing in the line so far but parentheses and signs. -/
structure Nesting.IsVoid (n : Nesting) : Prop where
  items : Scope.areVoid n.items = true
  frames : ∀ f ∈ n.frames, f.IsVoid

variable {cut : Nat → Nat → String} {read : NumeralReader} {n n' : Nesting} {taken : Nat}
  {atHead : Bool} {before : Option Token} {t : Token} {tokens opens opens' : List Token}
  {f : Frame} {items : List Scope} {frames : List Frame}

theorem areVoid_eq_all (items : List Scope) :
    Scope.areVoid items = items.all fun s => s.isPlus || s.isVoid := by
  induction items with
  | nil => rfl
  | cons s items ih => rw [Scope.areVoid, ih, List.all_cons]

theorem areVoid_cons {s : Scope} :
    Scope.areVoid (s :: items) = true ↔
      (s.isPlus = true ∨ s.isVoid = true) ∧ Scope.areVoid items = true := by
  rw [Scope.areVoid, Bool.and_eq_true, Bool.or_eq_true]

/-! ## Back from a void nesting -/

theorem isVoid_of_closed
    (h : (Nesting.closed f items).isPlus = true ∨ (Nesting.closed f items).isVoid = true) :
    (∃ offset, f.opening = .paren offset) ∧ Scope.areVoid items = true := by
  obtain ⟨opening, before, depth⟩ := f
  cases opening with
  | paren offset =>
    refine ⟨⟨offset, rfl⟩, ?_⟩
    rcases h with h | h
    · cases h
    · rwa [Nesting.closed, Scope.isVoid, areVoid_eq_all, List.all_reverse, ← areVoid_eq_all] at h
  | bracket offset => rcases h with h | h <;> cases h
  | call name size bare openedAt args => rcases h with h | h <;> cases h

theorem Nesting.IsVoid.of_close {outer : List Frame} (h : (Nesting.close f outer n.items).IsVoid)
    (hframes : n.frames = f :: outer) : n.IsVoid ∧ ∃ offset, f.opening = .paren offset := by
  obtain ⟨hclosed, hbefore⟩ := areVoid_cons.mp h.items
  obtain ⟨hparen, hitems⟩ := isVoid_of_closed hclosed
  refine ⟨⟨hitems, ?_⟩, hparen⟩
  rw [hframes]
  exact List.forall_mem_cons.mpr ⟨⟨hparen, hbefore⟩, h.frames⟩

theorem Nesting.IsVoid.of_leaf {kind : ScopeKind} {value : Option Node}
    (h : (n.addLeaf kind value).IsVoid) (hkind : kind ≠ .plain) :
    n.IsVoid ∧ value = some (.bare .add) := by
  obtain ⟨hleaf, hitems⟩ := areVoid_cons.mp h.items
  refine ⟨⟨hitems, h.frames⟩, ?_⟩
  rcases hleaf with hleaf | hleaf
  · unfold Scope.isPlus at hleaf
    split at hleaf
    next heq => exact heq
    next => cases hleaf
  · unfold Scope.isVoid at hleaf
    split at hleaf
    next heq => exact absurd (congrArg Scope.kind heq) hkind
    next => cases hleaf

theorem not_isVoid_addName {start : Nat} :
    ¬ (addName cut n atHead start t tokens).1.IsVoid := by
  have hleaf : ∀ {kind value}, kind ≠ .plain → value ≠ some (.bare .add) →
      ¬ (n.addLeaf kind value).IsVoid := fun hkind hvalue h => hvalue (h.of_leaf hkind).2
  have hcall : ∀ {name size bare offset}, ¬ (n.openCall name size bare offset).IsVoid := by
    intro name size bare offset h
    obtain ⟨⟨_, hparen⟩, -⟩ := h.frames _ (List.mem_cons_self ..)
    cases hparen
  unfold addName
  rcases sizeSuffix cut tokens with ⟨_ | part, taken⟩ <;> dsimp only
  all_goals
    split
    · exact hleaf (by decide) (by simp [Node.bare, Node.binary])
    · split
      · exact hcall
      · split
        · exact hcall
        · exact hleaf (by decide) (by simp [Node.bare, Node.binary])

/-- A void nesting came from a void one, by a hollow token that takes no others with it. -/
theorem Nesting.IsVoid.of_addToken (h : n'.IsVoid)
    (hadd : addToken cut read n atHead before t tokens = .ok (n', taken)) :
    n.IsVoid ∧ taken = 0 ∧ IsHollow cut t := by
  have hleaf : ∀ {kind value}, kind ≠ .plain → value ≠ some (.bare .add) →
      ¬ (n.addLeaf kind value).IsVoid := fun hkind hvalue h => hvalue (h.of_leaf hkind).2
  unfold addToken at hadd
  split at hadd
  case h_1 hkind =>
    cases hadd
    exact ⟨h, rfl, .inl hkind⟩
  case h_2 | h_3 | h_4 | h_5 | h_6 | h_12 =>
    cases hadd
    exact absurd h (hleaf (by decide) (by simp [Node.bare]))
  case h_7 hkind =>
    cases hadd
    have hframes := h.frames
    rw [Nesting.openParen, List.forall_mem_cons] at hframes
    exact ⟨⟨hframes.1.2, hframes.2⟩, rfl, .inr (.inl hkind)⟩
  case h_8 hkind =>
    cases hadd
    obtain ⟨⟨_, hparen⟩, -⟩ := h.frames _ (List.mem_cons_self ..)
    cases hparen
  case h_9 hkind =>
    obtain ⟨m, hm, heq⟩ := ok_of_map_eq_ok hadd
    cases heq
    unfold Nesting.closeParen at hm
    split at hm
    next f outer hframes =>
      split at hm <;> cases hm <;> exact ⟨(h.of_close hframes).1, rfl, .inr (.inr (.inl hkind))⟩
    next => cases hm
  case h_10 hkind =>
    obtain ⟨m, hm, heq⟩ := ok_of_map_eq_ok hadd
    cases heq
    unfold Nesting.closeBracket at hm
    split at hm
    next f outer hframes =>
      split at hm
      next hbracket =>
        cases hm
        obtain ⟨-, offset, hparen⟩ := h.of_close hframes
        cases hbracket.symm.trans hparen
      next => cases hm
    next => cases hm
  case h_11 hkind =>
    obtain ⟨m, hm, heq⟩ := ok_of_map_eq_ok hadd
    cases heq
    unfold Nesting.nextArgument at hm
    split at hm
    next f outer hframes =>
      split at hm
      next =>
        cases hm
        obtain ⟨⟨_, hparen⟩, -⟩ := h.frames _ (List.mem_cons_self ..)
        cases hparen
      next => cases hm
    next => cases hm
  case h_13 =>
    simp only at hadd
    split at hadd <;> cases hadd
    exact absurd h (hleaf (by decide) (by simp [Node.bare]))
  case h_14 hkind =>
    simp only at hadd
    split at hadd
    next o ho =>
      cases hadd
      obtain ⟨hn, hvalue⟩ := h.of_leaf (by decide)
      cases hvalue
      exact ⟨hn, rfl, .inr (.inr (.inr ⟨hkind, (Operator.ofSymbol?_symbol ho).symm⟩))⟩
    next => cases hadd
  case h_15 =>
    have hname : (addName cut n atHead t.start t tokens).1 = n' :=
      congrArg Prod.fst (Except.ok.inj hadd)
    exact absurd (hname ▸ h) not_isVoid_addName
  case h_16 =>
    split at hadd
    · cases hadd
      exact absurd h (hleaf (by decide) (by simp [Node.bare]))
    · split at hadd
      next next rest =>
        split at hadd
        · cases hadd
          exact absurd h not_isVoid_addName
        · cases hadd
      next => cases hadd

theorem Nesting.IsVoid.of_addTokens (h : n'.IsVoid)
    (hadd : addTokens cut read n atHead before taken tokens = .ok n') :
    n.IsVoid ∧ (taken = 0 → ∀ t ∈ tokens, IsHollow cut t) := by
  induction tokens generalizing n atHead before taken with
  | nil =>
    cases hadd
    exact ⟨h, by simp⟩
  | cons t tokens ih =>
    cases taken with
    | succ taken => exact ⟨(ih hadd).1, by simp⟩
    | zero =>
      rw [addTokens] at hadd
      split at hadd
      next => cases hadd
      next m taken hm =>
        obtain ⟨hvoid, htokens⟩ := ih hadd
        obtain ⟨hn, htaken, ht⟩ := hvoid.of_addToken hm
        exact ⟨hn, fun _ => List.forall_mem_cons.mpr ⟨ht, htokens htaken⟩⟩

theorem isVoid_of_closeAll {root : Scope} (h : Nesting.closeAll items frames = .ok root)
    (hroot : Scope.areVoid root.children = true) : frames = [] ∧ Scope.areVoid items = true := by
  induction frames generalizing items with
  | nil =>
    cases h
    rw [areVoid_eq_all, List.all_reverse, ← areVoid_eq_all] at hroot
    exact ⟨rfl, hroot⟩
  | cons f outer ih =>
    rw [Nesting.closeAll] at h
    split at h
    next hcall =>
      obtain ⟨-, hitems⟩ := ih h
      obtain ⟨⟨offset, hparen⟩, -⟩ := isVoid_of_closed (areVoid_cons.mp hitems).1
      cases hcall.symm.trans hparen
    next => cases h
    next => cases h
    next => cases h

/-! ## Hollow tokens -/

/-- There is nothing in the line so far but signs and the open parentheses `opens`. -/
structure Nesting.VoidWithin (opens : List Token) (n : Nesting) : Prop extends n.IsVoid where
  length : n.frames.length = opens.length
  paren : ∀ o ∈ opens, o.kind = .openParen

theorem Nesting.VoidWithin.closeParen (h : n.VoidWithin opens) (offset : Nat) :
    (∃ n' o opens', opens = o :: opens' ∧ n.closeParen offset = .ok n' ∧ n'.VoidWithin opens') ∨
      opens = [] ∧ n.closeParen offset = .error (.strayParen offset) := by
  obtain ⟨items, depth, frames⟩ := n
  obtain ⟨⟨hitems, hframes⟩, hlength, hparen⟩ := h
  rcases frames with _ | ⟨⟨opening, before, depth'⟩, outer⟩
  · exact .inr ⟨List.length_eq_zero_iff.mp hlength.symm, rfl⟩
  · obtain ⟨o, opens', rfl⟩ : ∃ o opens', opens = o :: opens' :=
      List.exists_cons_of_length_eq_add_one hlength.symm
    rw [List.forall_mem_cons] at hframes hparen
    obtain ⟨⟨⟨openedAt, hopening⟩, hbefore⟩, houter⟩ := hframes
    obtain rfl : opening = .paren openedAt := hopening
    have hgroup : Scope.areVoid items.reverse = true := by
      rwa [areVoid_eq_all, List.all_reverse, ← areVoid_eq_all]
    exact .inl ⟨_, o, opens', rfl, rfl, ⟨areVoid_cons.mpr ⟨.inr hgroup, hbefore⟩, houter⟩,
      Nat.succ.inj hlength, hparen.2⟩

theorem Nesting.VoidWithin.addToken (h : n.VoidWithin opens) (ht : IsHollow cut t) :
    (∃ n' opens', addToken cut read n atHead before t tokens = .ok (n', 0) ∧
        openAfter opens t = some opens' ∧ n'.VoidWithin opens') ∨
      (∃ fault, Nest.addToken cut read n atHead before t tokens = .error fault) ∧
        openAfter opens t = none := by
  rcases ht with hkind | hkind | hkind | ⟨hkind, hplus⟩
  · exact .inl ⟨n, opens, by simp [Nest.addToken, hkind], by simp [openAfter, hkind], h⟩
  · refine .inl ⟨n.openParen t.start, t :: opens, by simp [Nest.addToken, hkind],
      by simp [openAfter, hkind], ⟨rfl, ?_⟩, congrArg Nat.succ h.length, ?_⟩
    · exact List.forall_mem_cons.mpr ⟨⟨⟨_, rfl⟩, h.items⟩, h.frames⟩
    · exact List.forall_mem_cons.mpr ⟨hkind, h.paren⟩
  · rcases h.closeParen t.start with ⟨n', o, opens', rfl, hn', hvoid⟩ | ⟨rfl, hn⟩
    · have ho : o.kind = .openParen := h.paren o (List.mem_cons_self ..)
      exact .inl ⟨n', opens', by simp [Nest.addToken, hkind, hn', Except.map],
        by simp [openAfter, closing, hkind, ho], hvoid⟩
    · exact .inr ⟨⟨_, by simp only [Nest.addToken, hkind, hn]; rfl⟩,
        by simp [openAfter, closing, hkind]⟩
  · refine .inl ⟨n.addLeaf .operator (some (.bare .add)), opens,
      by simp [Nest.addToken, hkind, hplus, Operator.ofSymbol?], by simp [openAfter, hkind],
      ⟨areVoid_cons.mpr ⟨.inl rfl, h.items⟩, h.frames⟩, h.length, h.paren⟩

theorem Nesting.VoidWithin.addTokens (h : n.VoidWithin opens)
    (htokens : ∀ t ∈ tokens, IsHollow cut t) :
    (∃ n' opens', addTokens cut read n atHead before 0 tokens = .ok n' ∧
        tokens.foldlM openAfter opens = some opens' ∧ n'.VoidWithin opens') ∨
      (∃ fault, Nest.addTokens cut read n atHead before 0 tokens = .error fault) ∧
        tokens.foldlM openAfter opens = none := by
  induction tokens generalizing n opens atHead before with
  | nil => exact .inl ⟨n, opens, rfl, rfl, h⟩
  | cons t tokens ih =>
    rw [List.forall_mem_cons] at htokens
    rw [Nest.addTokens, List.foldlM_cons]
    rcases h.addToken htokens.1 with ⟨m, opens', hadd, hopens, hm⟩ | ⟨⟨fault, hadd⟩, hopens⟩
    · rw [hadd, hopens]
      exact ih hm htokens.2
    · rw [hadd, hopens]
      exact .inr ⟨⟨fault, rfl⟩, rfl⟩

theorem voidWithin_start : ({} : Nesting).VoidWithin [] := ⟨⟨rfl, by simp⟩, rfl, by simp⟩

end Nest

/-- A line is nested to a scope with nothing in it just if its tokens are blanks, plus signs and
parentheses that match. -/
theorem Scope.areVoid_of_ofTokens_iff {cut : Nat → Nat → String} {read : NumeralReader}
    {tokens : List Token} :
    (∃ root, Scope.ofTokens cut read tokens = .ok root ∧ Scope.areVoid root.children = true) ↔
      Nest.WellNested tokens ∧ ∀ t ∈ tokens, Nest.IsHollow cut t := by
  constructor
  · rintro ⟨root, hroot, hvoid⟩
    obtain ⟨n, hn, hclose⟩ := Scope.eq_of_ofTokens hroot
    obtain ⟨hframes, hitems⟩ := Nest.isVoid_of_closeAll hclose hvoid
    have hnesting : n.IsVoid := ⟨hitems, by simp [hframes]⟩
    have htokens := (hnesting.of_addTokens hn).2 rfl
    refine ⟨?_, htokens⟩
    rcases Nest.voidWithin_start.addTokens htokens with ⟨n', opens, hn', hopens, h⟩ | ⟨⟨_, hn'⟩, -⟩
    · obtain rfl : n' = n := Except.ok.inj (hn'.symm.trans hn)
      have hnil : opens = [] := List.length_eq_zero_iff.mp (by rw [← h.length, hframes]; rfl)
      rwa [hnil] at hopens
    · cases hn'.symm.trans hn
  · rintro ⟨hnested, htokens⟩
    rcases Nest.voidWithin_start.addTokens htokens with ⟨n, opens, hn, hopens, h⟩ | ⟨-, hopens⟩
    · obtain rfl : opens = [] := Option.some.inj (hopens.symm.trans hnested)
      have hframes : n.frames = [] := List.length_eq_zero_iff.mp h.length
      refine ⟨⟨.plain, 0, none, n.items.reverse⟩, ?_, ?_⟩
      · unfold Scope.ofTokens
        rw [hn]
        show Nest.Nesting.closeAll n.items n.frames = _
        rw [hframes]
        rfl
      · rw [Nest.areVoid_eq_all, List.all_reverse, ← Nest.areVoid_eq_all]
        exact h.items
    · cases hopens.symm.trans hnested

end MacroAsm

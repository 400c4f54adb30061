import MacroAsm.Proofs.Scope.Form

/-!
# Nesting on both sides of a label mark

`addTokens_append`: a label mark ends what can be seen from the tokens before it (`Nest.Hidden`), so
that these are nested as if the line ended there. `addTokens_onto`: what follows is nested as if it
began there, on top of what is nested already, as long as no scope is open around the mark.
-/

namespace MacroAsm

namespace Nest

variable {cut : Nat → Nat → String} {read : NumeralReader} {n n' : Nesting} {offset taken : Nat}
  {atHead : Bool} {before : Option Token} {m t : Token} {front back : List Token}

/-! ## Looking ahead -/

/-- The token belongs to no name or numeral before it. -/
def IsApart (t : Token) : Prop :=
  t.kind ≠ .dot ∧ t.kind ≠ .name ∧ t.kind ≠ .number ∧ t.kind ≠ .openParen

theorem isApart_of_mark (hm : m.IsMark) : IsApart m := by
  rcases hm with h | h <;> simp [IsApart, h]

theorem sizeSuffix_append (hback : ∀ u ∈ back.head?, IsApart u) :
    sizeSuffix cut (front ++ back) = sizeSuffix cut front := by
  rcases front with _ | ⟨dot, _ | ⟨run, front⟩⟩
  · rcases back with _ | ⟨u, back⟩
    · rfl
    · simp [sizeSuffix, (hback u rfl).1]
  · rcases back with _ | ⟨u, back⟩
    · rfl
    · simp [sizeSuffix, (hback u rfl).2.1, (hback u rfl).2.2.1]
  · rfl

theorem sizeSuffix_le : (sizeSuffix cut front).2 ≤ front.length := by
  rcases front with _ | ⟨dot, _ | ⟨run, front⟩⟩
  · exact Nat.le_refl 0
  · simp only [sizeSuffix, List.head?_nil, List.length_cons]
    split <;> simp
  · simp only [sizeSuffix, List.head?_cons, List.length_cons]
    split
    · split <;> simp
    · exact Nat.zero_le _

theorem numeralEnd_append (hback : ∀ u ∈ back.head?, IsApart u) :
    numeralEnd t (front ++ back) = numeralEnd t front := by
  rcases front with _ | ⟨dot, _ | ⟨fraction, front⟩⟩
  · rcases back with _ | ⟨u, _ | ⟨fraction, back⟩⟩
    · rfl
    · rfl
    · simp [numeralEnd, (hback u rfl).1]
  · rcases back with _ | ⟨u, back⟩
    · rfl
    · simp [numeralEnd, (hback u rfl).2.2.1]
  · rfl

theorem numeralEnd_le : (numeralEnd t front).2 ≤ front.length := by
  rcases front with _ | ⟨dot, _ | ⟨fraction, front⟩⟩
  · exact Nat.le_refl 0
  · exact Nat.zero_le _
  · simp only [numeralEnd, List.length_cons]
    split <;> simp

theorem opensOperand_append (hm : m.kind = .label) :
    opensOperand cut (front ++ m :: back) = opensOperand cut front := by
  have hsignificant : m.isSignificant = true := by
    simp [Token.isSignificant, hm, TokenKind.isSignificant]
  unfold opensOperand
  rw [List.dropWhile_append]
  cases hdrop : front.dropWhile (!·.isSignificant) with
  | nil => simp [hsignificant, hm, TokenKind.opensValue]
  | cons u rest =>
    cases rest with
    | nil => simp [hm, TokenKind.opensValue]
    | cons v rest => rfl

/-- A name is added the same way without the tokens `back` after `front`: they do not belong to it,
and do not decide whether it starts a bare call. -/
structure Hidden (cut : Nat → Nat → String) (n : Nesting) (front back : List Token) : Prop where
  apart : ∀ u ∈ back.head?, IsApart u
  bare : n.frames = [] → (∀ u ∈ back.head?, u.kind ≠ .blank) ∧
    ∀ next after, next :: after <:+ front →
      opensOperand cut (after ++ back) = opensOperand cut after

theorem Hidden.tail (h : Hidden cut n (t :: front) back) : Hidden cut n front back where
  apart := h.apart
  bare hframes :=
    ⟨(h.bare hframes).1, fun next after hsuffix =>
      (h.bare hframes).2 next after (hsuffix.trans (List.suffix_cons t front))⟩

theorem hidden_of_mark (hm : m.IsMark) (himplied : m.kind = .impliedLabel → front = []) :
    Hidden cut n front (m :: back) where
  apart := by
    rintro _ ⟨⟩
    exact isApart_of_mark hm
  bare := by
    refine fun _ => ⟨?_, fun next after hsuffix => ?_⟩
    · rintro _ ⟨⟩
      rcases hm with h | h <;> simp [h]
    · apply opensOperand_append
      refine hm.resolve_right fun h => ?_
      rw [himplied h, List.suffix_nil] at hsuffix
      cases hsuffix

theorem hidden_of_frames (hframes : n.frames ≠ []) (hback : ∀ u ∈ back.head?, IsApart u) :
    Hidden cut n front back :=
  ⟨hback, fun h => absurd h hframes⟩

theorem addName_append {start : Nat} (h : Hidden cut n front back) :
    addName cut n atHead start t (front ++ back) = addName cut n atHead start t front := by
  simp only [addName]
  rw [sizeSuffix_append h.apart, List.drop_append_of_le_length sizeSuffix_le]
  cases hdrop : front.drop (sizeSuffix cut front).2 with
  | nil =>
    cases back with
    | nil => rfl
    | cons u back =>
      have hparen : u.kind ≠ .openParen := (h.apart u rfl).2.2.2
      have hbare : n.frames.isEmpty = true → u.kind ≠ .blank := fun hframes =>
        (h.bare (List.isEmpty_iff.mp hframes)).1 u rfl
      by_cases hframes : n.frames.isEmpty = true
      · simp [hparen, hbare hframes]
      · simp [hparen, hframes]
  | cons next after =>
    have hsuffix : next :: after <:+ front := hdrop ▸ List.drop_suffix _ _
    by_cases hframes : n.frames = []
    · simp only [List.cons_append, (h.bare hframes).2 next after hsuffix]
    · simp [hframes]

theorem addName_le {start : Nat} : (addName cut n atHead start t front).2 ≤ front.length := by
  have hle : (sizeSuffix cut front).2 ≤ front.length := sizeSuffix_le
  simp only [addName]
  split
  · exact hle
  next next after hdrop =>
    have hlength := congrArg List.length hdrop
    rw [List.length_drop, List.length_cons] at hlength
    split
    · show (sizeSuffix cut front).2 + 1 ≤ front.length
      omega
    · split
      · exact hle
      · exact hle

theorem addToken_append (h : Hidden cut n front back) :
    addToken cut read n atHead before t (front ++ back) =
      addToken cut read n atHead before t front := by
  unfold addToken
  split
  case h_13 => simp only [numeralEnd_append h.apart]
  case h_15 => rw [addName_append h]
  case h_16 =>
    by_cases hglued : isGlued before t = true
    · rw [if_pos hglued, if_pos hglued]
    · rw [if_neg hglued, if_neg hglued]
      rcases front with _ | ⟨next, rest⟩
      · rcases back with _ | ⟨u, back⟩
        · rfl
        · simp [(h.apart u rfl).2.1]
      · simp only [List.cons_append, addName_append h.tail]
  all_goals rfl

theorem addToken_le (h : addToken cut read n atHead before t front = .ok (n', taken)) :
    taken ≤ front.length := by
  unfold addToken at h
  split at h
  case h_9 | h_10 | h_11 =>
    obtain ⟨_, -, heq⟩ := ok_of_map_eq_ok h
    cases heq
    exact Nat.zero_le _
  case h_13 =>
    simp only at h
    split at h
    · cases h
      exact numeralEnd_le
    · cases h
  case h_14 =>
    simp only at h
    split at h <;> cases h
    exact Nat.zero_le _
  case h_15 =>
    have hname : (addName cut n atHead t.start t front).2 = taken :=
      congrArg Prod.snd (Except.ok.inj h)
    rw [← hname]
    exact addName_le
  case h_16 =>
    split at h
    · cases h
      exact Nat.zero_le _
    · split at h
      next next rest =>
        split at h
        · cases h
          exact Nat.succ_le_succ addName_le
        · cases h
      next => cases h
  all_goals
    cases h
    exact Nat.zero_le _

/-! ## Before the mark -/

theorem addTokens_mark (hm : m.IsMark) :
    addTokens cut read n atHead before 0 (m :: back) =
      addTokens cut read (n.addLeaf .label none) true (some m) 0 back := by
  rcases hm with h | h <;> simp [addTokens, addToken, headAfter, h]

/-- The tokens before a mark are nested as if the line ended there. -/
theorem addTokens_append (hm : m.IsMark) (himplied : m.kind = .impliedLabel → front.length ≤ 1)
    (htaken : taken ≤ front.length) :
    addTokens cut read n atHead before taken (front ++ m :: back) =
      (addTokens cut read n atHead before taken front).bind fun n' =>
        addTokens cut read (n'.addLeaf .label none) true (some m) 0 back := by
  induction front generalizing n atHead before taken with
  | nil =>
    obtain rfl : taken = 0 := by simpa using htaken
    exact addTokens_mark hm
  | cons t front ih =>
    have himplied' : m.kind = .impliedLabel → front.length ≤ 1 := fun h => by
      have hlength := himplied h
      rw [List.length_cons] at hlength
      omega
    cases taken with
    | succ taken =>
      rw [List.length_cons] at htaken
      exact ih himplied' (by omega)
    | zero =>
      have hnil : m.kind = .impliedLabel → front = [] := fun h => by
        have hlength := himplied h
        rw [List.length_cons] at hlength
        exact List.length_eq_zero_iff.mp (by omega)
      rw [List.cons_append, addTokens, addTokens, addToken_append (hidden_of_mark hm hnil)]
      cases hadd : addToken cut read n atHead before t front with
      | error => rfl
      | ok result => exact ih himplied' (addToken_le hadd)

/-! ## Nesting somewhere else -/

/-- After the change `F` of what is nested so far, leaves and opening brackets are added as without
it, and a bare call can start where one could. -/
structure Keeps (F : Nesting → Nesting) (n : Nesting) (atHead : Bool) : Prop where
  addLeaf : ∀ kind value, (F n).addLeaf kind value = F (n.addLeaf kind value)
  openParen : ∀ offset, (F n).openParen offset = F (n.openParen offset)
  openBracket : ∀ offset, (F n).openBracket offset = F (n.openBracket offset)
  openCall : ∀ name size bare offset, (bare = true → n.frames = []) →
    (F n).openCall name size bare offset = F (n.openCall name size bare offset)
  head : (atHead && (F n).frames.isEmpty) = (atHead && n.frames.isEmpty)

variable {F : Nesting → Nesting}

theorem addName_map {start : Nat} (h : Keeps F n atHead) :
    addName cut (F n) atHead start t back =
      (F (addName cut n atHead start t back).1, (addName cut n atHead start t back).2) := by
  unfold addName
  rw [h.head]
  rcases sizeSuffix cut back with ⟨_ | part, taken⟩ <;> dsimp only
  all_goals
    split
    · exact Prod.ext (h.addLeaf _ _) rfl
    · split
      · exact Prod.ext (h.openCall _ _ _ _ (by simp)) rfl
      · split
        next hbare =>
          refine Prod.ext (h.openCall _ _ _ _ fun _ => ?_) rfl
          simp only [Bool.and_eq_true, List.isEmpty_iff] at hbare
          exact hbare.1.1.2
        next => exact Prod.ext (h.addLeaf _ _) rfl

/-- A token is added as without the change, if the innermost open scope takes it if it is a closing
bracket or a comma. -/
theorem addToken_map (h : Keeps F n atHead)
    (hparen : t.kind = .closeParen → (F n).closeParen t.start = (n.closeParen t.start).map F)
    (hbracket : t.kind = .closeBracket →
      (F n).closeBracket t.start = (n.closeBracket t.start).map F)
    (hcomma : t.kind = .comma → (F n).nextArgument t.start = (n.nextArgument t.start).map F) :
    addToken cut read (F n) atHead before t back =
      (addToken cut read n atHead before t back).map fun result => (F result.1, result.2) := by
  unfold addToken
  split
  case h_7 => rw [h.openParen]; rfl
  case h_8 => rw [h.openBracket]; rfl
  case h_1 => rfl
  case h_9 hkind =>
    rw [hparen hkind]
    cases n.closeParen t.start <;> rfl
  case h_10 hkind =>
    rw [hbracket hkind]
    cases n.closeBracket t.start <;> rfl
  case h_11 hkind =>
    rw [hcomma hkind]
    cases n.nextArgument t.start <;> rfl
  case h_13 =>
    simp only
    split
    · rw [h.addLeaf]
      rfl
    · rfl
  case h_14 =>
    simp only
    split
    · rw [h.addLeaf]
      rfl
    · rfl
  case h_15 => exact congrArg Except.ok (addName_map h)
  case h_16 =>
    split
    · rw [h.addLeaf]
      rfl
    · split
      · split
        · rw [addName_map h]
          rfl
        · rfl
      · rfl
  all_goals
    rw [h.addLeaf]
    rfl

/-! ## After the mark -/

/-- The items of a scope inside the scopes `frames`, of which the outermost has `base` before all
that is nested. -/
def itemsOnto (base items : List Scope) : List Frame → List Scope
  | [] => items ++ base
  | _ :: _ => items

/-- The scopes `frames`, of which the outermost has `base` before all that is nested. -/
def framesOnto (base : List Scope) : List Frame → List Frame
  | [] => []
  | f :: outer => { f with before := itemsOnto base f.before outer } :: framesOnto base outer

def Nesting.onto (base : List Scope) (n : Nesting) : Nesting :=
  ⟨itemsOnto base n.items n.frames, n.depth, framesOnto base n.frames⟩

variable {base items : List Scope} {frames : List Frame} {f : Frame}

@[simp] theorem itemsOnto_cons (s : Scope) :
    itemsOnto base (s :: items) frames = s :: itemsOnto base items frames := by
  cases frames <;> rfl

@[simp] theorem isEmpty_framesOnto : (framesOnto base frames).isEmpty = frames.isEmpty := by
  cases frames <;> rfl

theorem keeps_onto : Keeps (Nesting.onto base) n atHead where
  addLeaf _ _ := by simp [Nesting.addLeaf, Nesting.onto]
  openParen _ := rfl
  openBracket _ := rfl
  openCall _ _ _ _ _ := rfl
  head := by rw [Nesting.onto, isEmpty_framesOnto]

theorem close_onto {outer : List Frame} :
    Nesting.close { f with before := itemsOnto base f.before outer } (framesOnto base outer) items =
      (Nesting.close f outer items).onto base := by
  simp [Nesting.close, Nesting.onto, Nesting.closed]

theorem closeParen_onto :
    (n.onto base).closeParen offset = (n.closeParen offset).map (·.onto base) := by
  obtain ⟨items, depth, _ | ⟨⟨opening, before, depth'⟩, outer⟩⟩ := n
  · rfl
  cases opening with
  | paren => exact congrArg Except.ok close_onto
  | bracket => rfl
  | call name size bare =>
    cases bare with
    | false => exact congrArg Except.ok close_onto
    | true => rfl

theorem closeBracket_onto :
    (n.onto base).closeBracket offset = (n.closeBracket offset).map (·.onto base) := by
  obtain ⟨items, depth, _ | ⟨⟨opening, before, depth'⟩, outer⟩⟩ := n
  · rfl
  cases opening with
  | bracket => exact congrArg Except.ok close_onto
  | paren => rfl
  | call => rfl

theorem nextArgument_onto :
    (n.onto base).nextArgument offset = (n.nextArgument offset).map (·.onto base) := by
  obtain ⟨items, depth, _ | ⟨⟨opening, before, depth'⟩, outer⟩⟩ := n
  · rfl
  cases opening <;> rfl

/-- Tokens are nested the same way on top of what is nested already. -/
theorem addTokens_onto :
    addTokens cut read (n.onto base) atHead before taken back =
      (addTokens cut read n atHead before taken back).map (·.onto base) := by
  induction back generalizing n atHead before taken with
  | nil => rfl
  | cons t back ih =>
    cases taken with
    | succ taken => exact ih
    | zero =>
      rw [addTokens, addTokens, addToken_map keeps_onto (fun _ => closeParen_onto)
        (fun _ => closeBracket_onto) (fun _ => nextArgument_onto)]
      cases addToken cut read n atHead before t back with
      | error => rfl
      | ok result => exact ih

theorem addTokens_of_before (h : ∀ b ∈ before, b.kind.endsValue = false) :
    addTokens cut read n atHead before 0 back = addTokens cut read n atHead none 0 back := by
  cases back with
  | nil => rfl
  | cons t back =>
    have hglued : isGlued before t = isGlued none t := by
      cases before with
      | none => rfl
      | some b => simp [isGlued, h b rfl]
    rw [addTokens, addTokens]
    simp only [addToken, hglued]

theorem addTokens_blank (h : ∀ t ∈ back, t.kind = .blank) :
    addTokens cut read n atHead before 0 back = .ok n := by
  induction back generalizing atHead before with
  | nil => rfl
  | cons t back ih =>
    rw [List.forall_mem_cons] at h
    rw [addTokens]
    simp only [addToken, h.1]
    exact ih h.2

theorem addTokens_blank_append (h : ∀ t ∈ front, t.kind = .blank) :
    addTokens cut read n atHead none 0 (front ++ back) =
      addTokens cut read n atHead none 0 back := by
  induction front with
  | nil => rfl
  | cons t front ih =>
    rw [List.forall_mem_cons] at h
    rw [List.cons_append, addTokens]
    simp only [addToken, headAfter, h.1]
    rw [addTokens_of_before, ih h.2]
    rintro _ ⟨⟩
    rw [h.1]
    rfl

theorem closeAll_onto :
    Nesting.closeAll (itemsOnto base items frames) (framesOnto base frames) =
      (Nesting.closeAll items frames).map fun root =>
        { root with children := base.reverse ++ root.children } := by
  induction frames generalizing items with
  | nil => simp [Nesting.closeAll, itemsOnto, framesOnto, Except.map]
  | cons f outer ih =>
    obtain ⟨opening, before, depth⟩ := f
    cases opening with
    | paren => rfl
    | bracket => rfl
    | call name size bare openedAt args =>
      cases bare with
      | false => rfl
      | true =>
        have hclosed : ∀ before',
            Nesting.closed ⟨.call name size true openedAt args, before', depth⟩ items =
              Nesting.closed ⟨.call name size true openedAt args, before, depth⟩ items :=
          fun _ => rfl
        rw [framesOnto, Nesting.closeAll, Nesting.closeAll]
        simp only
        rw [hclosed, ← itemsOnto_cons]
        exact ih

/-! ## Scopes around the mark -/

/-- There is no mark but between the items of the outermost scope. -/
def Shallow (items : List Scope) : List Frame → Prop
  | [] => ∀ s ∈ items, s.kind = .label ∨ s.Formed false
  | f :: outer => (∀ s ∈ items, s.Formed false) ∧ (∀ arg ∈ f.opening.args, arg.Formed false) ∧
      Shallow f.before outer

theorem Shallow.of_cons {s : Scope} (h : Shallow (s :: items) frames) :
    (s.kind = .label ∨ s.Formed false) ∧ Shallow items frames := by
  cases frames with
  | nil => exact List.forall_mem_cons.mp h
  | cons f outer =>
    obtain ⟨hitems, hargs, houter⟩ := h
    rw [List.forall_mem_cons] at hitems
    exact ⟨.inr hitems.1, hitems.2, hargs, houter⟩

theorem formed_of_closed (h : (Nesting.closed f items).Formed false) :
    (∀ s ∈ items, s.Formed false) ∧ ∀ arg ∈ f.opening.args, arg.Formed false := by
  obtain ⟨opening, before, depth⟩ := f
  have hmem : ∀ {s : Scope}, s ∈ items → s ∈ items.reverse := List.mem_reverse.mpr
  cases opening with
  | paren offset =>
    simp only [Nesting.closed] at h
    generalize items.reverse = children at h hmem
    cases h with
    | group h => exact ⟨fun s hs => h s (hmem hs), by simp [Opening.args]⟩
  | bracket offset =>
    simp only [Nesting.closed] at h
    generalize items.reverse = children at h hmem
    generalize hn : Node.bare .subscript = n at h
    cases h with
    | operator ho =>
      cases hn
      exact absurd rfl ho
    | value hkind hleaf =>
      subst hn
      cases hleaf
    | brackets h => exact ⟨fun s hs => h s (hmem hs), by simp [Opening.args]⟩
  | call name size bare openedAt args =>
    simp only [Nesting.closed] at h
    generalize hchildren : (⟨.plain, depth + 1, none, items.reverse⟩ :: args : List Scope).reverse =
      children at h
    have hargs : ∀ {arg : Scope},
        arg ∈ (⟨.plain, depth + 1, none, items.reverse⟩ :: args : List Scope) → arg ∈ children :=
      fun harg => hchildren ▸ List.mem_reverse.mpr harg
    cases h with
    | value hkind hleaf => cases hleaf
    | call _ _ h =>
      refine ⟨fun s hs => ?_, fun arg harg => h arg (hargs (by simp_all [Opening.args]))⟩
      have hlast := h _ (hargs (List.mem_cons_self ..))
      generalize items.reverse = children at hlast hmem
      cases hlast with
      | group h => exact h s (hmem hs)

theorem Shallow.of_close {outer : List Frame}
    (h : Shallow (Nesting.closed f items :: f.before) outer) : Shallow items (f :: outer) := by
  obtain ⟨hclosed, hbefore⟩ := h.of_cons
  have hkind : (Nesting.closed f items).kind ≠ .label := by
    obtain ⟨opening, before, depth⟩ := f
    cases opening <;> simp [Nesting.closed]
  obtain ⟨hitems, hargs⟩ := formed_of_closed (hclosed.resolve_left hkind)
  exact ⟨hitems, hargs, hbefore⟩

theorem Shallow.of_effect (h : Shallow n'.items n'.frames) (heffect : Effect t n n') :
    Shallow n.items n.frames := by
  cases heffect with
  | none => exact h
  | leaf => exact h.of_cons.2
  | openParen => exact h.2.2
  | openBracket => exact h.2.2
  | openCall => exact h.2.2
  | close hframes =>
    rw [hframes]
    exact h.of_close
  | nextArgument hframes =>
    obtain ⟨-, hargs, houter⟩ := h
    simp only [Opening.args, List.forall_mem_cons] at hargs
    obtain ⟨harg, hargs⟩ := hargs
    rw [hframes]
    refine ⟨fun s hs => ?_, hargs, houter⟩
    have hmem : s ∈ n.items.reverse := List.mem_reverse.mpr hs
    generalize n.items.reverse = children at harg hmem
    cases harg with
    | group h => exact h s hmem

theorem Shallow.of_addTokens (h : Shallow n'.items n'.frames)
    (hadd : addTokens cut read n atHead before taken back = .ok n') :
    Shallow n.items n.frames :=
  -- the invariant leads back to the start
  invariant_of_addTokens (P := fun m => Shallow m.items m.frames → Shallow n.items n.frames)
    (fun _ heffect hm hm' => hm (hm'.of_effect heffect)) id hadd h

theorem shallow_of_closeAll {root : Scope} (h : Nesting.closeAll items frames = .ok root)
    (hroot : ∀ s ∈ root.children, s.kind = .label ∨ s.Formed false) : Shallow items frames := by
  induction frames generalizing items with
  | nil =>
    cases h
    exact fun s hs => hroot s (List.mem_reverse.mpr hs)
  | cons f outer ih =>
    rw [Nesting.closeAll] at h
    split at h
    next => exact (ih h).of_close
    next => cases h
    next => cases h
    next => cases h

/-- The outermost scope has the depth `ground`, the innermost one is at `depth`. -/
def Grounded (ground depth : Nat) : List Frame → Prop
  | [] => depth = ground
  | f :: outer => Grounded ground f.depth outer

variable {ground : Nat}

theorem Grounded.effect (h : Grounded ground n.depth n.frames) (heffect : Effect t n n') :
    Grounded ground n'.depth n'.frames := by
  cases heffect with
  | none => exact h
  | leaf => exact h
  | openParen => exact h
  | openBracket => exact h
  | openCall => exact h
  | close hframes =>
    rw [hframes] at h
    exact h
  | nextArgument hframes =>
    rw [hframes] at h
    exact h

theorem Grounded.addTokens (h : Grounded ground n.depth n.frames)
    (hadd : addTokens cut read n atHead before taken back = .ok n') :
    Grounded ground n'.depth n'.frames :=
  invariant_of_addTokens (P := fun m => Grounded ground m.depth m.frames)
    (fun _ heffect hm => hm.effect heffect) h hadd

theorem not_formed_mark {depth : Nat} : ¬ (⟨.label, depth, none, []⟩ : Scope).Formed false := by
  intro h
  cases h with
  | mark h => cases h

end Nest

theorem Scope.ofTokens_append {cut : Nat → Nat → String} {read : NumeralReader} {m : Token}
    {front back : List Token} {root : Scope} (hm : m.IsMark)
    (himplied : m.kind = .impliedLabel → front.length ≤ 1)
    (h : Scope.ofTokens cut read (front ++ m :: back) = .ok root)
    (hroot : ∀ s ∈ root.children, s.kind = .label ∨ s.Formed false) :
    ∃ left right, Scope.ofTokens cut read front = .ok left ∧
      Scope.ofTokens cut read back = .ok right ∧
      root.children = left.children ++ ⟨.label, 1, none, []⟩ :: right.children := by
  obtain ⟨n, hn, hclose⟩ := Scope.eq_of_ofTokens h
  have hshallow : Nest.Shallow n.items n.frames := Nest.shallow_of_closeAll hclose hroot
  rw [Nest.addTokens_append hm himplied (Nat.zero_le _)] at hn
  cases hfront : Nest.addTokens cut read {} true none 0 front with
  | error =>
    rw [hfront] at hn
    cases hn
  | ok l =>
    rw [hfront] at hn
    have hadd : Nest.addTokens cut read (l.addLeaf .label none) true (some m) 0 back = .ok n := hn
    have hmark := hshallow.of_addTokens hadd
    have hground : Nest.Grounded 1 l.depth l.frames :=
      Nest.Grounded.addTokens (n := {}) rfl hfront
    obtain ⟨items, depth, frames⟩ := l
    have hframes : frames = [] := by
      rcases frames with _ | ⟨f, outer⟩
      · rfl
      · exact absurd (hmark.1 _ (List.mem_cons_self ..)) Nest.not_formed_mark
    subst hframes
    obtain rfl : depth = 1 := hground
    have honto : (⟨items, 1, []⟩ : Nest.Nesting).addLeaf .label none =
        Nest.Nesting.onto (⟨.label, 1, none, []⟩ :: items) {} := rfl
    have hends : ∀ b ∈ some m, b.kind.endsValue = false := by
      rintro _ ⟨⟩
      rcases hm with h | h <;> rw [h] <;> rfl
    rw [honto, Nest.addTokens_onto, Nest.addTokens_of_before hends] at hadd
    obtain ⟨r, hback, rfl⟩ := ok_of_map_eq_ok hadd
    have hclose' := hclose
    simp only [Nest.Nesting.onto] at hclose'
    rw [Nest.closeAll_onto] at hclose'
    obtain ⟨right, hright, rfl⟩ := ok_of_map_eq_ok hclose'
    refine ⟨⟨.plain, 0, none, items.reverse⟩, right, ?_, ?_, by simp⟩
    · unfold Scope.ofTokens
      rw [hfront]
      rfl
    · unfold Scope.ofTokens
      rw [hback]
      exact hright

end MacroAsm

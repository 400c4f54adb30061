import MacroAsm.Proofs.Node
import MacroAsm.Proofs.Scope.Step

/-!
# The form of a nested line

`Scope.Formed` lists what the leaves and scopes of a nested line are: a leaf is a label mark, an
operator without operands or a sound value, and a macro call has an argument at least. Every line
that is nested has this form, and one whose tokens have no label mark has none in any scope
(`Scope.formed_of_ofTokens`).

Both follow from what a single token can do to a line nested so far (`Nest.Effect`).
-/

namespace MacroAsm

/-- The leaves and scopes that a nested line consists of, with or without label marks. -/
inductive Scope.Formed (marks : Bool) : Scope → Prop
  | mark {depth} (h : marks = true) : Formed marks ⟨.label, depth, none, []⟩
  | operator {depth o} (ho : o ≠ .subscript) : Formed marks ⟨.operator, depth, some (.bare o), []⟩
  | value {kind depth n} (hkind : kind ≠ .label)
      (hleaf : (⟨kind, depth, some n, []⟩ : Scope).isScope = false) (hn : n.Sound)
      (hlabel : n.Unlabelled) : Formed marks ⟨kind, depth, some n, []⟩
  | group {depth children} (h : ∀ c ∈ children, Formed marks c) :
      Formed marks ⟨.plain, depth, none, children⟩
  | brackets {depth children} (h : ∀ c ∈ children, Formed marks c) :
      Formed marks ⟨.operator, depth, some (.bare .subscript), children⟩
  | call {depth name size args} (hargs : args ≠ []) (hplain : ∀ arg ∈ args, arg.kind = .plain)
      (h : ∀ arg ∈ args, Formed marks arg) :
      Formed marks ⟨.call, depth, some (.call name size []), args⟩

theorem Scope.IsValue.formed {marks : Bool} {kind : ScopeKind} {value : Node} {depth : Nat}
    (h : IsValue kind value) : (⟨kind, depth, some value, []⟩ : Scope).Formed marks := by
  cases h with
  | operator ho => exact .operator ho
  | access =>
    exact .value (by decide) rfl (.binary rfl .text .text)
      (.op (by simp [Node.Unlabelled.text]) (by simp [Node.Unlabelled.text]))
  | string => exact .value (by decide) rfl .string .string
  | text => exact .value (by decide) rfl .text .text
  | number => exact .value (by decide) rfl .number .number
  | openBrace | closeBrace => exact .value (by decide) rfl .brace .brace

namespace Nest

/-! ## What a token does -/

/-- What adding the token `t` can make of a nesting. -/
inductive Effect (t : Token) (n : Nesting) : Nesting → Prop
  | none : Effect t n n
  | leaf {kind value}
      (hleaf : ∀ marks, (t.IsMark → marks = true) →
        (⟨kind, n.depth, value, []⟩ : Scope).Formed marks) :
      Effect t n (n.addLeaf kind value)
  | openParen {offset} : Effect t n (n.openParen offset)
  | openBracket {offset} : Effect t n (n.openBracket offset)
  | openCall {name size bare offset} : Effect t n (n.openCall name size bare offset)
  | close {f outer} (hframes : n.frames = f :: outer) : Effect t n (Nesting.close f outer n.items)
  | nextArgument {name size bare openedAt args before depth outer}
      (hframes : n.frames = ⟨.call name size bare openedAt args, before, depth⟩ :: outer) :
      Effect t n ⟨[], n.depth, ⟨.call name size bare openedAt
        (⟨.plain, depth + 1, .none, n.items.reverse⟩ :: args), before, depth⟩ :: outer⟩

variable {cut : Nat → Nat → String} {read : NumeralReader} {n n' : Nesting} {f : Frame}
  {items : List Scope} {taken : Nat} {atHead : Bool} {before : Option Token} {t : Token}
  {tokens : List Token}

theorem effect_of_addToken (h : addToken cut read n atHead before t tokens = .ok (n', taken)) :
    Effect t n n' := by
  have hadds := adds_of_addToken h
  generalize tokens.take taken = more at hadds
  cases hadds with
  | blank => exact .none
  | mark ht => exact .leaf fun _ hmarks => .mark (hmarks ht)
  | leaf _ hvalue => exact .leaf fun _ _ => hvalue.formed
  | openParen => exact .openParen
  | openBracket => exact .openBracket
  | openCall | openBare => exact .openCall
  | closeParen _ hframes | closeCall _ hframes | closeBracket _ hframes => exact .close hframes
  | comma _ hframes => exact .nextArgument hframes

/-! ## The form of open scopes -/

def Opening.args : Opening → List Scope
  | call _ _ _ _ args => args
  | _ => []

/-- What an open scope holds has the form of a nested line. -/
structure Frame.Formed (marks : Bool) (f : Frame) : Prop where
  before : ∀ s ∈ f.before, s.Formed marks
  args : ∀ arg ∈ f.opening.args, arg.kind = .plain ∧ arg.Formed marks

/-- All that is nested so far has the form of a nested line. -/
structure Nesting.Formed (marks : Bool) (n : Nesting) : Prop where
  items : ∀ s ∈ n.items, s.Formed marks
  frames : ∀ f ∈ n.frames, f.Formed marks

variable {marks : Bool}

theorem formed_start : ({} : Nesting).Formed marks := ⟨by simp, by simp⟩

theorem formed_closed (hf : f.Formed marks) (hitems : ∀ s ∈ items, s.Formed marks) :
    (Nesting.closed f items).Formed marks := by
  have hchildren : ∀ s ∈ items.reverse, s.Formed marks := fun s hs =>
    hitems s (List.mem_reverse.mp hs)
  have hargs := hf.args
  unfold Nesting.closed
  split
  next => exact .group hchildren
  next => exact .brackets hchildren
  next name size bare openedAt args heq =>
    rw [heq] at hargs
    refine .call (by simp) (fun arg harg => ?_) fun arg harg => ?_
    · rcases List.mem_cons.mp (List.mem_reverse.mp harg) with rfl | harg
      · rfl
      · exact (hargs arg harg).1
    · rcases List.mem_cons.mp (List.mem_reverse.mp harg) with rfl | harg
      · exact .group hchildren
      · exact (hargs arg harg).2

theorem Nesting.Formed.effect (h : n.Formed marks) (ht : t.IsMark → marks = true)
    (heffect : Effect t n n') : n'.Formed marks := by
  have hopen : ∀ opening : Opening, opening.args = [] →
      ∀ f ∈ (⟨opening, n.items, n.depth⟩ :: n.frames : List Frame), f.Formed marks := by
    intro opening hargs
    exact List.forall_mem_cons.mpr ⟨⟨h.items, by simp [hargs]⟩, h.frames⟩
  have hframes := h.frames
  cases heffect with
  | none => exact h
  | leaf hleaf => exact ⟨List.forall_mem_cons.mpr ⟨hleaf marks ht, h.items⟩, h.frames⟩
  | openParen => exact ⟨by simp [Nesting.openParen], hopen _ rfl⟩
  | openBracket => exact ⟨by simp [Nesting.openBracket], hopen _ rfl⟩
  | openCall => exact ⟨by simp [Nesting.openCall], hopen _ rfl⟩
  | @close f outer heq =>
    rw [heq, List.forall_mem_cons] at hframes
    obtain ⟨hf, houter⟩ := hframes
    exact ⟨List.forall_mem_cons.mpr ⟨formed_closed hf h.items, hf.before⟩, houter⟩
  | nextArgument heq =>
    rw [heq, List.forall_mem_cons] at hframes
    obtain ⟨hf, houter⟩ := hframes
    refine ⟨by simp, List.forall_mem_cons.mpr ⟨⟨hf.before, ?_⟩, houter⟩⟩
    refine List.forall_mem_cons.mpr ⟨⟨rfl, .group fun s hs => ?_⟩, hf.args⟩
    exact h.items s (List.mem_reverse.mp hs)

theorem invariant_of_addTokens {P : Nesting → Prop}
    (hstep : ∀ {t m m'}, t ∈ tokens → Effect t m m' → P m → P m') (hn : P n)
    (hadd : addTokens cut read n atHead before taken tokens = .ok n') : P n' := by
  induction tokens generalizing n atHead before taken with
  | nil =>
    cases hadd
    exact hn
  | cons t tokens ih =>
    have hrest : ∀ {u m m'}, u ∈ tokens → Effect u m m' → P m → P m' := fun hu =>
      hstep (List.mem_cons_of_mem t hu)
    cases taken with
    | succ taken => exact ih hrest hn hadd
    | zero =>
      rw [addTokens] at hadd
      split at hadd
      next => cases hadd
      next m taken hm =>
        exact ih hrest (hstep (List.mem_cons_self ..) (effect_of_addToken hm) hn) hadd

theorem formed_of_addTokens (h : n.Formed marks) (htokens : ∀ t ∈ tokens, t.IsMark → marks = true)
    (hadd : addTokens cut read n atHead before taken tokens = .ok n') : n'.Formed marks :=
  invariant_of_addTokens (fun ht heffect hm => hm.effect (htokens _ ht) heffect) h hadd

theorem formed_of_closeAll {frames : List Frame} {root : Scope}
    (hitems : ∀ s ∈ items, s.Formed marks) (hframes : ∀ f ∈ frames, f.Formed marks)
    (h : Nesting.closeAll items frames = .ok root) : ∀ c ∈ root.children, c.Formed marks := by
  induction frames generalizing items with
  | nil =>
    cases h
    exact fun c hc => hitems c (List.mem_reverse.mp hc)
  | cons f outer ih =>
    rw [List.forall_mem_cons] at hframes
    rw [Nesting.closeAll] at h
    split at h
    next =>
      exact ih (List.forall_mem_cons.mpr ⟨formed_closed hframes.1 hitems, hframes.1.before⟩)
        hframes.2 h
    next => cases h
    next => cases h
    next => cases h

theorem plain_of_closeAll {frames : List Frame} {root : Scope}
    (h : Nesting.closeAll items frames = .ok root) : root = ⟨.plain, 0, none, root.children⟩ := by
  induction frames generalizing items with
  | nil =>
    cases h
    rfl
  | cons f outer ih =>
    rw [Nesting.closeAll] at h
    split at h
    next => exact ih h
    next => cases h
    next => cases h
    next => cases h

end Nest

theorem Scope.eq_of_ofTokens {cut : Nat → Nat → String} {read : NumeralReader}
    {tokens : List Token} {root : Scope} (h : Scope.ofTokens cut read tokens = .ok root) :
    ∃ n, Nest.addTokens cut read {} true none 0 tokens = .ok n ∧
      Nest.Nesting.closeAll n.items n.frames = .ok root := by
  unfold Scope.ofTokens at h
  cases hn : Nest.addTokens cut read {} true none 0 tokens with
  | error =>
    rw [hn] at h
    cases h
  | ok n =>
    rw [hn] at h
    exact ⟨n, rfl, h⟩

/-- A nested line has the form of one. Only a token that makes a label adds a mark. -/
theorem Scope.formed_of_ofTokens {cut : Nat → Nat → String} {read : NumeralReader} {marks : Bool}
    {tokens : List Token} {root : Scope} (htokens : ∀ t ∈ tokens, t.IsMark → marks = true)
    (h : Scope.ofTokens cut read tokens = .ok root) : ∀ c ∈ root.children, c.Formed marks := by
  obtain ⟨n, hn, hroot⟩ := Scope.eq_of_ofTokens h
  have hformed : n.Formed marks := Nest.formed_of_addTokens Nest.formed_start htokens hn
  exact Nest.formed_of_closeAll hformed.items hformed.frames hroot

end MacroAsm

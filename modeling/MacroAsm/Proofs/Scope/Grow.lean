import MacroAsm.Proofs.Scope.Form

/-!
# What is nested so far

`Nesting.whole` is the scope that a line nested so far would be if its open scopes ended there. The
tokens that follow only let it grow at its end (`whole_grows`): a scope gets more children, or its
last child grows if that is a scope too. So what the line starts with is known early and stays
(`Grows.startsWith`).
-/

namespace MacroAsm

namespace Scope

def StartsWith (P : Scope → Prop) (s : Scope) : Prop := ∃ c rest, s.children = c :: rest ∧ P c

/-- A scope with more children at its end, or whose last child, a scope itself, has grown. -/
inductive Grows : Scope → Scope → Prop
  | more {kind depth value children} (more : List Scope) :
      Grows ⟨kind, depth, value, children⟩ ⟨kind, depth, value, children ++ more⟩
  | last {kind depth value s s'} (front : List Scope) (hs : s.isScope = true) (h : Grows s s') :
      Grows ⟨kind, depth, value, front ++ [s]⟩ ⟨kind, depth, value, front ++ [s']⟩

variable {s s' : Scope} {P : Scope → Prop}

theorem Grows.refl (s : Scope) : Grows s s := by
  obtain ⟨kind, depth, value, children⟩ := s
  have h : Grows ⟨kind, depth, value, children⟩ ⟨kind, depth, value, children ++ []⟩ := .more []
  rwa [List.append_nil] at h

theorem Grows.kind_eq (h : Grows s s') : s'.kind = s.kind := by
  cases h <;> rfl

theorem Grows.value_eq (h : Grows s s') : s'.value = s.value := by
  cases h <;> rfl

/-- The first child of a scope stays, or grows. -/
theorem Grows.startsWith (h : Grows s s') (hs : s.StartsWith P)
    (hP : ∀ {c c' : Scope}, c.isScope = true → Grows c c' → P c → P c') : s'.StartsWith P := by
  obtain ⟨c, rest, hchildren, hc⟩ := hs
  cases h with
  | more more =>
    obtain rfl : _ = c :: rest := hchildren
    exact ⟨c, rest ++ more, rfl, hc⟩
  | @last _ _ _ t t' front ht h =>
    cases front with
    | nil =>
      obtain ⟨rfl, -⟩ := List.cons.inj hchildren
      exact ⟨t', [], rfl, hP ht h hc⟩
    | cons first front =>
      obtain ⟨rfl, -⟩ := List.cons.inj hchildren
      exact ⟨first, front ++ [t'], rfl, hc⟩

end Scope

namespace Nest

open Scope (Grows StartsWith)

variable {cut : Nat → Nat → String} {read : NumeralReader} {n n' : Nesting} {f : Frame}
  {items : List Scope} {frames : List Frame} {c c' s root : Scope} {taken : Nat} {atHead : Bool}
  {before : Option Token} {t : Token} {tokens : List Token} {P : Scope → Prop}

/-- The scope that the open scopes `frames` around `items` are if they all end here. -/
def Nesting.whole (items : List Scope) : List Frame → Scope
  | [] => ⟨.plain, 0, none, items.reverse⟩
  | f :: outer => whole (Nesting.closed f items :: f.before) outer

theorem isScope_closed : (Nesting.closed f items).isScope = true := by
  obtain ⟨opening, before, depth⟩ := f
  cases opening <;> rfl

theorem closed_grows : Grows (Nesting.closed f items) (Nesting.closed f (s :: items)) := by
  obtain ⟨opening, before, depth⟩ := f
  cases opening with
  | paren | bracket =>
    simp only [Nesting.closed, List.reverse_cons]
    exact .more [s]
  | call name size bare openedAt args =>
    simp only [Nesting.closed, List.reverse_cons]
    exact .last args.reverse rfl (.more [s])

theorem closed_grows_of_grows (hc : c.isScope = true) (h : Grows c c') :
    Grows (Nesting.closed f (c :: items)) (Nesting.closed f (c' :: items)) := by
  obtain ⟨opening, before, depth⟩ := f
  cases opening with
  | paren | bracket =>
    simp only [Nesting.closed, List.reverse_cons]
    exact .last items.reverse hc h
  | call name size bare openedAt args =>
    simp only [Nesting.closed, List.reverse_cons]
    exact .last args.reverse rfl (.last items.reverse hc h)

theorem whole_grows_of_grows (hc : c.isScope = true) (h : Grows c c') :
    Grows (Nesting.whole (c :: items) frames) (Nesting.whole (c' :: items) frames) := by
  induction frames generalizing items c c' with
  | nil =>
    simp only [Nesting.whole, List.reverse_cons]
    exact .last items.reverse hc h
  | cons f outer ih => exact ih isScope_closed (closed_grows_of_grows hc h)

theorem whole_grows_of_cons :
    Grows (Nesting.whole items frames) (Nesting.whole (s :: items) frames) := by
  cases frames with
  | nil =>
    simp only [Nesting.whole, List.reverse_cons]
    exact .more [s]
  | cons f outer => exact whole_grows_of_grows isScope_closed closed_grows

theorem whole_grows (h : Effect t n n') :
    Grows (Nesting.whole n.items n.frames) (Nesting.whole n'.items n'.frames) := by
  obtain ⟨items, depth, frames⟩ := n
  cases h with
  | none => exact .refl _
  | leaf | openParen | openBracket | openCall => exact whole_grows_of_cons
  | close hframes =>
    subst hframes
    exact .refl _
  | nextArgument hframes =>
    subst hframes
    refine whole_grows_of_grows rfl ?_
    simp only [Nesting.closed, List.reverse_cons]
    exact .more _

theorem whole_of_addTokens (h : addTokens cut read n atHead before taken tokens = .ok n')
    (hP : ∀ {s s'}, Grows s s' → P s → P s') (hn : P (Nesting.whole n.items n.frames)) :
    P (Nesting.whole n'.items n'.frames) :=
  invariant_of_addTokens (P := fun m => P (Nesting.whole m.items m.frames))
    (fun _ heffect => hP (whole_grows heffect)) hn h

theorem eq_whole_of_closeAll (h : Nesting.closeAll items frames = .ok root) :
    root = Nesting.whole items frames := by
  induction frames generalizing items with
  | nil => exact (Except.ok.inj h).symm
  | cons f outer ih =>
    rw [Nesting.closeAll] at h
    split at h
    next => exact ih h
    all_goals cases h

end Nest

end MacroAsm

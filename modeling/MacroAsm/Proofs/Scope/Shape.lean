import Mathlib
import MacroAsm.Number.Literal
import MacroAsm.Proofs.Scope.Written
import MacroAsm.Proofs.Token.Layout

/-!
# The shape of a nested line

`Scope.shape_of_ofTokens`: in a line that is nested, depths count the scopes around, only scopes
have children, macro calls consist of their arguments, and every leaf has a value of its kind, but
for the label mark, of which there is one at most. How many arguments a call has, and where a bare
call can stand, is what its tokens write (`Nest.WritesLine`).
-/

namespace MacroAsm

namespace Scope

mutual

def parts : Scope → List Scope
  | ⟨kind, depth, value, children⟩ => ⟨kind, depth, value, children⟩ :: partsOf children

def partsOf : List Scope → List Scope
  | [] => []
  | s :: rest => s.parts ++ partsOf rest

end

/-- What holds of every scope and leaf of a nested line. -/
structure Shaped (s : Scope) : Prop where
  depth : ∀ c ∈ s.children, c.depth = s.depth + 1
  leaf : s.isScope = false → s.children = []
  value : s.isScope = false → s.kind ≠ .label → ∃ v, s.value = some v ∧ IsValue s.kind v
  mark : s.kind = .label → s.value = none
  call : s.kind = .call → (∃ name size, s.value = some (.call name size [])) ∧ s.children ≠ [] ∧
    ∀ arg ∈ s.children, arg.kind = .plain

variable {s : Scope} {ss children : List Scope} {kind : ScopeKind} {depth : Nat} {v : Node}

theorem parts_eq (s : Scope) : s.parts = s :: partsOf s.children := by
  cases s
  rfl

theorem partsOf_append (front back : List Scope) :
    partsOf (front ++ back) = partsOf front ++ partsOf back := by
  induction front with
  | nil => rfl
  | cons s front ih => rw [List.cons_append, partsOf, ih, partsOf, List.append_assoc]

theorem partsOf_concat : partsOf (ss ++ [s]) = partsOf ss ++ s :: partsOf s.children := by
  rw [partsOf_append, partsOf, partsOf, List.append_nil, parts_eq]

theorem shaped_mark : Shaped ⟨.label, depth, none, []⟩ :=
  ⟨by simp, fun _ => rfl, fun _ h => absurd rfl h, fun _ => rfl, nofun⟩

theorem IsValue.kind_ne_label (h : IsValue kind v) : kind ≠ .label := by
  cases h <;> simp

theorem IsValue.shaped (h : IsValue kind v) : Shaped ⟨kind, depth, some v, []⟩ where
  depth := by simp
  leaf _ := rfl
  value _ _ := ⟨v, rfl, h⟩
  mark hkind := absurd hkind h.kind_ne_label
  call hkind := by cases h <;> cases hkind

theorem shaped_group (h : ∀ c ∈ children, c.depth = depth + 1) :
    Shaped ⟨.plain, depth, none, children⟩ := ⟨h, nofun, nofun, nofun, nofun⟩

theorem shaped_brackets (h : ∀ c ∈ children, c.depth = depth + 1) :
    Shaped ⟨.operator, depth, some (.bare .subscript), children⟩ := ⟨h, nofun, nofun, nofun, nofun⟩

theorem shaped_call {name : String} {size : Option String} {args : List Scope}
    (h : ∀ arg ∈ args, arg.kind = .plain ∧ arg.depth = depth + 1) :
    Shaped ⟨.call, depth, some (.call name size []),
      args ++ [⟨.plain, depth + 1, none, children⟩]⟩ where
  depth := by
    rw [List.forall_mem_append, List.forall_mem_singleton]
    exact ⟨fun arg harg => (h arg harg).2, rfl⟩
  leaf := nofun
  value := nofun
  mark := nofun
  call _ := by
    refine ⟨⟨name, size, rfl⟩, by simp, ?_⟩
    rw [List.forall_mem_append, List.forall_mem_singleton]
    exact ⟨fun arg harg => (h arg harg).1, rfl⟩

end Scope

namespace Nest

open Scope (parts partsOf partsOf_concat Shaped)

variable {depth : Nat} {tokens : List Token} {args children : List Scope} {root : Scope} {t : Token}

theorem Writes.depth_eq (h : Writes depth tokens args children) :
    ∀ c ∈ children, c.depth = depth := by
  induction h with
  | nil | comma => simp
  | blank _ _ ih => exact ih
  | mark _ _ ih | leaf _ _ _ ih | group _ _ _ _ ih | brackets _ _ _ _ ih | call _ _ _ _ _ _ ih =>
    rw [List.forall_mem_append, List.forall_mem_singleton]
    exact ⟨ih, rfl⟩

theorem Writes.arguments (h : Writes depth tokens args children) :
    ∀ arg ∈ args, arg.kind = .plain ∧ arg.depth + 1 = depth := by
  induction h with
  | nil => simp
  | blank _ _ ih | mark _ _ ih | leaf _ _ _ ih | group _ _ _ _ ih | brackets _ _ _ _ ih
  | call _ _ _ _ _ _ ih => exact ih
  | comma _ _ ih =>
    rw [List.forall_mem_append, List.forall_mem_singleton]
    exact ⟨ih, rfl, rfl⟩

theorem Writes.shaped (h : Writes depth tokens args children) :
    (∀ s ∈ partsOf args, s.Shaped) ∧ ∀ s ∈ partsOf children, s.Shaped := by
  have hconcat {ss : List Scope} {s : Scope} (hss : ∀ p ∈ partsOf ss, p.Shaped) (hs : s.Shaped)
      (hchildren : ∀ p ∈ partsOf s.children, p.Shaped) : ∀ p ∈ partsOf (ss ++ [s]), p.Shaped := by
    rw [partsOf_concat, List.forall_mem_append, List.forall_mem_cons]
    exact ⟨hss, hs, hchildren⟩
  have hnil : ∀ s ∈ partsOf [], s.Shaped := by simp [partsOf]
  induction h with
  | nil => exact ⟨hnil, hnil⟩
  | blank _ _ ih => exact ih
  | mark _ _ ih => exact ⟨ih.1, hconcat ih.2 Scope.shaped_mark hnil⟩
  | leaf _ _ hvalue ih => exact ⟨ih.1, hconcat ih.2 hvalue.shaped hnil⟩
  | comma h _ ih => exact ⟨hconcat ih.1 (Scope.shaped_group h.depth_eq) ih.2, hnil⟩
  | group _ _ hinner _ ih ihinner =>
    exact ⟨ih.1, hconcat ih.2 (Scope.shaped_group hinner.depth_eq) ihinner.2⟩
  | brackets _ _ hinner _ ih ihinner =>
    exact ⟨ih.1, hconcat ih.2 (Scope.shaped_brackets hinner.depth_eq) ihinner.2⟩
  | call _ _ _ hinner _ _ ih ihinner =>
    refine ⟨ih.1, hconcat ih.2 (Scope.shaped_call fun arg harg => ?_) ?_⟩
    · exact ⟨(hinner.arguments arg harg).1, Nat.succ.inj (hinner.arguments arg harg).2⟩
    · exact hconcat ihinner.1 (Scope.shaped_group hinner.depth_eq) ihinner.2

theorem not_isMark_of_isAtom (h : t.kind.isAtom = true) : ¬ t.IsMark := by
  rintro (hkind | hkind) <;>
    · rw [hkind] at h
      cases h

theorem countP_isMark_of_isAtom (h : ∀ t ∈ tokens, t.kind.isAtom = true) :
    tokens.countP (·.IsMark) = 0 := by
  rw [List.countP_eq_zero]
  simpa using fun t ht => not_isMark_of_isAtom (h t ht)

theorem countP_isMark_enclosed {o c : Token} (ho : ¬ o.IsMark) (hc : ¬ c.IsMark) :
    (o :: tokens ++ [c]).countP (·.IsMark) = tokens.countP (·.IsMark) := by
  simp [List.countP_append, ho, hc]

theorem Writes.countP_label (h : Writes depth tokens args children) :
    (partsOf args).countP (·.kind = .label) + (partsOf children).countP (·.kind = .label) =
      tokens.countP (·.IsMark) := by
  induction h with
  | nil => rfl
  | blank _ ht ih => simp [List.countP_append, ih, ht, Token.IsMark]
  | mark _ ht ih =>
    rw [partsOf_concat, List.countP_append, List.countP_append, ← ih]
    simp [partsOf, ht, Nat.add_assoc]
  | leaf _ hatoms hvalue ih =>
    rw [partsOf_concat, List.countP_append, List.countP_append, countP_isMark_of_isAtom hatoms,
      ← ih]
    simp [partsOf, hvalue.kind_ne_label]
  | comma _ ht ih =>
    rw [partsOf_concat, List.countP_append, List.countP_append, ← ih]
    simp [partsOf, ht, Token.IsMark]
  | group _ ho _ hc ih ihinner | brackets _ ho _ hc ih ihinner =>
    rw [partsOf_concat, List.countP_append, List.countP_append, ← ih,
      countP_isMark_enclosed (by simp [Token.IsMark, ho]) (by simp [Token.IsMark, hc]), ← ihinner]
    simp [partsOf, Nat.add_assoc]
  | call _ hwords ho _ _ hc ih ihinner =>
    have hnone := countP_isMark_of_isAtom fun u hu => TokenKind.isAtom_of_isWord (hwords u hu)
    rw [partsOf_concat, List.countP_append, List.countP_append, List.countP_append, hnone, ← ih,
      countP_isMark_enclosed (by simp [Token.IsMark, ho]) (by simp [Token.IsMark, hc]), ← ihinner]
    simp [partsOf_concat, List.countP_append, Nat.add_assoc]

theorem WritesLine.root_eq (h : WritesLine tokens root) :
    root = ⟨.plain, 0, none, root.children⟩ := by
  cases h <;> rfl

/-- What is in a line could be written with no bare call, by tokens with as many label marks. -/
theorem WritesLine.exists_writes (h : WritesLine tokens root) :
    ∃ tokens', Writes 1 tokens' [] root.children ∧
      tokens'.countP (·.IsMark) = tokens.countP (·.IsMark) := by
  cases h with
  | plain h => exact ⟨tokens, h, rfl⟩
  | bareCall h hwords hinner hcommas =>
    have ho : (⟨.openParen, 0, 0⟩ : Token).kind = .openParen := rfl
    have hc : (⟨.closeParen, 0, 0⟩ : Token).kind = .closeParen := rfl
    refine ⟨_, h.call hwords ho hinner hcommas hc, ?_⟩
    have ho' : ¬ (⟨.openParen, 0, 0⟩ : Token).IsMark := by simp [Token.IsMark]
    have hc' : ¬ (⟨.closeParen, 0, 0⟩ : Token).IsMark := by simp [Token.IsMark]
    rw [List.countP_append, List.countP_append, countP_isMark_enclosed ho' hc', List.countP_append,
      List.countP_append]

end Nest

/-- A line that is nested has the shape of one: the line itself is a group at depth zero with at
most one label leaf in it, and all scopes and leaves have the shape they should have. What they are
written by says how many arguments calls have, and that only the last child of the line can be a
bare call. -/
theorem Scope.shape_of_ofTokens {line : List Char} {tokens : List Token} {read : NumeralReader}
    {root : Scope} (hscan : scan line = .ok tokens)
    (h : Scope.ofTokens (cutLine line) read tokens = .ok root) :
    root.kind = .plain ∧ root.depth = 0 ∧ (∀ s ∈ root.parts, s.Shaped) ∧
      root.parts.countP (·.kind = .label) ≤ 1 ∧ Nest.WritesLine tokens root := by
  obtain ⟨-, hwrites⟩ := Scope.written_of_ofTokens h
  obtain ⟨tokens', hchildren, hmarks⟩ := hwrites.exists_writes
  have hroot := hwrites.root_eq
  have hkind : root.kind = .plain := by rw [hroot]
  have hshaped : root.Shaped := by
    rw [hroot]
    exact shaped_group hchildren.depth_eq
  refine ⟨hkind, by rw [hroot], ?_, ?_, hwrites⟩
  · rw [parts_eq, List.forall_mem_cons]
    exact ⟨hshaped, hchildren.shaped.2⟩
  · have hcount := hchildren.countP_label
    have hone := Scan.countP_isMark_le_one hscan
    rw [parts_eq, List.countP_cons_of_neg (by simp [hkind])]
    rw [partsOf, List.countP_nil] at hcount
    omega

/-- The bare call `f g(), x` has two arguments, and the call in it has one, which is empty. -/
theorem Scope.shape_of_ofTokens_bareCall :
    ∃ tokens root, scan " f g(), x".toList = .ok tokens ∧
      Scope.ofTokens (cutLine " f g(), x".toList) readNumeral tokens = .ok root ∧
      root.children = [⟨.call, 1, some (.call "f" none []),
        [⟨.plain, 2, none, [⟨.call, 3, some (.call "g" none []), [⟨.plain, 4, none, []⟩]⟩]⟩,
          ⟨.plain, 2, none, [⟨.text, 3, some (.text "x"), []⟩]⟩]⟩] ∧
      root.kind = .plain ∧ root.depth = 0 ∧ (∀ s ∈ root.parts, s.Shaped) ∧
      root.parts.countP (·.kind = .label) ≤ 1 ∧ Nest.WritesLine tokens root := by
  have hscan : scan " f g(), x".toList = .ok [⟨.name, 1, 2⟩, ⟨.blank, 2, 3⟩, ⟨.name, 3, 4⟩,
      ⟨.openParen, 4, 5⟩, ⟨.closeParen, 5, 6⟩, ⟨.comma, 6, 7⟩, ⟨.blank, 7, 8⟩, ⟨.name, 8, 9⟩,
      ⟨.blank, 9, 9⟩] := by cbv
  have hroot : Scope.ofTokens (cutLine " f g(), x".toList) readNumeral [⟨.name, 1, 2⟩,
      ⟨.blank, 2, 3⟩, ⟨.name, 3, 4⟩, ⟨.openParen, 4, 5⟩, ⟨.closeParen, 5, 6⟩, ⟨.comma, 6, 7⟩,
      ⟨.blank, 7, 8⟩, ⟨.name, 8, 9⟩, ⟨.blank, 9, 9⟩] =
        .ok ⟨.plain, 0, none, [⟨.call, 1, some (.call "f" none []),
          [⟨.plain, 2, none, [⟨.call, 3, some (.call "g" none []), [⟨.plain, 4, none, []⟩]⟩]⟩,
            ⟨.plain, 2, none, [⟨.text, 3, some (.text "x"), []⟩]⟩]⟩]⟩ := by cbv
  exact ⟨_, _, hscan, hroot, rfl, shape_of_ofTokens hscan hroot⟩

end MacroAsm

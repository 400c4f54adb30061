import MacroAsm.Fault
import MacroAsm.Text.Offset

/-!
# Accesses that are checked

An index into a list, or a pair of offsets into a text, may be out of bounds. `Access` is what
a computation comes to that makes such accesses: besides its result or a fault there is a third
outcome, none at all, for an access that is out of bounds. An element of a list is accessed with
`xs[i]?`, the text between two offsets with `Text.slice?`.
-/

namespace MacroAsm

/-- What a computation comes to that accesses lists and texts by index: a result, a fault, or
nothing if an access is out of bounds. -/
abbrev Access (α : Type) : Type := ExceptT Fault Option α

namespace Access

variable {α β : Type}

def get (x : Option α) : Access α := ExceptT.lift x

def result (x : Except Fault α) : Access α := ExceptT.mk (some x)

@[simp] theorem get_some_bind (a : α) (f : α → Access β) : get (some a) >>= f = f a := rfl

@[simp] theorem result_ok_bind (a : α) (f : α → Access β) : result (.ok a) >>= f = f a := rfl

@[simp] theorem result_error_bind (fault : Fault) (f : α → Access β) :
    result (.error fault) >>= f = result (.error fault) := rfl

theorem pure_eq (a : α) : (pure a : Access α) = result (.ok a) := rfl

end Access

namespace Text

variable {cs text before after : List Char} {offset start stop : Nat}

/-- Whether a character starts at byte `offset`, or the text ends there. -/
def isBoundary : List Char → Nat → Bool
  | [], offset => offset = 0
  | c :: cs, offset => offset = 0 || (c.utf8Size ≤ offset && isBoundary cs (offset - c.utf8Size))

/-- The characters between two byte offsets, if both are boundaries in the text and come in this
order. -/
def slice? (cs : List Char) (start stop : Nat) : Option (List Char) :=
  if start ≤ stop && isBoundary cs start && isBoundary cs stop then some (slice cs start stop)
  else none

theorem isBoundary_iff :
    isBoundary cs offset = true ↔
      ∃ before after, cs = before ++ after ∧ offset = byteSize before := by
  induction cs generalizing offset with
  | nil => simp [isBoundary]
  | cons c cs ih =>
    simp only [isBoundary, Bool.or_eq_true, Bool.and_eq_true, decide_eq_true_eq, ih]
    constructor
    · rintro (rfl | ⟨hle, before, after, rfl, hoffset⟩)
      · exact ⟨[], c :: cs, rfl, rfl⟩
      · refine ⟨c :: before, after, rfl, ?_⟩
        rw [byteSize_cons]
        omega
    · rintro ⟨before, after, hcs, rfl⟩
      cases before with
      | nil => exact .inl rfl
      | cons d before =>
        obtain ⟨rfl, rfl⟩ := List.cons.inj hcs
        exact .inr ⟨by simp, before, after, rfl, by simp⟩

theorem isBoundary_append (before after : List Char) :
    isBoundary (before ++ after) (byteSize before) = true :=
  isBoundary_iff.mpr ⟨before, after, rfl, rfl⟩

theorem exists_append_of_byteSize_le {before' after' : List Char}
    (h : before ++ after = before' ++ after') (hle : byteSize before ≤ byteSize before') :
    ∃ text, before' = before ++ text := by
  rcases List.append_eq_append_iff.mp h with ⟨text, htext, -⟩ | ⟨text, rfl, -⟩
  · exact ⟨text, htext⟩
  · cases text with
    | nil => exact ⟨[], by simp⟩
    | cons c text =>
      have hpos := c.utf8Size_pos
      simp only [byteSize_append, byteSize_cons] at hle
      omega

theorem slice?_eq_some_iff :
    slice? cs start stop = some text ↔
      ∃ before after, cs = before ++ text ++ after ∧ start = byteSize before ∧
        stop = byteSize (before ++ text) := by
  constructor
  · intro h
    rw [slice?, Option.ite_none_right_eq_some] at h
    obtain ⟨hbounds, htext⟩ := h
    simp only [Bool.and_eq_true, decide_eq_true_eq, isBoundary_iff] at hbounds
    obtain ⟨⟨hle, before, after, hcs, rfl⟩, before', after', hcs', rfl⟩ := hbounds
    obtain ⟨mid, rfl⟩ := exists_append_of_byteSize_le (hcs.symm.trans hcs') hle
    have hslice := slice_append before mid after'
    rw [← byteSize_append, ← hcs', Option.some.inj htext] at hslice
    subst hslice
    exact ⟨before, after', hcs', rfl, rfl⟩
  · rintro ⟨before, after, rfl, rfl, rfl⟩
    have hstop := isBoundary_append (before ++ text) after
    have hstart := isBoundary_append before (text ++ after)
    rw [← List.append_assoc] at hstart
    rw [slice?, hstart, hstop, byteSize_append, slice_append]
    simp

/-- No slice ends within a character. -/
example : slice? ['n', 'é'] 0 2 = none ∧ slice? ['n', 'é'] 1 3 = some ['é'] := by decide

end Text

end MacroAsm

/-!
# Byte offsets in a line

Positions in a line count UTF-8 bytes, while the line itself is handled as a list of characters.
`byteSize` measures a piece of text and `slice` cuts one out between two offsets; `slice_append`
says that `slice` finds the middle of three pieces, and `slice_append_add` that what it cuts out of
the middle depends on nothing else.
-/

namespace MacroAsm.Text

/-- The number of UTF-8 bytes of a piece of text. -/
def byteSize (cs : List Char) : Nat := cs.foldl (fun n c => n + c.utf8Size) 0

/-- The index of the first character at or after byte `offset`, where the list starts at
character `index`. -/
def charIndexFrom (index : Nat) : List Char → Nat → Nat
  | [], _ => index
  | c :: cs, offset =>
    if offset = 0 then index else charIndexFrom (index + 1) cs (offset - c.utf8Size)

/-- The characters of `cs` that start at byte `start` or later and before byte `stop`. -/
def slice (cs : List Char) (start stop : Nat) : List Char :=
  let first := charIndexFrom 0 cs start
  (cs.drop first).take (charIndexFrom 0 cs stop - first)

/-! ## Laws -/

theorem foldl_utf8Size (cs : List Char) (n : Nat) :
    cs.foldl (fun n c => n + c.utf8Size) n = n + byteSize cs := by
  induction cs generalizing n with
  | nil => rfl
  | cons c cs ih =>
    have h := ih c.utf8Size
    rw [byteSize, List.foldl_cons, List.foldl_cons, ih, Nat.zero_add, h, Nat.add_assoc]

@[simp] theorem byteSize_nil : byteSize [] = 0 := rfl

@[simp] theorem byteSize_cons (c : Char) (cs : List Char) :
    byteSize (c :: cs) = c.utf8Size + byteSize cs := by
  rw [byteSize, List.foldl_cons, foldl_utf8Size, Nat.zero_add]

@[simp] theorem byteSize_append (cs ds : List Char) :
    byteSize (cs ++ ds) = byteSize cs + byteSize ds := by
  induction cs with
  | nil => simp
  | cons c cs ih => simp [ih, Nat.add_assoc]

theorem charIndexFrom_append_add (index offset : Nat) (cs ds : List Char) :
    charIndexFrom index (cs ++ ds) (byteSize cs + offset) =
      charIndexFrom (index + cs.length) ds offset := by
  induction cs generalizing index with
  | nil => simp
  | cons c cs ih =>
    have hc : c.utf8Size ≠ 0 := Nat.pos_iff_ne_zero.mp c.utf8Size_pos
    rw [List.cons_append, charIndexFrom, byteSize_cons, if_neg (by omega), Nat.add_assoc,
      Nat.add_sub_cancel_left, ih, List.length_cons, Nat.add_assoc, Nat.add_comm 1]

theorem charIndexFrom_zero (index : Nat) (cs : List Char) : charIndexFrom index cs 0 = index := by
  cases cs <;> simp [charIndexFrom]

theorem charIndexFrom_append (index : Nat) (cs ds : List Char) :
    charIndexFrom index (cs ++ ds) (byteSize cs) = index + cs.length := by
  have h := charIndexFrom_append_add index 0 cs ds
  rwa [Nat.add_zero, charIndexFrom_zero] at h

theorem charIndexFrom_eq_add (index offset : Nat) (cs : List Char) :
    charIndexFrom index cs offset = index + charIndexFrom 0 cs offset := by
  induction cs generalizing index offset with
  | nil => rfl
  | cons c cs ih =>
    rw [charIndexFrom, charIndexFrom, ih (index + 1), ih (0 + 1)]
    split <;> omega

theorem charIndexFrom_le (offset : Nat) (cs : List Char) :
    charIndexFrom 0 cs offset ≤ cs.length := by
  induction cs generalizing offset with
  | nil => exact Nat.le_refl _
  | cons c cs ih =>
    rw [charIndexFrom, charIndexFrom_eq_add, List.length_cons]
    have hle := ih (offset - c.utf8Size)
    split <;> omega

theorem charIndexFrom_append_of_le {index offset : Nat} {cs ds : List Char}
    (h : offset ≤ byteSize cs) :
    charIndexFrom index (cs ++ ds) offset = charIndexFrom index cs offset := by
  induction cs generalizing index offset with
  | nil =>
    obtain rfl : offset = 0 := Nat.le_zero.mp h
    exact charIndexFrom_zero index ds
  | cons c cs ih =>
    have hle : offset - c.utf8Size ≤ byteSize cs := by
      rw [byteSize_cons] at h
      omega
    rw [List.cons_append, charIndexFrom, charIndexFrom, ih hle]

/-- Cutting within the middle piece gives what it gives there. -/
theorem slice_append_add (before middle after : List Char) {start stop : Nat}
    (hstart : start ≤ byteSize middle) (hstop : stop ≤ byteSize middle) :
    slice (before ++ middle ++ after) (byteSize before + start) (byteSize before + stop)
      = slice middle start stop := by
  have hindex : ∀ offset, offset ≤ byteSize middle →
      charIndexFrom 0 (before ++ middle ++ after) (byteSize before + offset) =
        before.length + charIndexFrom 0 middle offset := by
    intro offset hoffset
    rw [List.append_assoc, charIndexFrom_append_add, charIndexFrom_append_of_le hoffset,
      charIndexFrom_eq_add, Nat.zero_add]
  have hfirst := charIndexFrom_le start middle
  have hlast := charIndexFrom_le stop middle
  rw [slice, slice, hindex start hstart, hindex stop hstop, List.append_assoc,
    Nat.add_sub_add_left, List.drop_length_add_append, List.drop_append_of_le_length hfirst,
    List.take_append_of_le_length]
  rw [List.length_drop]
  omega

/-- Cutting at the ends of the middle piece gives the middle piece. -/
theorem slice_append (before middle after : List Char) :
    slice (before ++ middle ++ after) (byteSize before) (byteSize before + byteSize middle)
      = middle := by
  have h := slice_append_add before middle after (Nat.zero_le _) (Nat.le_refl (byteSize middle))
  have hlast := charIndexFrom_append 0 middle []
  rw [List.append_nil] at hlast
  rw [Nat.add_zero] at h
  rw [h, slice, hlast, charIndexFrom_zero]
  simp

end MacroAsm.Text

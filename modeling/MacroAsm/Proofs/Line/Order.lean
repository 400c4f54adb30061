import MacroAsm.Proofs.Line.Builder

/-!
# Lines come in order

What a file is split into is numbered by physical lines that strictly increase (`items_ascending`):
a logical line by the one that it starts on, and a string left open at the end by the one of its
opening quote. The numbers have 32 bits. They increase themselves as long as no count of lines is
too large for that (`Ascending.pairwise`).

A logical line takes at least one line break with it, and a string is opened no earlier than the
line that it is on starts (`LineBuilder.Counts`).
-/

namespace MacroAsm

/-- The number that a part of a file is reported under. -/
def itemNumber : Except Fault Line → UInt32
  | .ok l => l.number
  | .error (.unterminated openedAtLine) => openedAtLine
  | .error _ => 0

/-- The numbers of physical lines that come one after the other in a file with so many line
breaks. -/
def Ascending (breaks : Nat) (numbers : List UInt32) : Prop :=
  ∃ lines : List Nat, numbers = lines.map UInt32.ofNat ∧ lines.Pairwise (· < ·) ∧
    ∀ line ∈ lines, line ≤ 1 + breaks

variable {breaks : Nat} {numbers kept : List UInt32}

theorem Ascending.sublist (h : Ascending breaks numbers) (hkept : kept.Sublist numbers) :
    Ascending breaks kept := by
  obtain ⟨lines, rfl, hlt, hle⟩ := h
  obtain ⟨keptLines, hlines, rfl⟩ := List.sublist_map_iff.mp hkept
  exact ⟨keptLines, rfl, hlt.sublist hlines, fun line hline => hle line (hlines.subset hline)⟩

/-- What keeps the numbers of some items keeps them in order. -/
theorem Ascending.filterMap {α : Type} {items : List α} {number : α → UInt32}
    {kept? : α → Option UInt32} (h : Ascending breaks (items.map number))
    (hkept : ∀ item ∈ items, ∀ n ∈ kept? item, n = number item) :
    Ascending breaks (items.filterMap kept?) := by
  refine h.sublist ?_
  clear h
  induction items with
  | nil => exact .slnil
  | cons item items ih =>
    rw [List.forall_mem_cons] at hkept
    rw [List.map_cons]
    cases hitem : kept? item with
    | none =>
      rw [List.filterMap_cons_none hitem]
      exact (ih hkept.2).cons _
    | some n =>
      rw [List.filterMap_cons_some hitem, hkept.1 n hitem]
      exact (ih hkept.2).cons_cons _

theorem toNat_ofNat_line {line : Nat} (hline : line ≤ 1 + breaks)
    (hbreaks : breaks < UInt32.size - 1) :
    (UInt32.ofNat line).toNat = line :=
  UInt32.toNat_ofNat_of_lt' (by omega)

theorem Ascending.pairwise (h : Ascending breaks numbers) (hbreaks : breaks < UInt32.size - 1) :
    numbers.Pairwise (· < ·) := by
  obtain ⟨lines, rfl, hlt, hle⟩ := h
  rw [List.pairwise_map]
  refine hlt.imp_of_mem fun {line later} hline hlater hlt => ?_
  rwa [UInt32.lt_iff_toNat_lt, toNat_ofNat_line (hle line hline) hbreaks,
    toNat_ofNat_line (hle later hlater) hbreaks]

namespace LineBuilder

variable {b : LineBuilder} {c : Char} {cs : List Char} {l : Line} {start current : Nat}

/-- The logical line started on the physical line `start`, and `current` is the one it is on now. A
string that is open was opened in between. -/
structure Counts (b : LineBuilder) (start current : Nat) : Prop where
  startLine : b.startLine = UInt32.ofNat start
  line : b.line = UInt32.ofNat current
  le : start ≤ current
  opened : ∀ quote openedAtLine escaped, b.mode = .quoted quote openedAtLine escaped →
    ∃ opened, openedAtLine = UInt32.ofNat opened ∧ start ≤ opened ∧ opened ≤ current

theorem number_of_built? (h : b.built? = some l) : l.number = b.startLine := by
  rw [built?] at h
  split at h
  · cases h
  · cases h
    rfl

theorem opened_modeAfter {mode : LineMode} {number openedAtLine : UInt32} {quote : Char}
    {escaped : Bool} (h : modeAfter mode number c = .quoted quote openedAtLine escaped) :
    openedAtLine = number ∨ ∃ quote' escaped', mode = .quoted quote' openedAtLine escaped' := by
  cases mode with
  | comment => cases h
  | code =>
    simp only [modeAfter] at h
    split at h
    · cases h
    · split at h
      · cases h
        exact .inl rfl
      · cases h
  | quoted quote' openedAt escaped' =>
    simp only [modeAfter] at h
    split at h
    · cases h
      exact .inr ⟨_, _, rfl⟩
    · split at h
      · cases h
      · cases h
        exact .inr ⟨_, _, rfl⟩

theorem Counts.feed_lineBreak (h : b.Counts start current) :
    ∃ next, (b.feed '\n').1.Counts next (current + 1) ∧ start ≤ next ∧
      ∀ l ∈ (b.feed '\n').2, l.number = UInt32.ofNat start ∧ start < next := by
  have hline : b.line + 1 = UInt32.ofNat (current + 1) := by
    rw [h.line, UInt32.ofNat_add]
    rfl
  have hle := h.le
  show ∃ next, b.breakLine.1.Counts next (current + 1) ∧ start ≤ next ∧
    ∀ l ∈ b.breakLine.2, l.number = UInt32.ofNat start ∧ start < next
  rw [breakLine]
  cases hmode : b.mode with
  | quoted quote openedAt escaped =>
    obtain ⟨opened, hopened, hstart, hlater⟩ := h.opened _ _ _ hmode
    refine ⟨start, ⟨h.startLine, hline, by omega, ?_⟩, Nat.le_refl _, by simp⟩
    rintro _ _ _ ⟨⟩
    exact ⟨opened, hopened, hstart, by omega⟩
  | code | comment =>
    refine ⟨current + 1, ⟨hline, hline, Nat.le_refl _, by simp⟩, by omega, fun l hl => ?_⟩
    exact ⟨(number_of_built? hl).trans h.startLine, by omega⟩

theorem Counts.feed_of_ne (h : b.Counts start current) (hc : c ≠ '\n') :
    (b.feed c).1.Counts start current ∧ (b.feed c).2 = none := by
  rw [LineBuilder.feed, if_neg hc]
  split
  next => exact ⟨⟨h.startLine, h.line, h.le, by simp⟩, rfl⟩
  next =>
    refine ⟨⟨h.startLine, h.line, h.le, fun quote openedAtLine escaped hmode => ?_⟩, rfl⟩
    rcases opened_modeAfter hmode with rfl | ⟨quote', escaped', hmode⟩
    · exact ⟨current, h.line, h.le, Nat.le_refl _⟩
    · exact h.opened _ _ _ hmode

theorem Counts.feed (h : b.Counts start current) (c : Char) :
    ∃ next, (b.feed c).1.Counts next (current + [c].count '\n') ∧ start ≤ next ∧
      ∀ l ∈ (b.feed c).2, l.number = UInt32.ofNat start ∧ start < next := by
  by_cases hc : c = '\n'
  · subst hc
    exact h.feed_lineBreak
  · obtain ⟨hnext, hnone⟩ := h.feed_of_ne hc
    refine ⟨start, ?_, Nat.le_refl _, by simp [hnone]⟩
    rwa [List.count_eq_zero.mpr (by simpa using Ne.symm hc)]

theorem Counts.lastItem? (h : b.Counts start current) :
    ∀ item ∈ b.lastItem?, ∃ number, itemNumber item = UInt32.ofNat number ∧
      start ≤ number ∧ number ≤ current := by
  intro item hitem
  rw [LineBuilder.lastItem?, finish] at hitem
  cases hmode : b.mode with
  | quoted quote openedAt escaped =>
    rw [hmode] at hitem
    cases hitem
    exact h.opened _ _ _ hmode
  | code | comment =>
    rw [hmode] at hitem
    obtain ⟨l, hl, rfl⟩ := Option.map_eq_some_iff.mp hitem
    exact ⟨start, (number_of_built? hl).trans h.startLine, Nat.le_refl _, h.le⟩

theorem Counts.itemsOf (h : b.Counts start current) (cs : List Char) :
    ∃ lines : List Nat, (b.itemsOf cs).map itemNumber = lines.map UInt32.ofNat ∧
      lines.Pairwise (· < ·) ∧
      ∀ number ∈ lines, start ≤ number ∧ number ≤ current + cs.count '\n' := by
  induction cs generalizing b start current with
  | nil =>
    have hlast := h.lastItem?
    rw [LineBuilder.itemsOf, feedAll]
    cases hitem : b.lastItem? with
    | none => exact ⟨[], rfl, .nil, by simp⟩
    | some item =>
      obtain ⟨number, hnumber, hbounds⟩ := hlast item hitem
      exact ⟨[number], by simp [hnumber], List.pairwise_singleton .., by simpa using hbounds⟩
  | cons c cs ih =>
    obtain ⟨next, hnext, hstart, hline⟩ := h.feed c
    obtain ⟨lines, hlines, hlt, hbounds⟩ := ih hnext
    have hcount : current + [c].count '\n' + cs.count '\n' = current + (c :: cs).count '\n' := by
      rw [Nat.add_assoc, ← List.count_append, List.singleton_append]
    rw [hcount] at hbounds
    rw [itemsOf_cons]
    cases hl : (b.feed c).2 with
    | none =>
      exact ⟨lines, hlines, hlt, fun number hnumber =>
        ⟨Nat.le_trans hstart (hbounds number hnumber).1, (hbounds number hnumber).2⟩⟩
    | some l =>
      obtain ⟨hnumber, hbefore⟩ := hline l hl
      refine ⟨start :: lines, ?_, .cons (fun number hmem => ?_) hlt, fun number hmem => ?_⟩
      · simp [hlines, itemNumber, hnumber]
      · exact Nat.lt_of_lt_of_le hbefore (hbounds number hmem).1
      · rcases List.mem_cons.mp hmem with rfl | hmem
        · exact ⟨Nat.le_refl _, Nat.le_trans h.le (Nat.le_add_right ..)⟩
        · exact ⟨Nat.le_trans hstart (hbounds number hmem).1, (hbounds number hmem).2⟩

end LineBuilder

/-- The lines of a file, and the fault at its end, are numbered by physical lines in strictly
increasing order. -/
theorem items_ascending (bytes : List UInt8) :
    Ascending (bytes.count 10) ((logicalLines bytes).items.map itemNumber) := by
  have hnew : ({} : LineBuilder).Counts 1 1 := ⟨rfl, rfl, Nat.le_refl _, by simp⟩
  obtain ⟨lines, hlines, hlt, hbounds⟩ := hnew.itemsOf (bytes.map byteChar)
  rw [count_byteChar] at hbounds
  exact ⟨lines, by rw [items_logicalLines, hlines], hlt, fun line hline => (hbounds line hline).2⟩

end MacroAsm

import MacroAsm.Proofs.Line.Builder

/-!
# One file after another

A file that ends with a line break outside strings leaves nothing behind but the count of its
lines: the builder is new again, only so many lines further down (`feedAll_of_closed`). What comes
after it is therefore read as a file of its own of which all line numbers are that much larger
(`items_append`).
-/

namespace MacroAsm

/-- The line, `k` physical lines further down. -/
def Line.later (k : UInt32) (l : Line) : Line := { l with number := k + l.number }

def Fault.later (k : UInt32) : Fault → Fault
  | unterminated openedAtLine => unterminated (k + openedAtLine)
  | fault => fault

def itemLater (k : UInt32) (item : Except Fault Line) : Except Fault Line :=
  match item with
  | .ok l => .ok (l.later k)
  | .error fault => .error (fault.later k)

def LineMode.later (k : UInt32) : LineMode → LineMode
  | quoted quote openedAtLine escaped => quoted quote (k + openedAtLine) escaped
  | mode => mode

def LineBuilder.later (k : UInt32) (b : LineBuilder) : LineBuilder :=
  { b with mode := b.mode.later k, line := k + b.line, startLine := k + b.startLine }

variable {k : UInt32} {b : LineBuilder} {c : Char} {cs rest : List Char}

namespace LineBuilder

/-! ## Where a builder stands does not matter -/

theorem modeAfter_later (mode : LineMode) (line : UInt32) :
    modeAfter (mode.later k) (k + line) c = (modeAfter mode line c).later k := by
  cases mode with
  | comment => rfl
  | code =>
    rw [modeAfter, apply_ite (LineMode.later k), apply_ite (LineMode.later k)]
    rfl
  | quoted quote openedAt escaped =>
    rw [modeAfter, apply_ite (LineMode.later k), apply_ite (LineMode.later k)]
    rfl

theorem built?_later : (b.later k).built? = b.built?.map (Line.later k) := by
  obtain ⟨mode, _ | ⟨c, text⟩, line, start⟩ := b <;> rfl

theorem breakLine_later :
    (b.later k).breakLine = (b.breakLine.1.later k, b.breakLine.2.map (Line.later k)) := by
  have hline : (b.later k).line + 1 = k + (b.line + 1) := UInt32.add_assoc ..
  have hbuilt := built?_later (k := k) (b := b)
  rw [breakLine, breakLine, hline, hbuilt]
  cases hmode : b.mode <;> simp [later, LineMode.later, hmode]

theorem feed_later :
    (b.later k).feed c = ((b.feed c).1.later k, (b.feed c).2.map (Line.later k)) := by
  rw [feed, feed]
  split
  · exact breakLine_later
  · have hmode : modeAfter (b.later k).mode (b.later k).line c =
        (modeAfter b.mode b.line c).later k := modeAfter_later ..
    rw [hmode]
    cases modeAfter b.mode b.line c <;> rfl

theorem feedAll_later :
    (b.later k).feedAll cs =
      ((b.feedAll cs).1.later k, (b.feedAll cs).2.map (Line.later k)) := by
  induction cs generalizing b with
  | nil => rfl
  | cons c cs ih =>
    rw [feedAll_cons, feedAll_cons, feed_later, ih, List.map_append]
    cases (b.feed c).2 <;> rfl

theorem lastItem?_later : (b.later k).lastItem? = b.lastItem?.map (itemLater k) := by
  have hbuilt := built?_later (b := b) (k := k)
  obtain ⟨mode, text, line, start⟩ := b
  cases mode with
  | quoted quote openedAt escaped => rfl
  | _ =>
    show ((later k _).built?).map Except.ok = Option.map _ (Option.map _ (built? _))
    rw [hbuilt, Option.map_map, Option.map_map]
    rfl

theorem itemsOf_later : (b.later k).itemsOf cs = (b.itemsOf cs).map (itemLater k) := by
  rw [itemsOf, itemsOf, feedAll_later, lastItem?_later, List.map_append, List.map_map, List.map_map]
  cases (b.feedAll cs).1.lastItem? <;> rfl

/-! ## After a closed file -/

theorem line_feed : (b.feed c).1.line = lineAfter b.line [c] := by
  by_cases hbreak : c = '\n'
  · subst hbreak
    show b.breakLine.1.line = _
    rw [breakLine]
    cases b.mode <;> rfl
  · rw [feed, if_neg hbreak, lineAfter_of_ne hbreak]
    split <;> rfl

theorem line_feedAll : (b.feedAll cs).1.line = lineAfter b.line cs := by
  induction cs generalizing b with
  | nil => exact (lineAfter_of_not_mem List.not_mem_nil).symm
  | cons c cs ih => rw [feedAll_cons, ih, line_feed, ← lineAfter_cons]

theorem feed_lineBreak (hclosed : (b.feed '\n').1.mode.quote? = none) :
    (b.feed '\n').1 = later b.line {} := by
  revert hclosed
  show b.breakLine.1.mode.quote? = none → b.breakLine.1 = _
  rw [breakLine]
  cases b.mode with
  | quoted quote openedAt escaped => intro hclosed; cases hclosed
  | _ => intro; rfl

theorem feedAll_of_closed (hcs : cs = [] ∨ cs.getLast? = some '\n')
    (hclosed : (feedAll {} cs).1.mode.quote? = none) :
    (feedAll {} cs).1 = later (UInt32.ofNat (cs.count '\n')) {} := by
  rcases hcs with rfl | hlast
  · rfl
  · obtain ⟨front, rfl⟩ := List.getLast?_eq_some_iff.mp hlast
    rw [feedAll_append] at hclosed ⊢
    have hbreak := feed_lineBreak (b := (feedAll {} front).1) hclosed
    rw [line_feedAll, lineAfter, UInt32.add_comm] at hbreak
    rw [List.count_append, UInt32.ofNat_add]
    exact hbreak

theorem quote?_of_lastItem? (h : ∀ fault, b.lastItem? ≠ some (.error fault)) :
    b.mode.quote? = none := by
  rw [lastItem?, finish] at h
  cases hmode : b.mode with
  | quoted quote openedAt escaped =>
    rw [hmode] at h
    exact absurd rfl (h _)
  | _ => rfl

end LineBuilder

/-! ## Files -/

theorem ok_mem_items_iff {split : LineSplit} {l : Line} :
    .ok l ∈ split.items ↔ l ∈ split.lines := by
  simp [LineSplit.items]

theorem error_mem_items_iff {split : LineSplit} {fault : Fault} :
    .error fault ∈ split.items ↔ split.fault? = some fault := by
  simp [LineSplit.items]

theorem exists_unterminated_of_mem {bytes : List UInt8} (fault : Fault)
    (h : .error fault ∈ (logicalLines bytes).items) : ∃ line, fault = .unterminated line := by
  rw [items_logicalLines, LineBuilder.itemsOf, LineBuilder.lastItem?, LineBuilder.finish] at h
  cases hmode : ((({} : LineBuilder).feedAll (bytes.map byteChar)).1).mode <;>
    simp [hmode] at h
  exact ⟨_, h⟩

/-- After a file that ends with a line break and not inside a string, another file is read as if on
its own, that many lines further down. -/
theorem items_append {a b : List UInt8} (ha : a = [] ∨ a.getLast? = some 10)
    (hclosed : (logicalLines a).fault? = none) :
    (logicalLines (a ++ b)).items =
      (logicalLines a).items ++
        (logicalLines b).items.map (itemLater (UInt32.ofNat (a.count 10))) := by
  rw [items_logicalLines, items_logicalLines, items_logicalLines, List.map_append,
    LineBuilder.itemsOf_append, ← LineBuilder.itemsOf_later]
  have hlast : a.map byteChar = [] ∨ (a.map byteChar).getLast? = some '\n' := by
    rcases ha with rfl | hlast
    · exact .inl rfl
    · exact .inr (by rw [List.getLast?_map, hlast]; rfl)
  have hopen : (LineBuilder.feedAll {} (a.map byteChar)).1.mode.quote? = none := by
    refine LineBuilder.quote?_of_lastItem? fun fault h => ?_
    have : .error fault ∈ (logicalLines a).items := by
      rw [items_logicalLines, LineBuilder.itemsOf, h]
      simp
    rw [error_mem_items_iff, hclosed] at this
    cases this
  have hnew := LineBuilder.feedAll_of_closed hlast hopen
  rw [count_byteChar] at hnew
  rw [LineBuilder.itemsOf.eq_def {} (a.map byteChar), hnew]
  simp [LineBuilder.lastItem?, LineBuilder.finish, LineBuilder.later, LineMode.later,
    LineBuilder.built?]

end MacroAsm

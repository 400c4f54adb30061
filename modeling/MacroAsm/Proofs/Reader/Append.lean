import MacroAsm.Proofs.Line.Order
import MacroAsm.Proofs.Line.Shift
import MacroAsm.Reader

/-!
# Reading one file after another

A reader that collects faults and does not come upon a limit takes each line of a file on its own:
its statements are those of the lines that have one, its faults those of the lines at fault
(`file_of_within`). So a file that ends with a line break outside strings and one that is put
after it are read as two files are, of which the second has larger line numbers (`file_append`).
-/

namespace MacroAsm

def Position.later (k : UInt32) (p : Position) : Position := { p with line := k + p.line }

def Statement.later (k : UInt32) (s : Statement) : Statement := { s with line := k + s.line }

namespace Diagnostic

mutual

/-- The diagnostic, `k` physical lines further down. -/
def later (k : UInt32) : Diagnostic → Diagnostic
  | located fault file position => located (fault.later k) file (position.later k)
  | limitExceeded resource limit => limitExceeded resource limit
  | several ds => several (laterAll k ds)

def laterAll (k : UInt32) : List Diagnostic → List Diagnostic
  | [] => []
  | d :: ds => d.later k :: laterAll k ds

end

end Diagnostic

variable {k : UInt32} {name : String} {r : Reader}

theorem Fault.offset?_later (fault : Fault) : (fault.later k).offset? = fault.offset? := by
  cases fault <;> rfl

theorem Fault.locate_later (fault : Fault) (line : UInt32) :
    (fault.later k).locate name (k + line) = (fault.locate name line).later k := by
  rw [locate, locate, offset?_later]
  cases fault.offset? <;> rfl

theorem Fault.exists_locate (fault : Fault) (name : String) (line : UInt32) :
    ∃ position, fault.locate name line = .located fault name position ∧ position.line = line := by
  refine ⟨_, rfl, ?_⟩
  cases fault.offset? <;> rfl

namespace Reader

/-! ## Line by line -/

/-- What a line of the file `name`, or the fault at its end, comes to. A fault is reported at the
column of its offset, or against its line if it has none, and a string that is open in a line with
the number of that line. -/
def reading (r : Reader) (name : String) : Except Fault Line → Except Diagnostic (Option Statement)
  | .ok l =>
    match r.line l.text with
    | .ok node? => .ok (node?.map fun node => ⟨name, l.number, node⟩)
    | .error (.unterminated _) =>
      .error (.located (.unterminated l.number) name ⟨l.number, 0, 0⟩)
    | .error fault =>
      match fault.offset? with
      | some offset => .error (.located fault name ⟨l.number, UInt32.ofNat offset + 1, 1⟩)
      | none => .error (.located fault name ⟨l.number, 0, 0⟩)
  | .error (.unterminated openedAtLine) =>
    .error (.located (.unterminated openedAtLine) name ⟨openedAtLine, 0, 0⟩)
  | .error fault => .error (fault.locate name 0)

theorem reading_of_ok {l : Line} {node? : Option Node} (h : r.line l.text = .ok node?) :
    r.reading name (.ok l) = .ok (node?.map fun node => ⟨name, l.number, node⟩) := by
  rw [reading, h]

theorem reading_of_error {l : Line} {fault : Fault} (h : r.line l.text = .error fault) :
    r.reading name (.ok l) = .error ((faultInFile l fault).locate name l.number) := by
  rw [reading, h]
  cases fault with
  | badArgument detail offset? => cases offset? <;> rfl
  | _ => rfl

def statementsOf (r : Reader) (name : String) (items : List (Except Fault Line)) :
    List Statement :=
  items.filterMap fun item =>
    match r.reading name item with
    | .ok statement? => statement?
    | .error _ => none

/-- The diagnostics of the lines of a file that are at fault. -/
def faultsOf (r : Reader) (name : String) (items : List (Except Fault Line)) :
    List Diagnostic :=
  items.filterMap fun item =>
    match r.reading name item with
    | .ok _ => none
    | .error d => some d

theorem located_of_reading {item : Except Fault Line} {d : Diagnostic}
    (h : r.reading name item = .error d) :
    ∃ fault position, d = .located fault name position ∧ position.line = itemNumber item := by
  rcases item with fault | l
  · obtain ⟨position, hlocate, hline⟩ := fault.exists_locate name (itemNumber (.error fault))
    have hreading : r.reading name (.error fault) =
        .error (fault.locate name (itemNumber (.error fault))) := by
      cases fault <;> rfl
    exact ⟨fault, position, (Except.error.inj (h.symm.trans hreading)).trans hlocate, hline⟩
  · cases hline : r.line l.text with
    | ok node? => exact nomatch (reading_of_ok hline).symm.trans h
    | error fault =>
      obtain ⟨position, hlocate, hposition⟩ := (faultInFile l fault).exists_locate name l.number
      have hd := Except.error.inj ((reading_of_error hline).symm.trans h)
      exact ⟨_, position, hd.symm.trans hlocate, hposition⟩

theorem mem_faultsOf {items : List (Except Fault Line)} {d : Diagnostic} :
    d ∈ r.faultsOf name items ↔ ∃ item ∈ items, r.reading name item = .error d := by
  rw [faultsOf, List.mem_filterMap]
  refine exists_congr fun item => and_congr_right fun _ => ?_
  cases r.reading name item <;> simp

theorem located_of_mem_faultsOf {items : List (Except Fault Line)} {d : Diagnostic}
    (h : d ∈ r.faultsOf name items) :
    ∃ fault position, d = .located fault name position := by
  obtain ⟨item, -, hitem⟩ := mem_faultsOf.mp h
  obtain ⟨fault, position, hd, -⟩ := located_of_reading hitem
  exact ⟨fault, position, hd⟩

theorem statementsOf_append (items rest : List (Except Fault Line)) :
    r.statementsOf name (items ++ rest) = r.statementsOf name items ++ r.statementsOf name rest :=
  List.filterMap_append

theorem faultsOf_append (items rest : List (Except Fault Line)) :
    r.faultsOf name (items ++ rest) = r.faultsOf name items ++ r.faultsOf name rest :=
  List.filterMap_append

/-- How many lines of a file are at fault, with the one that it ends in. -/
def failures (r : Reader) (split : LineSplit) : Nat :=
  split.lines.countP (fun l => !(r.line l.text).isOk) + split.fault?.toList.length

theorem length_faultsOf (name : String) (split : LineSplit) :
    (r.faultsOf name split.items).length = r.failures split := by
  rw [faultsOf, LineSplit.items, List.filterMap_append, List.length_append, List.filterMap_map,
    List.filterMap_map, failures]
  congr 1
  · rw [List.length_filterMap_eq_countP]
    refine List.countP_congr fun l _ => ?_
    rw [Function.comp_apply]
    cases hline : r.line l.text with
    | ok node? => simp [reading_of_ok hline, Except.isOk, Except.toBool]
    | error fault => simp [reading_of_error hline, Except.isOk, Except.toBool]
  · rcases split.fault? with _ | _ | _ <;> rfl

/-- The progress `next` is the progress `p` with what `items` come to. -/
structure Took (r : Reader) (name : String) (p next : Progress) (items : List (Except Fault Line)) :
    Prop where
  statements : next.statements = (r.statementsOf name items).reverse ++ p.statements
  faults : next.faults = (r.faultsOf name items).reverse ++ p.faults

section

variable {p next last : Progress} {l : Line} {lines : List Line} {item : Except Fault Line}
  {items rest : List (Except Fault Line)} {d : Diagnostic}

theorem Took.append (h : r.Took name p next items) (hrest : r.Took name next last rest) :
    r.Took name p last (items ++ rest) where
  statements := by
    rw [hrest.statements, h.statements, statementsOf_append, List.reverse_append,
      List.append_assoc]
  faults := by
    rw [hrest.faults, h.faults, faultsOf_append, List.reverse_append, List.append_assoc]

theorem Took.length_faults (h : r.Took name p next items) :
    next.faults.length = p.faults.length + (r.faultsOf name items).length := by
  rw [h.faults, List.length_append, List.length_reverse, Nat.add_comm]

theorem exists_took_takeFault (hpolicy : r.policy = .collect)
    (hfaults : p.faults.length + (r.faultsOf name [item]).length < r.limits.faults)
    (hitem : r.reading name item = .error d) :
    ∃ next, r.takeFault p d = .ok next ∧ r.Took name p next [item] := by
  have hone : r.faultsOf name [item] = [d] := by simp [faultsOf, hitem]
  rw [hone, List.length_singleton] at hfaults
  refine ⟨{ p with faults := d :: p.faults, notes := .fault d :: p.notes }, ?_, ?_, ?_⟩
  · rw [takeFault, hpolicy]
    exact if_neg (Nat.not_le.mpr hfaults)
  · simp [statementsOf, hitem]
  · simp [hone]

theorem exists_took_addLine (hpolicy : r.policy = .collect)
    (hbytes : l.text.utf8ByteSize ≤ r.limits.lineBytes)
    (hfaults : p.faults.length + (r.faultsOf name [.ok l]).length < r.limits.faults) :
    ∃ next, r.addLine name p l = .ok next ∧ r.Took name p next [.ok l] := by
  have hvalue : (r.notedLine l.text).value = r.line l.text := rfl
  simp only [addLine, if_neg (Nat.not_lt.mpr hbytes), hvalue]
  cases hline : r.line l.text with
  | error fault =>
    obtain ⟨next, htake, htook⟩ := exists_took_takeFault hpolicy hfaults (reading_of_error hline)
      (p := { p with
        lines := p.lines + 1
        notes := (r.notedLine l.text).notes.reverse ++ p.notes })
    exact ⟨next, htake, htook.statements, htook.faults⟩
  | ok node? =>
    have hitem : r.reading name (.ok l) = .ok (node?.map fun node => ⟨name, l.number, node⟩) :=
      reading_of_ok hline
    cases node? <;> exact ⟨_, rfl, by simp [statementsOf, hitem], by simp [faultsOf, hitem]⟩

theorem exists_took_addLines (hpolicy : r.policy = .collect)
    (hbytes : ∀ l ∈ lines, l.text.utf8ByteSize ≤ r.limits.lineBytes)
    (hfaults : p.faults.length + (r.faultsOf name (lines.map .ok)).length < r.limits.faults) :
    ∃ next, r.addLines name p lines = .ok next ∧ r.Took name p next (lines.map .ok) := by
  induction lines generalizing p with
  | nil => exact ⟨p, rfl, rfl, rfl⟩
  | cons l lines ih =>
    rw [List.forall_mem_cons] at hbytes
    rw [List.map_cons, ← List.singleton_append, faultsOf_append, List.length_append,
      ← Nat.add_assoc] at hfaults
    obtain ⟨next, hadd, htook⟩ := exists_took_addLine hpolicy hbytes.1
      (Nat.lt_of_le_of_lt (Nat.le_add_right ..) hfaults)
    rw [← htook.length_faults] at hfaults
    obtain ⟨last, hadds, htooks⟩ := ih hbytes.2 hfaults
    refine ⟨last, ?_, htook.append htooks⟩
    rw [addLines, hadd]
    exact hadds

theorem exists_took_addEnd {fault? : Option Fault} (hpolicy : r.policy = .collect)
    (hfaults : p.faults.length + (r.faultsOf name (fault?.toList.map .error)).length <
      r.limits.faults) :
    ∃ next, r.addEnd name p fault? = .ok next ∧
      r.Took name p next (fault?.toList.map .error) := by
  rcases fault? with _ | fault
  · exact ⟨p, rfl, rfl, rfl⟩
  · cases fault <;> exact exists_took_takeFault hpolicy hfaults rfl

end

/-! ## Files -/

/-- The reader collects faults, and does not come upon a limit in the file. -/
structure Within (r : Reader) (bytes : List UInt8) : Prop where
  policy : r.policy = .collect
  source : bytes.length ≤ r.limits.sourceBytes
  lines : ∀ l ∈ (logicalLines bytes).lines, l.text.utf8ByteSize ≤ r.limits.lineBytes
  faults : r.failures (logicalLines bytes) < r.limits.faults

variable {bytes : List UInt8}

theorem Within.part {part : List UInt8} (h : r.Within bytes) (hsource : part.length ≤ bytes.length)
    (hfaults : r.failures (logicalLines part) ≤ r.failures (logicalLines bytes))
    (hlines : ∀ l ∈ (logicalLines part).lines,
      ∃ l' ∈ (logicalLines bytes).lines, l'.text = l.text) : r.Within part where
  policy := h.policy
  source := Nat.le_trans hsource h.source
  lines l hl := by
    obtain ⟨l', hl', htext⟩ := hlines l hl
    exact htext ▸ h.lines l' hl'
  faults := Nat.lt_of_le_of_lt hfaults h.faults

theorem exists_took_file (name : String) (h : r.Within bytes) :
    ∃ last, r.file name bytes = last.outcome name ∧
      r.Took name {} last (logicalLines bytes).items := by
  have hfaults := h.faults
  rw [← length_faultsOf name, LineSplit.items, faultsOf_append, List.length_append] at hfaults
  have hlines : ([] : List Diagnostic).length +
      (r.faultsOf name ((logicalLines bytes).lines.map .ok)).length < r.limits.faults := by
    rw [List.length_nil]
    omega
  obtain ⟨next, hadds, htooks⟩ := exists_took_addLines (p := {}) h.policy h.lines hlines
  have hnext : next.faults.length =
      (r.faultsOf name ((logicalLines bytes).lines.map .ok)).length := by
    simpa using htooks.length_faults
  rw [← hnext] at hfaults
  obtain ⟨last, hend, htook⟩ := exists_took_addEnd h.policy hfaults
  refine ⟨last, ?_, htooks.append htook⟩
  rw [file, notedFile, if_neg (Nat.not_lt.mpr h.source)]
  simp only [hadds, hend, bind, Except.bind]

/-- The diagnostics of a file that was not read. -/
def diagnosticsOf : Except Diagnostic SourceFile → List Diagnostic
  | .ok _ => []
  | .error d => d.toList

theorem toList_of_mem_faultsOf {items : List (Except Fault Line)} {d : Diagnostic}
    (h : d ∈ r.faultsOf name items) : d.toList = [d] := by
  obtain ⟨fault, position, rfl⟩ := located_of_mem_faultsOf h
  rfl

/-- A file is read if none of its lines is at fault, and the faults of all of them are reported
otherwise. -/
theorem file_of_within (name : String) (h : r.Within bytes) :
    diagnosticsOf (r.file name bytes) = r.faultsOf name (logicalLines bytes).items ∧
      ∀ f, r.file name bytes = .ok f ↔ r.faultsOf name (logicalLines bytes).items = [] ∧
        f = ⟨name, r.statementsOf name (logicalLines bytes).items⟩ := by
  obtain ⟨last, hfile, htook⟩ := exists_took_file name h
  have hstatements := htook.statements
  have hds := htook.faults
  rw [List.append_nil] at hstatements hds
  have hsingle : ∀ d ∈ last.faults, d.toList = [d] := fun d hd =>
    toList_of_mem_faultsOf (List.mem_reverse.mp (hds ▸ hd))
  rw [hfile, Progress.outcome, ← List.reverse_eq_iff.mpr hds,
    ← List.reverse_eq_iff.mpr hstatements]
  rcases hlast : last.faults with _ | ⟨d, _ | ⟨d', ds⟩⟩
  · simp [diagnosticsOf, eq_comm]
  · rw [hlast] at hsingle
    simpa [diagnosticsOf] using hsingle
  · simp [diagnosticsOf, Diagnostic.toList]

/-! ## One file after another -/

section

variable {item : Except Fault Line} {items : List (Except Fault Line)}

theorem faultInFile_later (l : Line) (fault : Fault) :
    faultInFile (l.later k) fault = (faultInFile l fault).later k := by
  cases fault <;> rfl

theorem reading_later (hitem : ∀ fault, item = .error fault → ∃ line, fault = .unterminated line) :
    r.reading name (itemLater k item) =
      ((r.reading name item).map (Option.map (Statement.later k))).mapError
        (Diagnostic.later k) := by
  rcases item with fault | l
  · obtain ⟨line, rfl⟩ := hitem fault rfl
    exact congrArg Except.error (Fault.locate_later (.unterminated line) line)
  · show r.reading name (.ok (l.later k)) = _
    cases hline : r.line l.text with
    | error fault =>
      rw [reading_of_error hline, reading_of_error (l := l.later k) hline, faultInFile_later]
      exact congrArg Except.error (Fault.locate_later ..)
    | ok node? =>
      rw [reading_of_ok hline, reading_of_ok (l := l.later k) hline]
      cases node? <;> rfl

variable (hitems : ∀ fault, .error fault ∈ items → ∃ line, fault = .unterminated line)

include hitems

theorem statementsOf_later :
    r.statementsOf name (items.map (itemLater k)) =
      (r.statementsOf name items).map (Statement.later k) := by
  rw [statementsOf, statementsOf, List.filterMap_map, List.map_filterMap]
  refine List.filterMap_congr fun item hitem => ?_
  rw [Function.comp_apply, reading_later fun fault heq => hitems fault (heq ▸ hitem)]
  cases r.reading name item <;> rfl

theorem faultsOf_later :
    r.faultsOf name (items.map (itemLater k)) =
      (r.faultsOf name items).map (Diagnostic.later k) := by
  rw [faultsOf, faultsOf, List.filterMap_map, List.map_filterMap]
  refine List.filterMap_congr fun item hitem => ?_
  rw [Function.comp_apply, reading_later fun fault heq => hitems fault (heq ▸ hitem)]
  cases r.reading name item <;> rfl

end

section

variable {a b : List UInt8}
  (happend : (logicalLines (a ++ b)).items =
    (logicalLines a).items ++ (logicalLines b).items.map (itemLater k))

include happend

theorem failures_append :
    r.failures (logicalLines (a ++ b)) =
      r.failures (logicalLines a) + r.failures (logicalLines b) := by
  have hlengths := congrArg (fun items => (r.faultsOf "" items).length) happend
  simpa only [faultsOf_append, faultsOf_later exists_unterminated_of_mem, List.length_append,
    List.length_map, length_faultsOf] using hlengths

theorem Within.left (h : r.Within (a ++ b)) : r.Within a := by
  refine h.part (by simp) (by simp [failures_append happend]) fun l hl => ?_
  refine ⟨l, ok_mem_items_iff.mp ?_, rfl⟩
  rw [happend]
  exact List.mem_append_left _ (ok_mem_items_iff.mpr hl)

theorem Within.right (h : r.Within (a ++ b)) : r.Within b := by
  refine h.part (by simp) (by simp [failures_append happend]) fun l hl => ?_
  refine ⟨l.later k, ok_mem_items_iff.mp ?_, rfl⟩
  rw [happend]
  exact List.mem_append_right _ (List.mem_map_of_mem (ok_mem_items_iff.mpr hl))

end

/-- Where line numbers do not reach beyond 32 bits in two files together, none of those of the
second does when it is counted on. -/
theorem toNat_add_itemNumber {a b : List UInt8} {item : Except Fault Line}
    (hbreaks : (a ++ b).count 10 < UInt32.size - 1) (hitem : item ∈ (logicalLines b).items) :
    (UInt32.ofNat (a.count 10) + itemNumber item).toNat =
      a.count 10 + (itemNumber item).toNat := by
  obtain ⟨lines, hlines, -, hle⟩ := items_ascending b
  obtain ⟨line, hline, hnumber⟩ := List.mem_map.mp (hlines ▸ List.mem_map_of_mem hitem)
  rw [List.count_append] at hbreaks
  have hlast := hle line hline
  have hsum : a.count 10 + line ≤ 1 + (a.count 10 + b.count 10) := by omega
  rw [← hnumber, ← UInt32.ofNat_add, toNat_ofNat_line hlast (by omega),
    toNat_ofNat_line hsum hbreaks]

/-- After a file that ends with a line break and not inside a string, another file is read as on its
own, only further down: line by line, and under a reader that collects faults and does not come upon
a limit also in what it is read to. Line numbers are added in 32 bits, which is exact as long as
both files together have few enough lines. -/
theorem file_append {a b : List UInt8} (ha : a = [] ∨ a.getLast? = some 10)
    (hclosed : (logicalLines a).fault? = none) :
    (logicalLines (a ++ b)).items =
        (logicalLines a).items ++
          (logicalLines b).items.map (itemLater (UInt32.ofNat (a.count 10))) ∧
      ((a ++ b).count 10 < UInt32.size - 1 → ∀ item ∈ (logicalLines b).items,
        (UInt32.ofNat (a.count 10) + itemNumber item).toNat =
          a.count 10 + (itemNumber item).toNat) ∧
      ∀ (r : Reader) (name : String), r.Within (a ++ b) →
        (∀ f, r.file name (a ++ b) = .ok f ↔
            ∃ fa fb, r.file name a = .ok fa ∧ r.file name b = .ok fb ∧
              f = ⟨name, fa.statements ++
                fb.statements.map (Statement.later (UInt32.ofNat (a.count 10)))⟩) ∧
          diagnosticsOf (r.file name (a ++ b)) =
            diagnosticsOf (r.file name a) ++
              (diagnosticsOf (r.file name b)).map
                (Diagnostic.later (UInt32.ofNat (a.count 10))) := by
  have hitems := items_append (b := b) ha hclosed
  refine ⟨hitems, fun hbreaks item => toNat_add_itemNumber hbreaks, fun r name hwithin => ?_⟩
  obtain ⟨hds, hok⟩ := file_of_within name hwithin
  obtain ⟨hdsA, hokA⟩ := file_of_within name (hwithin.left hitems)
  obtain ⟨hdsB, hokB⟩ := file_of_within name (hwithin.right hitems)
  rw [hitems, faultsOf_append, faultsOf_later exists_unterminated_of_mem] at hds hok
  rw [statementsOf_append, statementsOf_later exists_unterminated_of_mem] at hok
  refine ⟨fun f => ?_, by rw [hds, hdsA, hdsB]⟩
  rw [hok]
  constructor
  · rintro ⟨hnone, rfl⟩
    rw [List.append_eq_nil_iff, List.map_eq_nil_iff] at hnone
    exact ⟨_, _, (hokA _).mpr ⟨hnone.1, rfl⟩, (hokB _).mpr ⟨hnone.2, rfl⟩, rfl⟩
  · rintro ⟨fa, fb, hfa, hfb, rfl⟩
    obtain ⟨hnoneA, rfl⟩ := (hokA _).mp hfa
    obtain ⟨hnoneB, rfl⟩ := (hokB _).mp hfb
    rw [hnoneA, hnoneB]
    exact ⟨rfl, rfl⟩

/-- A string that is left open on the first line of the second file is on the second line of both
together. -/
theorem file_append_open :
    (logicalLines [32, 97, 10]).fault? = none ∧ Within {} [32, 97, 10, 32, 39, 120] ∧
      diagnosticsOf (file {} "f" [32, 97, 10, 32, 39, 120]) =
        diagnosticsOf (file {} "f" [32, 97, 10]) ++ [.located (.unterminated 2) "f" ⟨2, 0, 0⟩] := by
  have hclosed : (logicalLines [32, 97, 10]).fault? = none := by decide
  have hlength : (logicalLines [32, 97, 10, 32, 39, 120]).lines.length + 1 < 64 := by decide
  have hwithin : Within {} [32, 97, 10, 32, 39, 120] :=
    ⟨rfl, by decide, by decide,
      Nat.lt_of_le_of_lt (Nat.add_le_add_right List.countP_le_length _) hlength⟩
  exact ⟨hclosed, hwithin,
    ((file_append (b := [32, 39, 120]) (.inr (by decide)) hclosed).2.2 {} "f" hwithin).2⟩

end Reader

end MacroAsm

import MacroAsm.Proofs.Reader.Policy

/-!
# A file is what its lines come to

Within the limits on bytes, what a file is read to depends on nothing but what each of its lines,
and the fault at its end, comes to (`Reader.file_eq_gather`): `Reader.gather` takes one of these
after the other, under either policy. A line with nothing in it changes nothing
(`Reader.gather_none`).
-/

namespace MacroAsm

namespace Reader

def Progress.bare (p : Progress) : Progress := { statements := p.statements, faults := p.faults }

/-- What a reading comes to so far but for its notes. -/
def bareOf : Except Halt Progress → Except Diagnostic Progress
  | .error halt => .error halt.diagnostic
  | .ok p => .ok p.bare

/-- Takes what one line comes to. -/
def gather (r : Reader) (p : Progress) :
    Except Diagnostic (Option Statement) → Except Diagnostic Progress
  | .ok statement? => .ok { p with statements := statement?.toList ++ p.statements }
  | .error d => bareOf (r.takeFault p d)

variable {r : Reader} {name : String} {p : Progress} {l : Line} {d : Diagnostic}

theorem bareOf_takeFault_bare : bareOf (r.takeFault p.bare d) = bareOf (r.takeFault p d) := by
  unfold takeFault
  cases r.policy with
  | failFast => rfl
  | collect =>
    show bareOf (if r.limits.faults ≤ (d :: p.faults).length then _ else _) =
      bareOf (if r.limits.faults ≤ (d :: p.faults).length then _ else _)
    split <;> rfl

theorem gather_none : r.gather p (.ok none) = .ok p := rfl

theorem bareOf_addLine (hbytes : l.text.utf8ByteSize ≤ r.limits.lineBytes) :
    bareOf (r.addLine name p l) = r.gather p.bare (r.reading name (.ok l)) := by
  have hvalue : (r.notedLine l.text).value = r.line l.text := rfl
  simp only [addLine, if_neg (Nat.not_lt.mpr hbytes), hvalue]
  cases hline : r.line l.text with
  | ok node? =>
    rw [reading_of_ok hline]
    cases node? <;> rfl
  | error fault =>
    rw [reading_of_error hline]
    show bareOf (r.takeFault _ _) = bareOf (r.takeFault p.bare _)
    rw [← bareOf_takeFault_bare]
    rfl

theorem bareOf_addLines {lines : List Line}
    (hbytes : ∀ l ∈ lines, l.text.utf8ByteSize ≤ r.limits.lineBytes) :
    bareOf (r.addLines name p lines) =
      (lines.map fun l => r.reading name (.ok l)).foldlM r.gather p.bare := by
  induction lines generalizing p with
  | nil => rfl
  | cons l lines ih =>
    rw [List.forall_mem_cons] at hbytes
    rw [addLines, List.map_cons, List.foldlM_cons, ← bareOf_addLine hbytes.1]
    cases r.addLine name p l with
    | error halt => rfl
    | ok next => exact ih hbytes.2

theorem bareOf_addEnd {fault? : Option Fault} :
    bareOf (r.addEnd name p fault?) =
      (fault?.toList.map fun fault => r.reading name (.error fault)).foldlM r.gather p.bare := by
  rcases fault? with _ | fault
  · rfl
  · have hone : ∀ d, r.reading name (.error fault) = .error d → bareOf (r.takeFault p d) =
        [r.reading name (.error fault)].foldlM r.gather p.bare := by
      intro d hd
      rw [hd, List.foldlM_cons, gather, bareOf_takeFault_bare]
      cases bareOf (r.takeFault p d) <;> rfl
    cases fault <;> exact hone _ rfl

theorem bareOf_readAll {bytes : List UInt8}
    (hlines : ∀ l ∈ (logicalLines bytes).lines, l.text.utf8ByteSize ≤ r.limits.lineBytes) :
    bareOf (r.readAll name bytes) =
      ((logicalLines bytes).items.map (r.reading name)).foldlM r.gather {} := by
  have hadds : bareOf (r.addLines name {} (logicalLines bytes).lines) =
      ((logicalLines bytes).lines.map fun l => r.reading name (.ok l)).foldlM r.gather {} :=
    bareOf_addLines hlines
  have hmap : (logicalLines bytes).items.map (r.reading name) =
      ((logicalLines bytes).lines.map fun l => r.reading name (.ok l)) ++
        (logicalLines bytes).fault?.toList.map fun fault => r.reading name (.error fault) := by
    rw [LineSplit.items, List.map_append, List.map_map, List.map_map]
    rfl
  rw [hmap, List.foldlM_append, ← hadds, readAll]
  cases r.addLines name {} (logicalLines bytes).lines with
  | error halt => rfl
  | ok next => exact bareOf_addEnd

/-- A file within the limits on bytes is read to what is gathered from its lines. -/
theorem file_eq_gather {bytes : List UInt8} (name : String)
    (hsource : bytes.length ≤ r.limits.sourceBytes)
    (hlines : ∀ l ∈ (logicalLines bytes).lines, l.text.utf8ByteSize ≤ r.limits.lineBytes) :
    r.file name bytes =
      ((logicalLines bytes).items.map (r.reading name)).foldlM r.gather {} >>=
        (Progress.outcome · name) := by
  rw [file_eq_of_source r name (Nat.not_lt.mpr hsource), ← bareOf_readAll hlines]
  cases r.readAll name bytes <;> rfl

end Reader

end MacroAsm

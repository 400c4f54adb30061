import MacroAsm.Proofs.Reader.Collect

/-!
# The two policies for faults

`Reader.file_policies`: whatever the limits are, a file is read under `failFast` just if it is read
under `collect`, to the same statements, and what ends the one reading comes first in the other,
unless more faults or a longer line make that one give up.

Both readings are the same until a line is at fault (`Reader.Agree`). There `failFast` ends, and
`collect` keeps the fault in front of all that it collects (`Reader.KeepsFirst`).
-/

namespace MacroAsm

namespace Reader

def under (r : Reader) (policy : Policy) : Reader := { r with policy }

/-- The first fault that was collected is `d`, or there was a limit after it. -/
def KeepsFirst (r : Reader) (d : Diagnostic) : Except Halt Progress → Prop
  | .ok p => p.faults.getLast? = some d
  | .error halt => halt.diagnostic = .limitExceeded "errors" r.limits.faults ∨
      halt.diagnostic = .limitExceeded "line bytes" r.limits.lineBytes

/-- How a reading under `failFast` and one under `collect` stand to each other: both have come upon
no fault, or upon the same limit before any fault, or the first one ended at a fault. -/
inductive Agree (r : Reader) (name : String) : Except Halt Progress → Except Halt Progress → Prop
  | read {p} (h : p.faults = []) : Agree r name (.ok p) (.ok p)
  | limit {resource limit notes} : Agree r name (.error ⟨.limitExceeded resource limit, notes⟩)
      (.error ⟨.limitExceeded resource limit, notes⟩)
  | fault {fault position notes result} (h : r.KeepsFirst (.located fault name position) result) :
      Agree r name (.error ⟨.located fault name position, notes⟩) result

variable {r : Reader} {name : String} {p : Progress} {l : Line} {lines : List Line}
  {d d' : Diagnostic} {fault? : Option Fault}

/-! ## After a fault -/

theorem keepsFirst_takeFault (h : (d' :: p.faults).getLast? = some d) :
    r.KeepsFirst d ((r.under .collect).takeFault p d') := by
  show r.KeepsFirst d (if r.limits.faults ≤ (d' :: p.faults).length then
    .error ⟨.limitExceeded "errors" r.limits.faults, .fault d' :: p.notes⟩ else
    .ok { p with faults := d' :: p.faults, notes := .fault d' :: p.notes })
  split
  · exact .inl rfl
  · exact h

theorem getLast?_cons_faults (h : p.faults.getLast? = some d) :
    (d' :: p.faults).getLast? = some d := by
  rw [List.getLast?_cons, h]
  rfl

theorem keepsFirst_addLine (h : p.faults.getLast? = some d) :
    r.KeepsFirst d ((r.under .collect).addLine name p l) := by
  simp only [addLine]
  split
  · exact .inr rfl
  · split
    · exact h
    · exact h
    · exact keepsFirst_takeFault (getLast?_cons_faults h)

theorem keepsFirst_addLines (h : p.faults.getLast? = some d) :
    r.KeepsFirst d ((r.under .collect).addLines name p lines) := by
  induction lines generalizing p with
  | nil => exact h
  | cons l lines ih =>
    have hline : r.KeepsFirst d ((r.under .collect).addLine name p l) := keepsFirst_addLine h
    rw [addLines]
    cases hadd : (r.under .collect).addLine name p l with
    | error halt =>
      rw [hadd] at hline
      exact hline
    | ok next =>
      rw [hadd] at hline
      exact ih hline

theorem keepsFirst_addEnd (h : p.faults.getLast? = some d) :
    r.KeepsFirst d ((r.under .collect).addEnd name p fault?) := by
  rcases fault? with _ | fault
  · exact h
  · cases fault <;> exact keepsFirst_takeFault (getLast?_cons_faults h)

/-! ## Step by step -/

theorem agree_takeFault (fault : Fault) (line : UInt32) (h : p.faults = []) :
    Agree r name ((r.under .failFast).takeFault p (fault.locate name line))
      ((r.under .collect).takeFault p (fault.locate name line)) := by
  obtain ⟨position, hlocate, -⟩ := fault.exists_locate name line
  rw [hlocate]
  refine .fault (keepsFirst_takeFault ?_)
  rw [h]
  rfl

theorem agree_addLine (h : p.faults = []) :
    Agree r name ((r.under .failFast).addLine name p l) ((r.under .collect).addLine name p l) := by
  have hlimits : ∀ policy, (r.under policy).limits = r.limits := fun _ => rfl
  have hnoted : ∀ policy, (r.under policy).notedLine l.text = r.notedLine l.text := fun _ => rfl
  simp only [addLine, hlimits, hnoted]
  by_cases hbytes : r.limits.lineBytes < l.text.utf8ByteSize
  · rw [if_pos hbytes, if_pos hbytes]
    exact .limit
  · rw [if_neg hbytes, if_neg hbytes]
    cases (r.notedLine l.text).value with
    | error fault => exact agree_takeFault _ _ h
    | ok node? => cases node? <;> exact .read h

theorem agree_addLines (h : p.faults = []) :
    Agree r name ((r.under .failFast).addLines name p lines)
      ((r.under .collect).addLines name p lines) := by
  induction lines generalizing p with
  | nil => exact .read h
  | cons l lines ih =>
    have hline : Agree r name ((r.under .failFast).addLine name p l)
      ((r.under .collect).addLine name p l) := agree_addLine h
    rw [addLines, addLines]
    generalize (r.under .failFast).addLine name p l = eager,
      (r.under .collect).addLine name p l = patient at hline
    cases hline with
    | read hnext => exact ih hnext
    | limit => exact .limit
    | fault hfirst =>
      cases patient with
      | error halt => exact .fault hfirst
      | ok next => exact .fault (keepsFirst_addLines hfirst)

theorem agree_addEnd (h : p.faults = []) :
    Agree r name ((r.under .failFast).addEnd name p fault?)
      ((r.under .collect).addEnd name p fault?) := by
  rcases fault? with _ | fault
  · exact .read h
  · cases fault <;> exact agree_takeFault _ _ h

/-! ## Files -/

def readAll (r : Reader) (name : String) (bytes : List UInt8) : Except Halt Progress :=
  r.addLines name {} (logicalLines bytes).lines >>=
    (r.addEnd name · (logicalLines bytes).fault?)

theorem agree_readAll (r : Reader) (name : String) (bytes : List UInt8) :
    Agree r name ((r.under .failFast).readAll name bytes)
      ((r.under .collect).readAll name bytes) := by
  have hlines : Agree r name ((r.under .failFast).addLines name {} (logicalLines bytes).lines)
    ((r.under .collect).addLines name {} (logicalLines bytes).lines) := agree_addLines rfl
  rw [readAll, readAll]
  generalize (r.under .failFast).addLines name {} (logicalLines bytes).lines = eager,
    (r.under .collect).addLines name {} (logicalLines bytes).lines = patient at hlines
  cases hlines with
  | read hnext => exact agree_addEnd hnext
  | limit => exact .limit
  | fault hfirst =>
    cases patient with
    | error halt => exact .fault hfirst
    | ok next => exact .fault (keepsFirst_addEnd hfirst)

def resultOf (name : String) : Except Halt Progress → Except Diagnostic SourceFile
  | .error halt => .error halt.diagnostic
  | .ok p => p.outcome name

theorem file_eq_of_source (r : Reader) (name : String) {bytes : List UInt8}
    (hsource : ¬ r.limits.sourceBytes < bytes.length) :
    r.file name bytes = resultOf name (r.readAll name bytes) := by
  rw [file, notedFile, if_neg hsource]
  show Noted.value (match r.readAll name bytes with | .error _ => _ | .ok _ => _) = _
  cases r.readAll name bytes <;> rfl

theorem outcome_of_getLast? (name : String) (h : p.faults.getLast? = some d) :
    p.outcome name = .error d ∨ ∃ ds, p.outcome name = .error (.several (d :: ds)) := by
  rw [Progress.outcome]
  obtain ⟨ds, hds⟩ := List.getLast?_eq_some_iff.mp h
  rw [hds]
  rcases ds with _ | ⟨d', _ | ⟨d'', ds⟩⟩
  · exact .inl rfl
  · exact .inr ⟨[d'], rfl⟩
  · exact .inr ⟨(d' :: d'' :: ds).reverse, by simp⟩

theorem resultOf_of_keepsFirst {result : Except Halt Progress} (name : String)
    (h : r.KeepsFirst d result) :
    resultOf name result = .error d ∨
      (∃ ds, resultOf name result = .error (.several (d :: ds))) ∨
      resultOf name result = .error (.limitExceeded "errors" r.limits.faults) ∨
      resultOf name result = .error (.limitExceeded "line bytes" r.limits.lineBytes) := by
  cases result with
  | ok p => exact (outcome_of_getLast? name h).imp_right .inl
  | error halt =>
    rcases h with h | h
    · exact .inr (.inr (.inl (congrArg Except.error h)))
    · exact .inr (.inr (.inr (congrArg Except.error h)))

/-- A file is read under `failFast` just if it is read under `collect`, with the same result. If
`failFast` comes upon a limit, so does `collect`. If it comes upon a fault, that is the first fault
which `collect` reports, unless there are too many or a line after it is too long. -/
theorem file_policies (r : Reader) (name : String) (bytes : List UInt8) :
    (∀ f, (r.under .failFast).file name bytes = .ok f ↔
        (r.under .collect).file name bytes = .ok f) ∧
      ∀ d, (r.under .failFast).file name bytes = .error d →
        (∃ resource limit, d = .limitExceeded resource limit ∧
            (r.under .collect).file name bytes = .error d) ∨
          ∃ fault position, d = .located fault name position ∧
            ((r.under .collect).file name bytes = .error d ∨
              (∃ ds, (r.under .collect).file name bytes = .error (.several (d :: ds))) ∨
              (r.under .collect).file name bytes =
                .error (.limitExceeded "errors" r.limits.faults) ∨
              (r.under .collect).file name bytes =
                .error (.limitExceeded "line bytes" r.limits.lineBytes)) := by
  by_cases hsource : r.limits.sourceBytes < bytes.length
  · have hfile : ∀ policy, (r.under policy).file name bytes =
        .error (.limitExceeded "source bytes" r.limits.sourceBytes) := fun _ =>
      congrArg Noted.value (if_pos hsource)
    rw [hfile, hfile]
    refine ⟨by simp, ?_⟩
    rintro _ ⟨⟩
    exact .inl ⟨_, _, rfl, rfl⟩
  · have hfile : ∀ policy, (r.under policy).file name bytes =
        resultOf name ((r.under policy).readAll name bytes) := fun policy =>
      file_eq_of_source (r.under policy) name hsource
    have hagree := agree_readAll r name bytes
    rw [hfile, hfile]
    generalize (r.under .failFast).readAll name bytes = eager,
      (r.under .collect).readAll name bytes = patient at hagree
    cases hagree with
    | @read p h =>
      refine ⟨fun f => Iff.rfl, fun d hd => ?_⟩
      simp [resultOf, Progress.outcome, h] at hd
    | limit =>
      refine ⟨fun f => Iff.rfl, ?_⟩
      rintro _ ⟨⟩
      exact .inl ⟨_, _, rfl, rfl⟩
    | @fault fault position _ _ h =>
      have hresult := resultOf_of_keepsFirst name h
      refine ⟨fun f => iff_of_false (by rintro ⟨⟩) ?_, ?_⟩
      · rcases hresult with h | ⟨ds, h⟩ | h | h <;> simp [h]
      · rintro _ ⟨⟩
        exact .inr ⟨fault, position, rfl, hresult⟩

end Reader

end MacroAsm

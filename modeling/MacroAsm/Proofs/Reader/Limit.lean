import MacroAsm.Proofs.Reader.Gather

/-!
# The limit on faults

`Reader.file_faultLimit`: within its limits on bytes, a reader that collects faults gives up just if
there are as many as its limit says. With fewer it reports all of them. So the limit is one that
faults must stay below, not one that they must exceed: the two differ where there are exactly as
many.

What is gathered from the lines of a file ends at the fault that makes the limit full
(`foldlM_gather_of_full`), wherever the lines at fault are.
-/

namespace MacroAsm

namespace Reader

variable {r : Reader} {name : String} {p : Progress} {d : Diagnostic} {item : Except Fault Line}
  {items : List (Except Fault Line)} {bytes : List UInt8}

theorem faultsOf_cons_ok {statement? : Option Statement}
    (h : r.reading name item = .ok statement?) :
    r.faultsOf name (item :: items) = r.faultsOf name items := by
  simp [faultsOf, h]

theorem faultsOf_cons_error (h : r.reading name item = .error d) :
    r.faultsOf name (item :: items) = d :: r.faultsOf name items := by
  simp [faultsOf, h]

theorem gather_error (hpolicy : r.policy = .collect) :
    r.gather p (.error d) =
      if r.limits.faults ≤ p.faults.length + 1 then
        .error (.limitExceeded "errors" r.limits.faults)
      else .ok { statements := p.statements, faults := d :: p.faults } := by
  simp only [gather, takeFault, hpolicy, List.length_cons]
  split <;> rfl

/-- The fault that fills the limit ends the reading. -/
theorem foldlM_gather_of_full (hpolicy : r.policy = .collect)
    (hp : p.faults.length < r.limits.faults)
    (hfull : r.limits.faults ≤ p.faults.length + (r.faultsOf name items).length) :
    (items.map (r.reading name)).foldlM r.gather p =
      .error (.limitExceeded "errors" r.limits.faults) := by
  induction items generalizing p with
  | nil => exact absurd hfull (Nat.not_le.mpr hp)
  | cons item items ih =>
    rw [List.map_cons, List.foldlM_cons]
    cases hitem : r.reading name item with
    | ok statement? =>
      rw [faultsOf_cons_ok hitem] at hfull
      exact ih (p := { p with statements := statement?.toList ++ p.statements }) hp hfull
    | error d =>
      rw [faultsOf_cons_error hitem, List.length_cons] at hfull
      rw [gather_error hpolicy]
      by_cases hlast : r.limits.faults ≤ p.faults.length + 1
      · rw [if_pos hlast]
        rfl
      · rw [if_neg hlast]
        refine ih (p := { statements := p.statements, faults := d :: p.faults }) ?_ ?_
        · exact Nat.not_le.mp hlast
        · rw [List.length_cons]
          omega

section

variable (hpolicy : r.policy = .collect) (hsource : bytes.length ≤ r.limits.sourceBytes)
  (hlines : ∀ l ∈ (logicalLines bytes).lines, l.text.utf8ByteSize ≤ r.limits.lineBytes)

include hpolicy hsource hlines

theorem file_of_full (name : String) (hlimit : 1 ≤ r.limits.faults)
    (hfull : r.limits.faults ≤ r.failures (logicalLines bytes)) :
    r.file name bytes = .error (.limitExceeded "errors" r.limits.faults) := by
  rw [← length_faultsOf name] at hfull
  have hgather : ((logicalLines bytes).items.map (r.reading name)).foldlM r.gather {} =
      .error (.limitExceeded "errors" r.limits.faults) :=
    foldlM_gather_of_full (p := {}) hpolicy hlimit (by simpa using hfull)
  rw [file_eq_gather name hsource hlines, hgather]
  rfl

theorem diagnosticsOf_file (name : String)
    (hfaults : r.failures (logicalLines bytes) < r.limits.faults) :
    diagnosticsOf (r.file name bytes) = r.faultsOf name (logicalLines bytes).items :=
  (file_of_within name ⟨hpolicy, hsource, hlines, hfaults⟩).1

theorem file_ne_limit (name : String)
    (hfaults : r.failures (logicalLines bytes) < r.limits.faults) :
    r.file name bytes ≠ .error (.limitExceeded "errors" r.limits.faults) := by
  intro hfile
  have hds := diagnosticsOf_file hpolicy hsource hlines name hfaults
  rw [hfile] at hds
  have hmem : Diagnostic.limitExceeded "errors" r.limits.faults ∈
      r.faultsOf name (logicalLines bytes).items := by
    rw [← hds]
    exact List.mem_singleton_self _
  obtain ⟨fault, position, hlocated⟩ := located_of_mem_faultsOf hmem
  cases hlocated

end

/-- The limit on faults is taken for one that must be exceeded: the reader gives up on a file only
if more of its lines are at fault than the limit says, and reports all faults otherwise. -/
structure GivesUpBeyond (r : Reader) (name : String) (bytes : List UInt8) : Prop where
  exceeded : r.file name bytes = .error (.limitExceeded "errors" r.limits.faults) →
    r.limits.faults < r.failures (logicalLines bytes)
  reported : 1 ≤ r.failures (logicalLines bytes) →
    r.failures (logicalLines bytes) ≤ r.limits.faults →
    diagnosticsOf (r.file name bytes) = r.faultsOf name (logicalLines bytes).items

/-- Within the limits on bytes, a reader that collects faults gives up on a file just if at least as
many of its lines are at fault, with the one that it ends in, as the limit on faults says. If there
are fewer, it reports all of their faults, each located in the file, one physical line after the
other. So the limit is one that must be exceeded just if there are not exactly as many. -/
theorem file_faultLimit (name : String) (hpolicy : r.policy = .collect)
    (hlimit : 1 ≤ r.limits.faults) (hsource : bytes.length ≤ r.limits.sourceBytes)
    (hlines : ∀ l ∈ (logicalLines bytes).lines, l.text.utf8ByteSize ≤ r.limits.lineBytes) :
    (r.file name bytes = .error (.limitExceeded "errors" r.limits.faults) ↔
        r.limits.faults ≤ r.failures (logicalLines bytes)) ∧
      (r.failures (logicalLines bytes) < r.limits.faults →
        diagnosticsOf (r.file name bytes) = r.faultsOf name (logicalLines bytes).items) ∧
      (r.faultsOf name (logicalLines bytes).items).length = r.failures (logicalLines bytes) ∧
      (∀ d ∈ r.faultsOf name (logicalLines bytes).items,
        ∃ fault position, d = .located fault name position) ∧
      Ascending (bytes.count 10)
        ((r.faultsOf name (logicalLines bytes).items).filterMap Diagnostic.line?) ∧
      (bytes.count 10 < UInt32.size - 1 →
        (r.faultsOf name (logicalLines bytes).items).Pairwise fun d later =>
          ∃ i j, d.line? = some i ∧ later.line? = some j ∧ i < j) ∧
      (r.GivesUpBeyond name bytes ↔ r.failures (logicalLines bytes) ≠ r.limits.faults) := by
  have hfull : r.file name bytes = .error (.limitExceeded "errors" r.limits.faults) ↔
      r.limits.faults ≤ r.failures (logicalLines bytes) := by
    refine ⟨fun hfile => ?_, file_of_full hpolicy hsource hlines name hlimit⟩
    by_contra hfaults
    exact file_ne_limit hpolicy hsource hlines name (Nat.not_le.mp hfaults) hfile
  have hall := diagnosticsOf_file hpolicy hsource hlines name
  refine ⟨hfull, hall, length_faultsOf name _, fun d => located_of_mem_faultsOf,
    ascending_faultsOf r name bytes, pairwise_faultsOf r name, fun hbeyond heq => ?_,
    fun hne => ⟨fun hfile => ?_, ?_⟩⟩
  · exact Nat.lt_irrefl _ (heq ▸ hbeyond.exceeded (hfull.mpr heq.ge))
  · exact lt_of_le_of_ne (hfull.mp hfile) hne.symm
  · exact fun _ hle => hall (lt_of_le_of_ne hle hne)

/-- Two lines and an open string at the end are at fault, which a limit of two does not allow. -/
theorem file_faultLimit_three :
    ({ limits := { faults := 2 } } : Reader).failures
        (logicalLines [32, 41, 10, 32, 41, 10, 32, 39, 120]) = 3 ∧
      file { limits := { faults := 2 } } "f" [32, 41, 10, 32, 41, 10, 32, 39, 120] =
        .error (.limitExceeded "errors" 2) ∧
      GivesUpBeyond { limits := { faults := 2 } } "f" [32, 41, 10, 32, 41, 10, 32, 39, 120] := by
  have hfaults : ({ limits := { faults := 2 } } : Reader).faultsOf "f"
      (logicalLines [32, 41, 10, 32, 41, 10, 32, 39, 120]).items =
        [.located (.strayParen 1) "f" ⟨1, 2, 1⟩, .located (.strayParen 1) "f" ⟨2, 2, 1⟩,
          .located (.unterminated 3) "f" ⟨3, 0, 0⟩] := by
    cbv
  have hfailures : ({ limits := { faults := 2 } } : Reader).failures
      (logicalLines [32, 41, 10, 32, 41, 10, 32, 39, 120]) = 3 := by
    rw [← length_faultsOf "f", hfaults]
    rfl
  have hpolicy : ({ limits := { faults := 2 } } : Reader).policy = .collect := rfl
  have hlines : ∀ l ∈ (logicalLines [32, 41, 10, 32, 41, 10, 32, 39, 120]).lines,
      l.text.utf8ByteSize ≤ ({ limits := { faults := 2 } } : Reader).limits.lineBytes := by decide
  obtain ⟨hfull, -, -, -, -, -, hbeyond⟩ :=
    file_faultLimit "f" hpolicy (by decide) (by decide) hlines
  rw [hfailures] at hfull hbeyond
  exact ⟨hfailures, hfull.mpr (by decide), hbeyond.mpr (by decide)⟩

/-- A single fault is as many as a limit of one says, and is not reported. -/
theorem file_fault_at_limit :
    ({ limits := { faults := 1 } } : Reader).failures (logicalLines [32, 41, 10]) = 1 ∧
      file { limits := { faults := 1 } } "f" [32, 41, 10] =
        .error (.limitExceeded "errors" 1) ∧
      ¬ GivesUpBeyond { limits := { faults := 1 } } "f" [32, 41, 10] := by
  have hfailures : ({ limits := { faults := 1 } } : Reader).failures
      (logicalLines [32, 41, 10]) = 1 := by
    cbv
  have hfile : file { limits := { faults := 1 } } "f" [32, 41, 10] =
      .error (.limitExceeded "errors" 1) := by
    cbv
  refine ⟨hfailures, hfile, fun hbeyond => ?_⟩
  have hexceeded := hbeyond.exceeded hfile
  rw [hfailures] at hexceeded
  exact Nat.lt_irrefl 1 hexceeded

end Reader

end MacroAsm

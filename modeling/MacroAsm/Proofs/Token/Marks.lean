import Mathlib.Data.List.Basic
import MacroAsm.Proofs.Scope.Form
import MacroAsm.Proofs.Token.Context

/-!
# The label mark of a line

`scan_marks`: the tokens of a line have one label mark at most, and a mark that is only implied
comes right after the first token.

A scan is a run over lexemes (`Scan.Scans`), and each lexeme keeps what the tokens so far have for
marks (`Scan.Marked`). An implied mark needs a name that starts at offset 0 right before it, and
only the first token can start there.
-/

namespace MacroAsm

namespace Scan

variable {offset : Nat} {done tokens : List Token} {cs : List Char} {t m : Token}

/-! ## Marks -/

/-- There is one `:` at most, an implied mark has one token before it, and only the first token
starts at offset 0. -/
structure Marked (offset : Nat) (done : List Token) : Prop where
  offset_pos : done ≠ [] → 0 < offset
  start_pos : ∀ later t earlier, done = later ++ t :: earlier → t.start = 0 → earlier = []
  label : (done.filter (·.kind = .label)).length ≤ 1
  implied : ∀ later t earlier, done = later ++ t :: earlier → t.kind = .impliedLabel →
    earlier.length = 1

theorem Marked.cons {next : Nat} (h : Marked offset done) (hstart : offset ≤ t.start)
    (hnext : offset < next) (hlabel : t.kind = .label → isLabelled done = false)
    (himplied : t.kind = .impliedLabel → done.length = 1) : Marked next (t :: done) where
  offset_pos := fun _ => by omega
  start_pos := by
    intro later u earlier heq hzero
    rcases later with _ | ⟨v, later⟩
    · cases heq
      by_contra hne
      have hpos := h.offset_pos hne
      omega
    · cases heq
      exact h.start_pos later u earlier rfl hzero
  label := by
    by_cases hkind : t.kind = .label
    · have hnone : done.filter (·.kind = .label) = [] := by
        have hfirst := hlabel hkind
        rw [isLabelled, List.any_eq_false] at hfirst
        rw [List.filter_eq_nil_iff]
        exact hfirst
      rw [List.filter_cons_of_pos (by simp [hkind]), hnone]
      exact Nat.le_refl _
    · rw [List.filter_cons_of_neg (by simp [hkind])]
      exact h.label
  implied := by
    intro later u earlier heq hkind
    rcases later with _ | ⟨v, later⟩
    · cases heq
      exact himplied hkind
    · cases heq
      exact h.implied later u earlier rfl hkind

theorem Marked.length_of_candidate (h : Marked offset done)
    (hcandidate : isLabelCandidate offset done = true) : done.length = 1 := by
  unfold isLabelCandidate at hcandidate
  split at hcandidate
  next stop earlier =>
    have hnil := h.start_pos [] _ earlier rfl rfl
    rw [hnil]
    rfl
  next => cases hcandidate

theorem Marked.addBlank {stop next : Nat} (h : Marked offset done) (hnext : offset < next) :
    Marked next (addBlank offset stop done) := by
  unfold Scan.addBlank
  by_cases hcandidate : isLabelCandidate offset done = true
  · rw [if_pos hcandidate]
    exact h.cons (Nat.le_refl _) hnext (by simp) fun _ => h.length_of_candidate hcandidate
  · rw [if_neg hcandidate]
    split
    · exact h.cons (Nat.le_refl _) hnext (by simp) (by simp)
    · exact ⟨fun _ => by omega, h.start_pos, h.label, h.implied⟩

theorem Marked.token {next : Nat} {rest : List Char} (h : Marked offset done)
    (hlexes : Lexes offset cs t next rest) (hallows : Allows done t) : Marked next (t :: done) :=
  h.cons hlexes.lies.start hlexes.lt hallows.label fun hkind => absurd hkind hlexes.kind_ne

theorem Scans.marked {stop : Nat} {last : List Token} {rest : List Char}
    (h : Scans offset done cs stop last rest) (hdone : Marked offset done) : Marked stop last := by
  induction h with
  | refl => exact hdone
  | @blank offset done c cs stop last rest hc h ih =>
    exact ih (hdone.addBlank (Nat.lt_add_of_pos_right c.utf8Size_pos))
  | token hlexes hallows h ih => exact ih (hdone.token hlexes hallows)

theorem marked_of_scanFrom (hscan : scanFrom 0 [] cs = .ok done) :
    ∃ offset, Marked offset done := by
  have hstart : Marked 0 [] := ⟨by simp, by simp, by simp, by simp⟩
  obtain ⟨stop, last, hscans, rfl⟩ := exists_scans hscan
  exact ⟨stop + 1, (hscans.marked hstart).addBlank (Nat.lt_succ_self stop)⟩

theorem Marked.label_unique {later earlier : List Token} (h : Marked offset done)
    (hdone : done = later ++ m :: earlier) (hm : m.kind = .label) :
    ∀ t ∈ later ++ earlier, t.kind ≠ .label := by
  intro t ht hkind
  have hone := h.label
  rw [hdone, List.filter_append, List.filter_cons_of_pos (by simp [hm]), List.length_append,
    List.length_cons] at hone
  have hmem : t ∈ later.filter (·.kind = .label) ++ earlier.filter (·.kind = .label) := by
    rw [← List.filter_append]
    exact List.mem_filter.mpr ⟨ht, by simp [hkind]⟩
  have hpos := List.length_pos_of_mem hmem
  rw [List.length_append] at hpos
  omega

theorem Marked.implied_unique {later earlier : List Token} (h : Marked offset done)
    (hdone : done = later ++ m :: earlier) (hm : m.kind = .impliedLabel) :
    ∀ t ∈ later ++ earlier, t.kind ≠ .impliedLabel := by
  intro t ht hkind
  have hone := h.implied later m earlier hdone hm
  rcases List.mem_append.mp ht with ht | ht
  · obtain ⟨a, b, rfl⟩ := List.append_of_mem ht
    have hlength := h.implied a t (b ++ m :: earlier) (by simp [hdone]) hkind
    rw [List.length_append, List.length_cons] at hlength
    omega
  · obtain ⟨a, b, rfl⟩ := List.append_of_mem ht
    have hlength := h.implied (later ++ m :: a) t b (by simp [hdone]) hkind
    rw [List.length_append, List.length_cons] at hone
    omega

theorem kind_settle_ne (t : Token) :
    (if t.kind = .impliedLabel then { t with kind := .blank } else t).kind ≠ .impliedLabel := by
  split
  · simp
  · assumption

theorem kind_settle_eq_label {t : Token}
    (h : (if t.kind = .impliedLabel then { t with kind := .blank } else t).kind = .label) :
    t.kind = .label := by
  split at h
  · cases h
  · exact h

/-- No other token of a line than the mark `m` makes a label. -/
theorem scan_marks {line : List Char} {front back : List Token}
    (hscan : scan line = .ok (front ++ m :: back)) (hm : m.IsMark) :
    (∀ t ∈ front ++ back, ¬ t.IsMark) ∧ (m.kind = .impliedLabel → front.length = 1) := by
  obtain ⟨done, hdone, hsettle⟩ := ok_of_map_eq_ok hscan
  obtain ⟨offset, hmarked⟩ := marked_of_scanFrom hdone
  unfold settleLabel at hsettle
  by_cases hlabel : isLabelled done.reverse = true
  · -- the implied marks become blanks
    rw [if_pos hlabel] at hsettle
    obtain ⟨front, rest, hsplit, rfl, hrest⟩ := List.map_eq_append_iff.mp hsettle
    obtain ⟨m, back, rfl, rfl, rfl⟩ := List.map_eq_cons_iff.mp hrest
    have hkind : m.kind = .label :=
      kind_settle_eq_label (hm.resolve_right (kind_settle_ne m))
    have hdone' : done = back.reverse ++ m :: front.reverse := by
      rw [← List.reverse_reverse done, hsplit]
      simp
    refine ⟨fun t ht hmark => ?_, fun himplied => absurd himplied (kind_settle_ne m)⟩
    rw [← List.map_append] at ht
    obtain ⟨u, hu, rfl⟩ := List.mem_map.mp ht
    have hu' : u ∈ back.reverse ++ front.reverse := by simpa [or_comm] using hu
    have hlabel' := kind_settle_eq_label (hmark.resolve_right (kind_settle_ne u))
    exact hmarked.label_unique hdone' hkind u hu' hlabel'
  · rw [if_neg hlabel] at hsettle
    have hdone' : done = back.reverse ++ m :: front.reverse := by
      rw [← List.reverse_reverse done, hsettle]
      simp
    have hnone : ∀ t ∈ front ++ m :: back, t.kind ≠ .label := by
      intro t ht hkind
      rw [← hsettle] at ht
      exact hlabel (List.any_eq_true.mpr ⟨t, ht, by simp [hkind]⟩)
    have hkind : m.kind = .impliedLabel := hm.resolve_left (hnone m (by simp))
    refine ⟨fun t ht hmark => ?_, fun _ => ?_⟩
    · have ht' : t ∈ back.reverse ++ front.reverse := by simpa [or_comm] using ht
      have hmem : t ∈ front ++ m :: back := by
        rcases List.mem_append.mp ht with ht | ht
        · exact List.mem_append_left _ ht
        · exact List.mem_append_right _ (List.mem_cons_of_mem _ ht)
      exact hmarked.implied_unique hdone' hkind t ht' (hmark.resolve_left (hnone t hmem))
    · have hlength := hmarked.implied back.reverse m front.reverse hdone' hkind
      rwa [List.length_reverse] at hlength

end Scan

end MacroAsm

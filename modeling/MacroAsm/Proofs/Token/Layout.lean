import Mathlib
import MacroAsm.Proofs.Token.Marks
import MacroAsm.Proofs.Token.Moved

/-!
# Blanks and marks between tokens

`scan_layout`: where the blanks and the label mark of a scanned line stand. Blanks stand one at a
time between other tokens and at the end of the line, and an implied mark is the blank behind a name
that starts the line.

A `:` that comes later turns the implied mark into a blank. So the tokens so far are described by
what is more than blanks (`Scan.Separated`), which this leaves as it is.
-/

namespace MacroAsm

instance (t : Token) : Decidable t.IsMark :=
  inferInstanceAs (Decidable (t.kind = .label ∨ t.kind = .impliedLabel))

namespace Scan

variable {offset next stop : Nat} {done last tokens : List Token} {cs rest line : List Char}
  {t : Token}

/-! ## Tokens so far -/

/-- No two blanks follow each other, none comes first, and an implied mark comes right behind a name
that starts the line. -/
structure Separated (done : List Token) : Prop where
  apart : done.IsChain fun u t => u.isSignificant = true ∨ t.isSignificant = true
  first : ∀ t ∈ done.getLast?, t.isSignificant = true
  implied : ∀ later m earlier, done = later ++ m :: earlier → m.kind = .impliedLabel →
    earlier = [⟨.name, 0, m.start⟩]

theorem Separated.cons (h : Separated done)
    (ht : ∀ u ∈ done.head?, t.isSignificant = true ∨ u.isSignificant = true)
    (hfirst : done = [] → t.isSignificant = true)
    (himplied : t.kind = .impliedLabel → done = [⟨.name, 0, t.start⟩]) : Separated (t :: done) where
  apart := List.isChain_cons.mpr ⟨ht, h.apart⟩
  first := by
    intro u hu
    cases done with
    | nil =>
      cases hu
      exact hfirst rfl
    | cons d done => exact h.first u (by rwa [List.getLast?_cons_cons] at hu)
  implied := by
    intro later m earlier heq hkind
    cases later with
    | nil =>
      cases heq
      exact himplied hkind
    | cons u later =>
      cases heq
      exact h.implied later m earlier rfl hkind

theorem Lexes.isSignificant (h : Lexes offset cs t next rest) : t.isSignificant = true := by
  cases h with
  | @mark kind c rest hkind =>
    unfold markKind? at hkind
    split at hkind <;> cases hkind <;> rfl
  | run hcs => rcases hcs.kind_eq with rfl | rfl <;> rfl
  | string | cast | label | operator => rfl

theorem Separated.token (h : Separated done) (hlexes : Lexes offset cs t next rest) :
    Separated (t :: done) :=
  h.cons (fun _ _ => .inl hlexes.isSignificant) (fun _ => hlexes.isSignificant)
    fun hkind => absurd hkind hlexes.kind_ne

theorem Marked.eq_of_candidate (h : Marked offset done)
    (hcandidate : isLabelCandidate offset done = true) : done = [⟨.name, 0, offset⟩] := by
  have hlength := h.length_of_candidate hcandidate
  unfold isLabelCandidate at hcandidate
  split at hcandidate
  next stop earlier =>
    obtain rfl : stop = offset := of_decide_eq_true hcandidate
    rw [List.length_cons, Nat.add_eq_right] at hlength
    rw [List.length_eq_zero_iff.mp hlength]
  next => cases hcandidate

theorem Separated.addBlank (h : Separated done) (hmarked : Marked offset done) (stop : Nat) :
    Separated (addBlank offset stop done) := by
  unfold Scan.addBlank
  by_cases hcandidate : isLabelCandidate offset done = true
  · have hdone := hmarked.eq_of_candidate hcandidate
    rw [if_pos hcandidate]
    refine h.cons (fun u hu => .inr ?_) (fun hnil => ?_) fun _ => hdone
    · rw [hdone] at hu
      cases hu
      rfl
    · rw [hdone] at hnil
      cases hnil
  · rw [if_neg hcandidate]
    split
    next hhead =>
      obtain ⟨u, hu, hsig⟩ := (Option.any_eq_true ..).mp hhead
      refine h.cons (fun v hv => .inr ?_) (fun hnil => ?_) nofun
      · rw [hu] at hv
        cases hv
        exact hsig
      · rw [hnil] at hu
        cases hu
    next => exact h

theorem Scans.separated (h : Scans offset done cs stop last rest) (hmarked : Marked offset done)
    (hdone : Separated done) : Separated last := by
  induction h with
  | refl => exact hdone
  | @blank offset done c _ _ _ _ _ _ ih =>
    exact ih (hmarked.addBlank (Nat.lt_add_of_pos_right c.utf8Size_pos))
      (hdone.addBlank hmarked _)
  | token hlexes hallows _ ih => exact ih (hmarked.token hlexes hallows) (hdone.token hlexes)

theorem separated_of_scanFrom (h : scanFrom 0 [] line = .ok done) :
    Separated done ∧ ∀ t ∈ done.head?, t.isSignificant = false := by
  have hstart : Marked 0 [] := ⟨by simp, by simp, by simp, by simp⟩
  obtain ⟨stop, last, hscans, rfl⟩ := exists_scans h
  have hlast : Separated last := hscans.separated hstart ⟨by simp, by simp, by simp⟩
  exact ⟨hlast.addBlank (hscans.marked hstart) stop, head_addBlank stop stop⟩

/-! ## The label settled -/

theorem isSignificant_settle (labelled : Bool) (t : Token) :
    (settle labelled t).isSignificant = t.isSignificant := by
  unfold settle
  split
  next h =>
    rw [Bool.and_eq_true, decide_eq_true_eq] at h
    simp [Token.isSignificant, h.2, TokenKind.isSignificant]
  next => rfl

theorem countP_isMark_le_one (h : scan line = .ok tokens) : tokens.countP (·.IsMark) ≤ 1 := by
  by_cases hmark : ∃ m ∈ tokens, m.IsMark
  · obtain ⟨m, hm, hkind⟩ := hmark
    obtain ⟨front, back, rfl⟩ := List.append_of_mem hm
    have hother : (front ++ back).countP (·.IsMark) = 0 := by
      rw [List.countP_eq_zero]
      simpa using (scan_marks h hkind).1
    rw [List.countP_append] at hother
    rw [List.countP_append, List.countP_cons]
    simp only [hkind, decide_true, ↓reduceIte]
    omega
  · have hnone : tokens.countP (·.IsMark) = 0 := by
      rw [List.countP_eq_zero]
      simpa using hmark
    omega

theorem settleLabel_of_implied (h : t.kind = .impliedLabel) (ht : t ∈ settleLabel tokens) :
    isLabelled tokens = false ∧ settleLabel tokens = tokens := by
  cases hlabelled : isLabelled tokens with
  | false => exact ⟨rfl, by simp [settleLabel, hlabelled]⟩
  | true =>
    rw [settleLabel, if_pos hlabelled, List.mem_map] at ht
    obtain ⟨u, -, rfl⟩ := ht
    exact absurd h (kind_settle_ne u)

/-- A scanned line has one label mark at most. An implied mark is the second token, right behind a
name that starts the line, and there is no other mark. No two blanks, of which an implied mark is
one, follow each other; the line does not start with one, and ends with one if it has tokens. -/
theorem scan_layout (h : scan line = .ok tokens) :
    tokens.countP (·.IsMark) ≤ 1 ∧
      (∀ front m back, tokens = front ++ m :: back → m.kind = .impliedLabel →
        front = [⟨.name, 0, m.start⟩] ∧ ∀ t ∈ tokens, t.kind ≠ .label) ∧
      (tokens.IsChain fun t u => ¬ (t.isSignificant = false ∧ u.isSignificant = false)) ∧
      (∀ t ∈ tokens.head?, t.kind ≠ .blank) ∧
      ∀ t ∈ tokens.getLast?, t.kind = .blank ∨ t.kind = .impliedLabel := by
  refine ⟨countP_isMark_le_one h, ?_⟩
  obtain ⟨done, hdone, rfl⟩ := ok_of_map_eq_ok h
  obtain ⟨hseparated, hlast⟩ := separated_of_scanFrom hdone
  refine ⟨?implied, ?apart, ?first, ?last⟩
  case implied =>
    intro front m back htokens hkind
    have hm : m ∈ settleLabel done.reverse := by simp [htokens]
    obtain ⟨hlabelled, hsettle⟩ := settleLabel_of_implied hkind hm
    rw [hsettle] at htokens ⊢
    have hsplit : done = back.reverse ++ m :: front.reverse := by
      rw [← List.reverse_reverse done, htokens]
      simp
    refine ⟨List.reverse_eq_iff.mp (hseparated.implied _ m _ hsplit hkind), fun t ht => ?_⟩
    simpa using List.any_eq_false.mp hlabelled t ht
  case apart =>
    rw [settleLabel_eq_map, List.isChain_map, List.isChain_reverse]
    refine hseparated.apart.imp fun u t hor hboth => ?_
    simp only [isSignificant_settle] at hboth
    simp [hboth] at hor
  case first =>
    intro t ht
    rw [settleLabel_eq_map, List.head?_map, List.head?_reverse] at ht
    obtain ⟨u, hu, rfl⟩ := Option.map_eq_some_iff.mp ht
    have hsig := hseparated.first u hu
    rw [← isSignificant_settle (isLabelled done.reverse)] at hsig
    intro hkind
    rw [Token.isSignificant, hkind] at hsig
    cases hsig
  case last =>
    intro t ht
    rw [settleLabel_eq_map, List.getLast?_map, List.getLast?_reverse] at ht
    obtain ⟨u, hu, rfl⟩ := Option.map_eq_some_iff.mp ht
    have hsig := hlast u hu
    rw [← isSignificant_settle (isLabelled done.reverse), Token.isSignificant] at hsig
    generalize (settle (isLabelled done.reverse) u).kind = kind at hsig
    cases kind <;> first | exact .inl rfl | exact .inr rfl | cases hsig

/-- The first of the blanks behind the name is a mark, and the colons of the string and of the cast
leave it one. -/
theorem scan_layout_implied :
    scan "foo  ':'::c".toList = .ok [⟨.name, 0, 3⟩, ⟨.impliedLabel, 3, 4⟩, ⟨.string, 6, 7⟩,
        ⟨.cast, 8, 10⟩, ⟨.name, 10, 11⟩, ⟨.blank, 11, 11⟩] ∧
      (∀ front back : List Token,
        [⟨.name, 0, 3⟩, ⟨.impliedLabel, 3, 4⟩, ⟨.string, 6, 7⟩, ⟨.cast, 8, 10⟩, ⟨.name, 10, 11⟩,
          ⟨.blank, 11, 11⟩] = front ++ ⟨.impliedLabel, 3, 4⟩ :: back → front = [⟨.name, 0, 3⟩]) ∧
      (∀ t ∈ ([⟨.name, 0, 3⟩, ⟨.impliedLabel, 3, 4⟩, ⟨.string, 6, 7⟩, ⟨.cast, 8, 10⟩,
        ⟨.name, 10, 11⟩, ⟨.blank, 11, 11⟩] : List Token), t.kind ≠ .label) ∧
      ([⟨.name, 0, 3⟩, ⟨.impliedLabel, 3, 4⟩, ⟨.string, 6, 7⟩, ⟨.cast, 8, 10⟩, ⟨.name, 10, 11⟩,
        ⟨.blank, 11, 11⟩] : List Token).IsChain
          fun t u => ¬ (t.isSignificant = false ∧ u.isSignificant = false) := by
  have hscan : scan "foo  ':'::c".toList = .ok [⟨.name, 0, 3⟩, ⟨.impliedLabel, 3, 4⟩,
      ⟨.string, 6, 7⟩, ⟨.cast, 8, 10⟩, ⟨.name, 10, 11⟩, ⟨.blank, 11, 11⟩] := by cbv
  obtain ⟨-, himplied, happart, -⟩ := scan_layout hscan
  exact ⟨hscan, fun front back htokens => (himplied front _ back htokens rfl).1,
    (himplied [⟨.name, 0, 3⟩] _ _ rfl rfl).2, happart⟩

/-- A `:` behind the blanks turns the mark into a blank. -/
example : scan "foo\t : c".toList = .ok [⟨.name, 0, 3⟩, ⟨.blank, 3, 4⟩, ⟨.label, 5, 6⟩,
    ⟨.blank, 6, 7⟩, ⟨.name, 7, 8⟩, ⟨.blank, 8, 8⟩] := by cbv

end Scan

end MacroAsm

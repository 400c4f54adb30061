import MacroAsm.Proofs.Token.CharScanner
import MacroAsm.Proofs.Token.Layout

/-!
# Scanning with checked accesses

`checkedScan_eq`: the scanner that takes one character at a time never looks back out of bounds, and
its tokens are those of `scan`.

Both scanners are at the end of a lexeme at the same time (`CharScanner.AtLexeme`). There the one
has the tokens of the other, but for the name or number that ends there, and for the mark of an
implied label, which is turned into a blank at once when the `:` comes.
-/

namespace MacroAsm

namespace Scan

namespace CharScanner

open Text (byteSize)

variable {line cs rest : List Char} {offset stop next : Nat} {c : Char} {s : CharScanner}
  {kind : TokenKind} {t : Token} {done tokens : List Token} {fault : Fault} {implied : Option Nat}

/-! ## Characters -/

theorem kind_ne_of_mark (h : markKind? c = some kind) : kind ≠ .name ∧ kind ≠ .operator := by
  unfold markKind? at h
  split at h <;> cases h <;> decide

theorem continuesRun_of_classes (hblank : isBlank c = false) (hquote : isQuote c = false)
    (hcolon : c ≠ ':') (hoperator : c ∉ operatorChars) (hmark : markKind? c = none) :
    continuesRun c = true := by
  have hmarks : c ∉ marks := by
    rw [marks, List.mem_append]
    rintro (h | h)
    · exact hoperator h
    · simp only [List.mem_cons, hcolon, List.not_mem_nil, or_false, false_or] at h
      rcases h with rfl | rfl | rfl | rfl | rfl | rfl | rfl | rfl <;> cases hmark
  simp [continuesRun, hblank, hquote, hmarks]

/-! ## The mark of an implied label -/

/-- The remembered index is that of the only token that marks an implied label. -/
def Remembers (implied : Option Nat) (tokens : List Token) : Prop :=
  ∀ k, implied = some k ↔ ∃ t ∈ tokens[k]?, t.kind = .impliedLabel

theorem remembers_none (h : ∀ t ∈ tokens, t.kind ≠ .impliedLabel) :
    Remembers none tokens := by
  intro k
  simp only [reduceCtorEq, false_iff]
  rintro ⟨t, ht, hkind⟩
  exact h t (List.mem_of_getElem? ht) hkind

theorem Remembers.push (h : Remembers implied tokens) (ht : t.kind ≠ .impliedLabel) :
    Remembers implied (tokens ++ [t]) := by
  intro k
  rw [h k]
  rcases Nat.lt_or_ge k tokens.length with hlt | hge
  · rw [List.getElem?_append_left hlt]
  · rw [List.getElem?_eq_none hge, List.getElem?_append_right hge]
    constructor
    · simp
    · rintro ⟨u, hu, hkind⟩
      obtain rfl := List.mem_singleton.mp (List.mem_of_getElem? hu)
      exact absurd hkind ht

theorem Remembers.push_implied (h : ∀ u ∈ tokens, u.kind ≠ .impliedLabel)
    (ht : t.kind = .impliedLabel) : Remembers (some tokens.length) (tokens ++ [t]) := by
  intro k
  rcases Nat.lt_trichotomy k tokens.length with hlt | rfl | hgt
  · rw [List.getElem?_append_left hlt]
    constructor
    · rintro ⟨⟩
      omega
    · rintro ⟨u, hu, hkind⟩
      exact absurd hkind (h u (List.mem_of_getElem? hu))
  · simp [ht]
  · have hnone : (tokens ++ [t])[k]? = none := by
      rw [List.getElem?_eq_none_iff, List.length_append, List.length_singleton]
      omega
    simp only [hnone, Option.some.injEq, Option.mem_def, reduceCtorEq, false_and, exists_false,
      iff_false]
    omega

theorem Remembers.forall_ne (h : Remembers none tokens) (ht : t ∈ tokens) :
    t.kind ≠ .impliedLabel := by
  intro hkind
  obtain ⟨k, hk⟩ := List.getElem?_of_mem ht
  exact Option.some_ne_none k ((h k).mpr ⟨t, hk, hkind⟩).symm

/-- The token at the index turns into a blank as all marks of implied labels do. -/
theorem Remembers.set_eq {k : Nat} (h : Remembers (some k) tokens) (ht : tokens[k]? = some t)
    (hkind : t.kind = .impliedLabel) :
    tokens.set k { t with kind := .blank } = tokens.map (settle true) := by
  refine List.ext_getElem? fun j => ?_
  rw [List.getElem?_set, List.getElem?_map]
  split
  next hj =>
    subst hj
    have hlt := (List.getElem?_eq_some_iff.mp ht).1
    rw [ht, Option.map_some, if_pos hlt, settle]
    simp [hkind]
  next hj =>
    cases hget : tokens[j]? with
    | none => rfl
    | some u =>
      have hne : u.kind ≠ .impliedLabel := fun hu =>
        hj (Option.some.inj ((h j).mpr ⟨u, hget, hu⟩))
      rw [Option.map_some, settle_of_ne true hne]

theorem Remembers.unmark_eq (h : Remembers implied tokens) :
    unmark implied tokens = .result (.ok (tokens.map (settle true))) := by
  cases himplied : implied with
  | none =>
    rw [himplied] at h
    rw [map_settle true fun t => h.forall_ne]
    rfl
  | some k =>
    rw [himplied] at h
    obtain ⟨t, ht, hkind⟩ := (h k).mp rfl
    rw [unmark, Option.mem_def.mp ht, Access.get_some_bind, h.set_eq ht hkind]
    rfl

theorem settle_true_ne (t : Token) : (settle true t).kind ≠ .impliedLabel := by
  unfold settle
  split
  next => simp
  next h => simpa using h

theorem settle_settle_true (labelled : Bool) (t : Token) :
    settle true (settle labelled t) = settle true t := by
  cases labelled
  · rfl
  · exact settle_of_ne true (settle_true_ne t)

/-! ## The ends of lexemes -/

/-- The scanner at the end of a lexeme of the line, where `done` are the tokens so far, the last one
first. A name or number that ends here is still being read. -/
structure AtLexeme (line : List Char) (offset : Nat) (done : List Token) (cs : List Char)
    (s : CharScanner) : Prop where
  scans : Scans 0 [] line offset done cs
  string : s.string = none
  tokens : (s.closeRun offset).tokens = done.reverse.map (settle s.labelled)
  labelled : s.labelled = isLabelled done
  startsLine : s.startsLine = isLabelCandidate offset done
  run : s.startsLine = true → s.run.isSome = true
  ends : s.run.isSome = true → ∀ c ∈ cs.head?, continuesRun c = false
  implied : Remembers s.implied (s.closeRun offset).tokens
  operator : ∀ c ∈ cs.head?, isGrowth c = true →
    extend? line s.tokens offset c = .result (.ok none)

theorem AtLexeme.any_isSignificant (h : AtLexeme line offset done cs s) :
    (s.closeRun offset).tokens.any Token.isSignificant = done.any Token.isSignificant := by
  rw [h.tokens, List.any_map, List.any_reverse]
  congr 1
  funext t
  exact isSignificant_settle _ t

theorem atLexeme_start : AtLexeme line 0 [] line {} where
  scans := .refl
  string := rfl
  tokens := rfl
  labelled := rfl
  startsLine := rfl
  run := by simp
  ends := by simp
  implied := remembers_none (by simp [closeRun, runToken])
  operator := fun c _ _ => rfl

theorem isLabelled_cons (t : Token) (done : List Token) :
    isLabelled (t :: done) = (decide (t.kind = .label) || isLabelled done) := rfl

theorem isLabelCandidate_cons (t : Token) (done : List Token) :
    isLabelCandidate offset (t :: done) =
      decide (t.kind = .name ∧ t.start = 0 ∧ t.stop = offset) := by
  unfold isLabelCandidate
  split
  next heq =>
    cases heq
    simp
  next hnot =>
    symm
    rw [decide_eq_false_iff_not]
    rintro ⟨hkind, hstart, -⟩
    exact hnot t.stop done (by rw [← hkind, ← hstart])

theorem closeRun_of_run (h : s.run = none) : (s.closeRun stop).tokens = s.tokens := by
  simp [closeRun_tokens, runToken, h]

theorem atLexeme_of_run (hscans : Scans 0 [] line offset done cs) (hs : s.string = none)
    (hrun : s.run = none) (hstarts : s.startsLine = false)
    (hcandidate : isLabelCandidate offset done = false) (hlabelled : s.labelled = isLabelled done)
    (htokens : s.tokens = done.reverse.map (settle s.labelled))
    (himplied : Remembers s.implied s.tokens)
    (hoperator : ∀ c ∈ cs.head?, isGrowth c = true →
      extend? line s.tokens offset c = .result (.ok none)) :
    AtLexeme line offset done cs s where
  scans := hscans
  string := hs
  tokens := (closeRun_of_run hrun).trans htokens
  labelled := hlabelled
  startsLine := hstarts.trans hcandidate.symm
  run := by simp [hstarts]
  ends := by simp [hrun]
  implied := (closeRun_of_run hrun).symm ▸ himplied
  operator := hoperator

theorem AtLexeme.push (h : AtLexeme line offset done cs s) (hlexes : Lexes offset cs t next rest)
    (hallows : Allows done t) (hname : t.kind ≠ .name) (hlabel : t.kind ≠ .label)
    (hoperator : ∀ c ∈ rest.head?, isGrowth c = true →
      extend? line ((s.closeRun offset).tokens ++ [t]) next c = .result (.ok none)) :
    AtLexeme line next (t :: done) rest ((s.closeRun offset).push t) := by
  refine atLexeme_of_run (h.scans.trans (.token hlexes hallows .refl)) h.string rfl rfl
    (by simp [isLabelCandidate_cons, hname]) ?_ ?_ (h.implied.push hlexes.kind_ne) hoperator
  · rw [isLabelled_cons, decide_eq_false hlabel, Bool.false_or]
    exact h.labelled
  · rw [List.reverse_cons, List.map_append, List.map_singleton,
      settle_of_ne _ hlexes.kind_ne, CharScanner.push]
    exact congrArg (· ++ [t]) h.tokens

theorem AtLexeme.marked (h : AtLexeme line offset done cs s) : Marked offset done :=
  h.scans.marked ⟨by simp, by simp, by simp, by simp⟩

theorem AtLexeme.any_getLast? (h : AtLexeme line offset done cs s) :
    (s.closeRun offset).tokens.getLast?.any Token.isSignificant =
      done.head?.any Token.isSignificant := by
  rw [h.tokens, List.getLast?_map, List.getLast?_reverse, Option.any_map]
  congr 1
  funext t
  exact isSignificant_settle _ t

theorem AtLexeme.done_eq (h : AtLexeme line offset done cs s) (hstarts : s.startsLine = true) :
    done = [⟨.name, 0, offset⟩] ∧ s.labelled = false ∧
      (s.closeRun offset).tokens = [⟨.name, 0, offset⟩] := by
  have hdone := h.marked.eq_of_candidate (h.startsLine.symm.trans hstarts)
  have hlabelled : s.labelled = false := h.labelled.trans (by rw [hdone]; rfl)
  refine ⟨hdone, hlabelled, ?_⟩
  rw [h.tokens, hdone, hlabelled]
  rfl

theorem AtLexeme.blank_tokens (h : AtLexeme line offset done cs s) (stop : Nat) :
    (s.blank offset stop).tokens = (addBlank offset stop done).reverse.map (settle s.labelled) := by
  unfold CharScanner.blank addBlank
  rw [← h.startsLine, h.any_getLast?]
  split
  next hstarts =>
    obtain ⟨hdone, hlabelled, htokens⟩ := h.done_eq hstarts
    simp [CharScanner.push, htokens, hdone, hlabelled, settle]
  next =>
    split
    · simp [CharScanner.push, h.tokens, settle]
    · exact h.tokens

theorem AtLexeme.blank_implied (h : AtLexeme line offset done cs s) (stop : Nat) :
    Remembers (s.blank offset stop).implied (s.blank offset stop).tokens := by
  unfold CharScanner.blank
  split
  next hstarts =>
    refine Remembers.push_implied ?_ rfl
    rw [(h.done_eq hstarts).2.2]
    simp
  next =>
    split
    · exact h.implied.push (by simp)
    · exact h.implied

theorem blank_frame (s : CharScanner) (start stop : Nat) :
    (s.blank start stop).string = s.string ∧ (s.blank start stop).run = none ∧
      (s.blank start stop).startsLine = false ∧ (s.blank start stop).labelled = s.labelled := by
  unfold CharScanner.blank
  split
  · exact ⟨rfl, rfl, rfl, rfl⟩
  · split <;> exact ⟨rfl, rfl, rfl, rfl⟩

theorem isLabelled_addBlank (start stop : Nat) (done : List Token) :
    isLabelled (addBlank start stop done) = isLabelled done := by
  rcases addBlank_eq_or start stop done with heq | ⟨t, hkind, -, -, heq⟩
  · rw [heq]
  · have hne : t.kind ≠ .label := by rcases hkind with h | h <;> simp [h]
    rw [heq, isLabelled_cons, decide_eq_false hne, Bool.false_or]

theorem AtLexeme.blank (h : AtLexeme line offset done (c :: cs) s) (hc : isBlank c = true) :
    AtLexeme line (offset + 1) (addBlank offset (offset + 1) done) cs
      (s.blank offset (offset + 1)) := by
  have hscans : Scans offset done (c :: cs) (offset + 1) (addBlank offset (offset + 1) done)
      cs := by
    refine .blank hc ?_
    rw [utf8Size_of_isBlank hc]
    exact .refl
  obtain ⟨hs, hrun, hstarts, hlabelled⟩ := blank_frame s offset (offset + 1)
  have htokens := h.blank_tokens (offset + 1)
  refine atLexeme_of_run (h.scans.trans hscans) (hs.trans h.string) hrun hstarts ?_ ?_ ?_
    (h.blank_implied _) ?_
  · exact isLabelCandidate_of_head (head_addBlank _ _)
  · rw [hlabelled, isLabelled_addBlank, h.labelled]
  · rw [hlabelled, htokens]
  · refine fun c _ _ => extend?_of_forall fun t ht hkind => ?_
    rw [htokens, List.getLast?_map, List.getLast?_reverse, Option.mem_map] at ht
    obtain ⟨u, hu, rfl⟩ := ht
    have hmark := head_addBlank _ _ u hu
    rw [← isSignificant_settle s.labelled, Token.isSignificant, hkind] at hmark
    cases hmark

theorem AtLexeme.label (h : AtLexeme line offset done (':' :: rest) s)
    (hdone : done.any Token.isSignificant = true) (hlabel : isLabelled done = false)
    (hrest : ∀ c ∈ rest.head?, c ≠ ':') :
    ∃ s', (s.closeRun offset).label offset = .result (.ok s') ∧
      AtLexeme line (offset + 1) (⟨.label, offset, offset + 1⟩ :: done) rest s' := by
  have hscans : Scans offset done (':' :: rest) (offset + 1)
      (⟨.label, offset, offset + 1⟩ :: done) rest :=
    .token (.label hrest) ⟨fun _ => hdone, fun _ => hlabel⟩ .refl
  have hlabelled : (s.closeRun offset).labelled = false := h.labelled.trans hlabel
  have hsettled : (s.closeRun offset).tokens.map (settle true) =
      done.reverse.map (settle true) := by
    rw [h.tokens, List.map_map]
    congr 1
    funext t
    rw [Function.comp_apply, settle_settle_true]
  have hunmark : unmark (s.closeRun offset).implied (s.closeRun offset).tokens =
      .result (.ok (done.reverse.map (settle true))) :=
    hsettled ▸ h.implied.unmark_eq
  refine ⟨_, by rw [CharScanner.label, hlabelled, if_neg Bool.false_ne_true, hunmark,
    Access.result_ok_bind, Access.pure_eq], ?_⟩
  refine atLexeme_of_run (h.scans.trans hscans) h.string rfl rfl ?_ rfl ?_ ?_ ?_
  · simp [isLabelCandidate_cons]
  · simp [CharScanner.push, settle]
  · refine (remembers_none fun t ht => ?_).push (by simp)
    obtain ⟨u, -, rfl⟩ := List.mem_map.mp ht
    exact settle_true_ne u
  · exact fun c _ _ => extend?_of_forall (by simp [CharScanner.push])

theorem AtLexeme.run_eq_none (h : AtLexeme line offset done (c :: cs) s)
    (hc : continuesRun c = true) : s.run = none := by
  by_contra hrun
  rw [← ne_eq, Option.ne_none_iff_isSome] at hrun
  rw [h.ends hrun c rfl] at hc
  cases hc

theorem AtLexeme.startRun (h : AtLexeme line offset done cs s) (hrun : s.run = none)
    (hlexes : Lexes offset cs ⟨kind, offset, next⟩ next rest)
    (hallows : Allows done ⟨kind, offset, next⟩) (hlabel : kind ≠ .label)
    (hrest : ∀ c ∈ rest.head?, continuesRun c = false) :
    AtLexeme line next (⟨kind, offset, next⟩ :: done) rest (s.startRun kind offset) where
  scans := h.scans.trans (.token hlexes hallows .refl)
  string := h.string
  tokens := by
    have htokens := (closeRun_of_run hrun).symm.trans h.tokens
    rw [List.reverse_cons, List.map_append, List.map_singleton, settle_of_ne _ hlexes.kind_ne]
    exact congrArg (· ++ [_]) htokens
  labelled := by
    rw [isLabelled_cons, decide_eq_false hlabel, Bool.false_or]
    exact h.labelled
  startsLine := by
    have hstarts : s.startsLine = false := by
      by_contra hstarts
      simpa [hrun] using h.run (by simpa using hstarts)
    by_cases hname : kind = .name <;>
      simp [CharScanner.startRun, isLabelCandidate_cons, hname, hstarts]
  run := fun _ => rfl
  ends := fun _ => hrest
  implied := by
    have himplied := h.implied
    rw [closeRun_of_run hrun] at himplied
    exact himplied.push hlexes.kind_ne
  operator := by
    -- the tokens before the name or number end where it starts or before
    have hdone : EndBy offset done := h.scans.endBy ⟨by simp, .nil⟩
    have htokens := (closeRun_of_run hrun).symm.trans h.tokens
    refine fun c _ _ => extend?_of_forall fun t ht _ => ?_
    have hmem : t ∈ done.reverse.map (settle s.labelled) := htokens ▸ List.mem_of_getLast? ht
    obtain ⟨u, hu, rfl⟩ := List.mem_map.mp hmem
    have hcovers := (hdone.covers u (List.mem_reverse.mp hu)).2
    have hle := u.stop_le_behind
    have hlt := hlexes.lt
    rw [settle_stop]
    omega

theorem AtLexeme.exists_run (h : AtLexeme line offset done (cs ++ rest) s) (hcs : IsRun kind cs)
    (hrest : ∀ c ∈ rest.head?, continuesRun c = false) :
    ∃ s', read line s offset (cs ++ rest) = read line s' (offset + byteSize cs) rest ∧
      AtLexeme line (offset + byteSize cs) (⟨kind, offset, offset + byteSize cs⟩ :: done) rest
        s' := by
  have hlexes : Lexes offset _ _ _ _ := .run hcs hrest
  have hallows : Allows done ⟨kind, offset, offset + byteSize cs⟩ := allows_of_isRun hcs
  have hlabel : kind ≠ .label := by rcases hcs.kind_eq with rfl | rfl <;> simp
  obtain ⟨c, more, rfl, hkind, hmore⟩ := hcs
  have hcont := continuesRun_of_runKind? hkind
  obtain ⟨hblank, hquote, hcolon, hoperator, hmark⟩ := classes_of_continuesRun hcont
  have hrun := h.run_eq_none hcont
  refine ⟨s.startRun kind offset, ?_, h.startRun hrun hlexes hallows hlabel hrest⟩
  rw [List.cons_append, read_plain h.string hblank hquote hcolon hoperator hmark, hrun, hkind,
    Text.byteSize_cons, ← Nat.add_assoc]
  exact read_run (s := s.startRun kind offset) h.string rfl hmore

theorem AtLexeme.exists_before (h : AtLexeme line offset done cs s) :
    ∃ before, line = before ++ cs ∧ offset = byteSize before := by
  have hstart : ReadTo line 0 [] line := ⟨[], rfl, rfl, by simp, by simp⟩
  obtain ⟨before, hline, hoffset, -⟩ := h.scans.readTo hstart
  exact ⟨before, hline, hoffset⟩

theorem AtLexeme.exists_operator {length : Nat} (h : AtLexeme line offset done (c :: cs) s)
    (hc : c ∈ operatorChars) (hlength : operatorLength (c :: cs) = length) (hpos : 0 < length)
    (hallows : Allows done ⟨.operator, offset, offset + length⟩) :
    ∃ s', read line s offset (c :: cs) = read line s' (offset + length) (cs.drop (length - 1)) ∧
      AtLexeme line (offset + length) (⟨.operator, offset, offset + length⟩ :: done)
        (cs.drop (length - 1)) s' := by
  have hlexes : Lexes offset _ _ _ _ := .operator hc hlength hpos
  obtain ⟨more, rest, rfl, hmore, hgrows, hends⟩ := exists_growsBy hc cs
  obtain ⟨before, hline, rfl⟩ := h.exists_before
  obtain rfl : length = more.length + 1 := hlength.symm.trans hmore
  have hsize := hlexes.size
  rw [Nat.add_sub_cancel, List.drop_left] at hlexes hsize ⊢
  have hfirst : line = before ++ [c] ++ (more ++ rest) := by simp [hline]
  have hall : line = before ++ c :: more ++ rest := by simp [hline]
  have hstart : byteSize (before ++ [c]) = byteSize before + 1 := by
    simp [utf8Size_of_mem_operatorChars hc]
  have hstop : byteSize (before ++ c :: more) = byteSize before + (more.length + 1) := by
    simp only [Text.byteSize_append, Text.byteSize_cons] at hsize ⊢
    omega
  refine ⟨(s.closeRun (byteSize before)).push ⟨.operator, _, _⟩, ?_,
    h.push hlexes hallows (by simp) (by simp) fun d hd hgrowth => ?_⟩
  · have hread := read_growsBy (s := s.closeRun (byteSize before)) h.string hfirst hgrows
    rw [hstart, List.singleton_append, hstop] at hread
    exact (read_operator h.string hc (h.operator c rfl)).trans hread
  · have hextend := extend?_push (s.closeRun (byteSize before)).tokens d hall
    rwa [hends d hd hgrowth, if_neg Bool.false_ne_true, hstop] at hextend

theorem AtLexeme.exists_token (h : AtLexeme line offset done cs s)
    (hlexes : Lexes offset cs t next rest) (hallows : Allows done t) :
    ∃ s', read line s offset cs = read line s' next rest ∧
      AtLexeme line next (t :: done) rest s' := by
  have hlast : ∀ tokens : List Token, t.kind ≠ .operator → ∀ c ∈ rest.head?, isGrowth c = true →
      extend? line (tokens ++ [t]) next c = .result (.ok none) := by
    intro tokens hkind c _ _
    exact extend?_of_forall (by simp [hkind])
  cases hlexes with
  | @string quote cs _ close hquote hclose =>
    have hlexes : Lexes offset _ _ _ _ := .string hquote hclose
    have hpush := h.push hlexes hallows (by simp) (by simp) (hlast _ (by simp))
    refine ⟨{ (s.closeRun offset).push _ with string := none, escaped := false }, ?_,
      { hpush with string := rfl }⟩
    rw [read_quote h.string hquote]
    rw [utf8Size_of_isQuote hquote] at hclose ⊢
    refine (read_string (s := s.openString quote offset) rfl hclose).trans ?_
    rw [utf8Size_of_isQuote hquote]
    rfl
  | cast =>
    have hdone := hallows.significant (.inl rfl)
    exact ⟨_, read_cast h.string (h.any_isSignificant.trans hdone),
      h.push .cast hallows (by simp) (by simp) (hlast _ (by simp))⟩
  | label hrest =>
    have hdone := hallows.significant (.inr rfl)
    obtain ⟨s', hlabel, h'⟩ := h.label hdone (hallows.label rfl) hrest
    refine ⟨s', ?_, h'⟩
    rw [read_label h.string (h.any_isSignificant.trans hdone) hrest, hlabel, Access.result_ok_bind]
  | mark hkind =>
    obtain ⟨hname, hoperator⟩ := kind_ne_of_mark hkind
    refine ⟨_, ?_, h.push (.mark hkind) hallows hname (kind_ne_of_markKind? hkind).1
      (hlast _ hoperator)⟩
    rw [read_mark h.string hkind, utf8Size_of_mark hkind]
    rfl
  | operator hc hlength hpos => exact h.exists_operator hc hlength hpos hallows
  | run hcs hrest => exact h.exists_run hcs hrest

theorem AtLexeme.read_rejects (h : AtLexeme line offset done cs s)
    (hcs : Rejects offset done cs fault) : read line s offset cs = .result (.error fault) := by
  cases hcs with
  | unterminated hquote hclose =>
    rw [utf8Size_of_isQuote hquote] at hclose
    rw [read_quote h.string hquote]
    exact read_unclosed rfl hclose
  | emptyLabel hdone => exact read_emptyLabel h.string (h.any_isSignificant.trans hdone)
  | repeatedLabel hdone hlabel hcs =>
    have hlabelled : (s.closeRun offset).labelled = true := h.labelled.trans hlabel
    rw [read_label h.string (h.any_isSignificant.trans hdone) hcs, CharScanner.label, hlabelled,
      if_pos rfl, Access.result_error_bind]
  | @unrecognized c _ hblank hquote hcolon hmark hoperator hrun =>
    have hcont := continuesRun_of_classes hblank hquote hcolon hoperator hmark
    rw [read_plain h.string hblank hquote hcolon hoperator hmark, h.run_eq_none hcont, hrun]
    rfl

end CharScanner

open CharScanner

/-- No access of the scanner is out of bounds, and its tokens are those of `scan`. -/
theorem checkedScan_eq (line : List Char) : checkedScan line = .result (scan line) := by
  -- from the end of each lexeme on, both read the same
  have hread : ∀ s, AtLexeme line 0 [] line s → CharScanner.read line s 0 line =
      .result ((scanFrom 0 [] line).map fun done => settleLabel done.reverse) := by
    refine lexeme_induction (motive := fun offset done cs result => ∀ s,
      AtLexeme line offset done cs s → CharScanner.read line s offset cs =
        .result (result.map fun done => settleLabel done.reverse)) ?nil ?blank ?token ?fault
    case nil =>
      intro offset done s h
      rw [CharScanner.read, h.string]
      have htokens := h.blank_tokens offset
      rw [h.labelled, ← isLabelled_addBlank offset offset done] at htokens
      simp only [htokens, Access.pure_eq, Except.map, settleLabel_eq_map, isLabelled,
        List.any_reverse]
    case blank =>
      intro offset done c cs result hc ih s h
      rw [read_blank h.string hc]
      have hblank := h.blank hc
      rw [utf8Size_of_isBlank hc] at ih
      exact ih _ hblank
    case token =>
      intro offset done cs t next rest result hlexes hallows ih s h
      obtain ⟨s', hread, h'⟩ := h.exists_token hlexes hallows
      rw [hread, ih s' h']
    case fault =>
      intro offset done cs fault hcs s h
      exact h.read_rejects hcs
  exact hread {} atLexeme_start

end Scan

end MacroAsm

import MacroAsm.Proofs.Print.Scan
import MacroAsm.Proofs.Token.Blanks

/-!
# Scanning arguments

The arguments of a macro call stand between its parentheses, with a comma behind all but the last.
What an argument is scanned to depends neither on the arguments before it, as long as none of them
has a label mark, nor on what follows it, because no lexeme but a string goes on over a comma or a
parenthesis. So its tokens are those that it has as the only argument of the call
(`Scan.Argument`), moved to where it stands (`Scan.scan_arguments`).
-/

namespace MacroAsm

namespace Scan

open Lexeme
open Text (byteSize)

variable {offset k stop : Nat} {done last tokens : List Token} {cs rest : List Char}
  {c quote : Char} {escaped : Bool} {kind : TokenKind} {fault : Fault} {name : String}

/-! ## A mark behind a text -/

theorem closingQuote?_concat (hc : c ≠ quote)
    (h : closingQuote? quote escaped offset cs = none) :
    closingQuote? quote escaped offset (cs ++ [c]) = none := by
  fun_induction closingQuote? quote escaped offset cs with
  | case1 => simp [closingQuote?, hc]
  | case2 escaped offset cs ih => simpa [closingQuote?] using ih h
  | case3 => cases h
  | case4 escaped offset d cs hback hquote ih => simpa [closingQuote?, hback, hquote] using ih h

theorem Rejects.concat (h : Rejects offset done cs fault) (hc : markKind? c = some kind) :
    Rejects offset done (cs ++ [c]) fault := by
  by_cases hfault : ∀ line, fault ≠ .unterminated line
  · exact h.append (ends_of_mark hc) hfault
  · cases h with
    | @unterminated quote cs hquote hclose =>
      refine .unterminated hquote (closingQuote?_concat ?_ hclose)
      rintro rfl
      rw [(classes_of_markKind? hc).2.1] at hquote
      cases hquote
    | _ => exact absurd (by simp) hfault

theorem Scans.scanFrom_mark (h : Scans offset done cs stop last []) (hc : markKind? c = some kind) :
    scanFrom offset done (cs ++ c :: rest) =
      scanFrom (stop + 1) (⟨kind, stop, stop + 1⟩ :: last) rest := by
  rw [(h.append (ends_of_mark hc)).scanFrom_eq, List.nil_append, Scan.scanFrom_mark hc,
    utf8Size_of_mark hc]

theorem Scans.scanFrom_closeParen (h : Scans offset done cs stop last []) (hstop : 0 < stop) :
    scanFrom offset done (cs ++ [')']) =
      .ok (⟨.blank, stop + 1, stop + 1⟩ :: ⟨.closeParen, stop, stop + 1⟩ :: last) := by
  rw [h.scanFrom_mark rfl, scanFrom, addBlank_eq ⟨_, rfl, rfl, hstop⟩]

theorem exists_scans_of_blank (hoffset : 0 < offset) (hdone : ∀ t ∈ done, 0 < t.start)
    (hcs : ∀ c ∈ cs, isBlank c = true) :
    ∃ lead : List Token, (∀ t ∈ lead, t.kind = .blank) ∧
      Scans offset done cs (offset + byteSize cs) (lead ++ done) [] := by
  induction cs generalizing offset done with
  | nil => exact ⟨[], by simp, .refl⟩
  | cons c cs ih =>
    rw [List.forall_mem_cons] at hcs
    obtain ⟨first, hfirst, hblank⟩ := exists_addBlank offset (offset + c.utf8Size) hdone
    have hnew : ∀ t ∈ first ++ done, 0 < t.start := by
      rw [List.forall_mem_append]
      exact ⟨fun t ht => (hblank t ht).2 ▸ hoffset, hdone⟩
    obtain ⟨lead, hlead, hscans⟩ := ih (Nat.add_pos_left hoffset c.utf8Size) hnew hcs.2
    refine ⟨lead ++ first, ?_, ?_⟩
    · rw [List.forall_mem_append]
      exact ⟨hlead, fun t ht => (hblank t ht).1⟩
    · rw [Text.byteSize_cons, ← Nat.add_assoc, List.append_assoc]
      exact .blank hcs.1 (by rwa [hfirst])

theorem exists_scans_of_mark (hc : markKind? c = some kind)
    (hscan : scanFrom offset done (cs ++ [c]) = .ok tokens) :
    ∃ last, Scans offset done cs (offset + byteSize cs) last [] := by
  cases htext : scanFrom offset done cs with
  | ok =>
    obtain ⟨stop, last, hscans, -⟩ := exists_scans htext
    obtain rfl : stop = offset + byteSize cs := hscans.size
    exact ⟨last, hscans⟩
  | error fault =>
    obtain ⟨stop, last, rest, hscans, hrejects⟩ := exists_rejects htext
    rw [(hscans.append (ends_of_mark hc)).scanFrom_eq, (hrejects.concat hc).scanFrom_eq] at hscan
    cases hscan

/-! ## Where arguments start -/

/-- Tokens, the last one first, behind which an argument starts: the last one opens the call or ends
the argument before, and there is no label mark. -/
structure BeforeArgument (done : List Token) : Prop where
  head : ∃ t ∈ done.head?, t.kind = .openParen ∨ t.kind = .comma
  unlabelled : isLabelled done = false

theorem BeforeArgument.significant (h : BeforeArgument done) :
    done.any Token.isSignificant = true ∧ done.head?.any Token.isSignificant = true := by
  obtain ⟨t, ht, hkind⟩ := h.head
  have hsig : t.isSignificant = true := by
    rcases hkind with hkind | hkind <;> rw [Token.isSignificant, hkind] <;> rfl
  rw [List.any_eq_true, Option.mem_def.mp ht]
  exact ⟨⟨t, List.mem_of_mem_head? ht, hsig⟩, hsig⟩

theorem BeforeArgument.isLabelCandidate_eq (h : BeforeArgument done) (offset : Nat) :
    isLabelCandidate offset done = false := by
  obtain ⟨t, ht, hkind⟩ := h.head
  unfold isLabelCandidate
  split
  · cases ht
    simp at hkind
  · rfl

theorem BeforeArgument.parallel {base : List Token} (h : BeforeArgument base)
    (h' : BeforeArgument done) : Parallel base done where
  significant := h.significant.1.trans h'.significant.1.symm
  labelled := h.unlabelled.trans h'.unlabelled.symm
  head := h.significant.2.trans h'.significant.2.symm
  candidate := h.isLabelCandidate_eq
  candidate' := h'.isLabelCandidate_eq

def callLine (name : String) (cs : List Char) : List Char :=
  ' ' :: (name.toList ++ '(' :: (cs ++ [')']))

/-- The offset behind the first parenthesis of a call. -/
def callStart (name : String) : Nat := 1 + byteSize name.toList + 1

def callFront (name : String) : List Token :=
  ⟨.openParen, 1 + byteSize name.toList, callStart name⟩ :: (place 1 (ofName name)).reverse

theorem callStart_pos : 0 < callStart name := Nat.succ_pos _

theorem not_mark_of_mem_callFront (hname : IsName name) : ∀ t ∈ callFront name, ¬ t.IsMark := by
  have hspaced : Spaced none (ofName name) [] := spaced_ofName hname (by simp [EndsRun])
  rw [callFront, List.forall_mem_cons]
  exact ⟨by simp [Token.IsMark], fun t ht => not_mark_of_spaced hspaced t (List.mem_reverse.mp ht)⟩

theorem beforeArgument_callFront (hname : IsName name) : BeforeArgument (callFront name) := by
  refine ⟨⟨_, rfl, .inl rfl⟩, ?_⟩
  rw [isLabelled, List.any_eq_false]
  exact fun t ht h => not_mark_of_mem_callFront hname t ht (.inl (of_decide_eq_true h))

theorem start_pos_callFront (hname : IsName name) : ∀ t ∈ callFront name, 0 < t.start := by
  have hspaced : Spaced none (ofName name) [] := spaced_ofName hname (by simp [EndsRun])
  exact List.forall_mem_cons.mpr ⟨Nat.add_pos_left Nat.one_pos _,
    (scanFrom_start_of_spaced hspaced).2.start_pos⟩

theorem scan_callLine (hname : IsName name) (cs : List Char) :
    scan (callLine name cs) =
      (scanFrom (callStart name) (callFront name) (cs ++ [')'])).map List.reverse := by
  have hspaced : Spaced none (ofName name) ('(' :: (cs ++ [')'])) :=
    spaced_ofName hname (endsRun_cons rfl)
  have hcallee := (scanFrom_start_of_spaced hspaced).1
  rw [allChars_ofName] at hcallee
  rw [callLine, scan_cons_blank, hcallee, scanFrom_mark rfl]
  rfl

/-! ## Single arguments -/

/-- A text in the parentheses of a call, with the tokens that it has as the only argument. -/
structure Argument (name : String) where
  text : List Char
  tokens : List Token
  scans : Scans (callStart name) (callFront name) text (callStart name + byteSize text)
    (tokens.reverse ++ callFront name) []
  lies : ∀ t ∈ tokens, Lies t (callStart name) (callStart name + byteSize text)

/-- The tokens of an argument that stands `k` bytes behind the first one, with a mark of the given
kind behind it. -/
def Argument.placed (a : Argument name) (k : Nat) (kind : TokenKind) : List Token :=
  a.tokens.map (Token.moved (· + k)) ++
    [⟨kind, callStart name + k + byteSize a.text, callStart name + k + byteSize a.text + 1⟩]

theorem Argument.scans_moved (a : Argument name) (hname : IsName name) (hdone : BeforeArgument done)
    (k : Nat) :
    Scans (callStart name + k) done a.text (callStart name + k + byteSize a.text)
      ((a.tokens.map (Token.moved (· + k))).reverse ++ done) [] := by
  have hφ : Shifts (· + k) (callStart name) (callStart name + k) := fun n => by
    dsimp only
    omega
  obtain ⟨more, hmore, -, hscans⟩ := a.scans.moved hφ callStart_pos
    (Nat.add_pos_left callStart_pos k) (Nat.le_refl _) (List.nil_append _).symm (by simp)
    ((beforeArgument_callFront hname).parallel hdone)
  obtain rfl : a.tokens.reverse = more := List.append_cancel_right hmore
  have hstop : callStart name + byteSize a.text + k = callStart name + k + byteSize a.text := by
    omega
  rwa [List.map_nil, List.nil_append, hstop, List.map_reverse] at hscans

theorem Argument.scanFrom_placed (a : Argument name) (hname : IsName name)
    (hdone : BeforeArgument done) (hc : markKind? c = some kind) (k : Nat) (rest : List Char) :
    scanFrom (callStart name + k) done (a.text ++ c :: rest) =
      scanFrom (callStart name + k + byteSize a.text + 1) ((a.placed k kind).reverse ++ done)
        rest := by
  rw [(a.scans_moved hname hdone k).scanFrom_mark hc, placed, List.reverse_concat, List.cons_append]

theorem Argument.kind_ne_impliedLabel (a : Argument name) (hname : IsName name) :
    ∀ t ∈ a.tokens, t.kind ≠ .impliedLabel := by
  intro t ht
  have hinner := a.scans.inner callStart_pos fun u hu =>
    ⟨start_pos_callFront hname u hu, fun hkind => not_mark_of_mem_callFront hname u hu (.inr hkind)⟩
  exact (hinner t (List.mem_append_left _ (List.mem_reverse.mpr ht))).2

theorem Argument.blank_of_text (a : Argument name) (hname : IsName name)
    (htext : ∀ c ∈ a.text, isBlank c = true) : ∀ t ∈ a.tokens, t.kind = .blank := by
  obtain ⟨lead, hlead, hscans⟩ :=
    exists_scans_of_blank callStart_pos (start_pos_callFront hname) htext
  have hstop : 0 < callStart name + byteSize a.text := Nat.add_pos_left callStart_pos _
  have heq := (a.scans.scanFrom_closeParen hstop).symm.trans (hscans.scanFrom_closeParen hstop)
  simp only [Except.ok.injEq, List.cons.injEq, true_and, List.append_cancel_right_eq] at heq
  intro t ht
  exact hlead t (heq ▸ List.mem_reverse.mpr ht)

/-! ## All arguments of a call -/

/-- The tokens of arguments that start `k` bytes behind the first one, with a comma behind each of
them and a parenthesis behind the last one. -/
def placeArguments (k : Nat) : List (Argument name) → List Token
  | [] => []
  | [a] => a.placed k .closeParen
  | a :: b :: rest =>
    a.placed k .comma ++ placeArguments (k + byteSize a.text + 1) (b :: rest)

variable {args : List (Argument name)}

theorem BeforeArgument.next {a : Argument name} (hdone : BeforeArgument done)
    (ha : ∀ t ∈ a.tokens, t.kind ≠ .label) (k : Nat) :
    BeforeArgument ((a.placed k .comma).reverse ++ done) := by
  rw [Argument.placed, List.reverse_concat, List.cons_append]
  refine ⟨⟨_, rfl, .inr rfl⟩, ?_⟩
  have hmoved : isLabelled (a.tokens.map (Token.moved (· + k))).reverse = false := by
    rw [isLabelled, List.any_reverse, List.any_map, List.any_eq_false]
    exact fun t ht h => ha t ht (of_decide_eq_true h)
  have hunlabelled := hdone.unlabelled
  unfold isLabelled at hmoved hunlabelled ⊢
  rw [List.any_cons, List.any_append, hmoved, hunlabelled]
  rfl

def argumentText (args : List (Argument name)) : List Char :=
  [','].intercalate (args.map Argument.text)

theorem argumentText_singleton (a : Argument name) : argumentText [a] = a.text :=
  List.intercalate_singleton

theorem argumentText_cons_cons (a b : Argument name) :
    argumentText (a :: b :: args) = a.text ++ ',' :: argumentText (b :: args) := by
  simp [argumentText, List.intercalate]

theorem scanFrom_placeArguments (hname : IsName name) (hdone : BeforeArgument done)
    (hargs : args ≠ []) (hlabel : ∀ a ∈ args, ∀ t ∈ a.tokens, t.kind ≠ .label) :
    ∃ b : Token, b.kind = .blank ∧
      scanFrom (callStart name + k) done (argumentText args ++ [')']) =
        .ok (b :: ((placeArguments k args).reverse ++ done)) := by
  fun_induction placeArguments k args generalizing done with
  | case1 => exact absurd rfl hargs
  | case2 k a =>
    have hhead : ∃ t ∈ ((a.placed k .closeParen).reverse ++ done).head?,
        t.isSignificant = true ∧ 0 < t.start := by
      rw [Argument.placed, List.reverse_concat, List.cons_append]
      exact ⟨_, rfl, rfl, Nat.add_pos_left (Nat.add_pos_left callStart_pos k) _⟩
    rw [argumentText_singleton, a.scanFrom_placed hname hdone rfl, scanFrom, addBlank_eq hhead]
    refine ⟨_, ?_, rfl⟩
    rfl
  | case3 k a b rest ih =>
    rw [List.forall_mem_cons] at hlabel
    obtain ⟨blank, hblank, hrest⟩ :=
      ih (hdone.next hlabel.1 k) (List.cons_ne_nil b rest) hlabel.2
    have hoffset : callStart name + (k + byteSize a.text + 1) =
        callStart name + k + byteSize a.text + 1 := by omega
    refine ⟨blank, hblank, ?_⟩
    rw [argumentText_cons_cons, List.append_assoc, List.cons_append,
      a.scanFrom_placed hname hdone rfl, ← hoffset, hrest, List.reverse_append, List.append_assoc]

/-- The line of a call is scanned to the tokens of its name and of its arguments, and the end of the
line is a blank. -/
theorem scan_arguments (hname : IsName name) (hargs : args ≠ [])
    (hlabel : ∀ a ∈ args, ∀ t ∈ a.tokens, t.kind ≠ .label) :
    ∃ b : Token, b.kind = .blank ∧
      scan (callLine name (argumentText args)) =
        .ok (place 1 (ofName name) ++ ⟨.openParen, 1 + byteSize name.toList, callStart name⟩ ::
          (placeArguments 0 args ++ [b])) := by
  obtain ⟨b, hb, hscan⟩ :=
    scanFrom_placeArguments (k := 0) hname (beforeArgument_callFront hname) hargs hlabel
  refine ⟨b, hb, ?_⟩
  rw [scan_callLine hname, ← Nat.add_zero (callStart name), hscan]
  simp [Except.map, callFront]

/-! ## Texts that are arguments -/

def tokensBetween (first last : Nat) (tokens : List Token) : List Token :=
  tokens.filter fun t => first ≤ t.start && t.stop ≤ last

theorem tokensBetween_eq {first last : Nat} {front back : List Token}
    (hfront : ∀ t ∈ front, t.start < first) (htokens : ∀ t ∈ tokens, Lies t first last)
    (hback : ∀ t ∈ back, last < t.stop) :
    tokensBetween first last (front ++ tokens ++ back) = tokens := by
  have hbefore : ∀ t ∈ front, ¬ (first ≤ t.start && t.stop ≤ last) = true := by
    intro t ht
    have hstart := hfront t ht
    simp
    omega
  have hbehind : ∀ t ∈ back, ¬ (first ≤ t.start && t.stop ≤ last) = true := by
    intro t ht
    have hstop := hback t ht
    simp
    omega
  have hinner : ∀ t ∈ tokens, (first ≤ t.start && t.stop ≤ last) = true := fun t ht => by
    simp [(htokens t ht).start, (htokens t ht).next]
  rw [tokensBetween, List.filter_append, List.filter_append, List.filter_eq_nil_iff.mpr hbefore,
    List.filter_eq_nil_iff.mpr hbehind, List.filter_eq_self.mpr hinner, List.nil_append,
    List.append_nil]

theorem start_of_mem_callFront (hname : IsName name) :
    ∀ t ∈ callFront name, t.start < callStart name := by
  rw [callFront, List.forall_mem_cons]
  refine ⟨Nat.lt_succ_self _, fun t ht => ?_⟩
  rw [List.mem_reverse] at ht
  have hdot : '.'.utf8Size = 1 := rfl
  obtain ⟨run, -, ⟨heq, hlexemes⟩ | ⟨heq, hlexemes⟩⟩ := hname.ofName_eq
  · rw [hlexemes, place_cons, place_nil, List.mem_singleton] at ht
    subst ht
    show 1 < 1 + _ + 1
    omega
  · rw [callStart, heq, Text.byteSize_cons]
    rw [hlexemes, place_cons, place_cons, place_nil, List.mem_cons, List.mem_singleton] at ht
    rcases ht with rfl | rfl
    · show 1 < _
      omega
    · show 1 + 1 < _
      omega

/-- What stands between the parentheses of a line that is scanned is an argument. Its tokens are
those between the parentheses. -/
theorem exists_argument (hname : IsName name) (hscan : scan (callLine name cs) = .ok tokens) :
    ∃ a : Argument name, a.text = cs ∧
      tokensBetween (callStart name) (callStart name + byteSize cs) tokens = a.tokens := by
  have hbase := beforeArgument_callFront hname
  rw [scan_callLine hname] at hscan
  obtain ⟨done, hdone, rfl⟩ := ok_of_map_eq_ok hscan
  obtain ⟨last, hscans⟩ := exists_scans_of_mark rfl hdone
  obtain ⟨more, rfl, hlies, -⟩ := hscans.moved (φ := id) (fun _ => rfl) callStart_pos
    callStart_pos (Nat.le_refl _) (List.nil_append _).symm (by simp) (hbase.parallel hbase)
  have hmore : ∀ t ∈ more.reverse, Lies t (callStart name) (callStart name + byteSize cs) :=
    fun t ht => (hlies t (List.mem_reverse.mp ht)).resolve_left (by simp)
  rw [hscans.scanFrom_closeParen (Nat.add_pos_left callStart_pos _)] at hdone
  cases hdone
  refine ⟨⟨cs, more.reverse, by rwa [List.reverse_reverse], hmore⟩, rfl, ?_⟩
  rw [List.reverse_cons, List.reverse_cons, List.reverse_append, List.append_assoc]
  exact tokensBetween_eq (fun t ht => start_of_mem_callFront hname t (List.mem_reverse.mp ht))
    hmore (by simp)

end Scan

end MacroAsm

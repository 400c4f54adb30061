import MacroAsm.Proofs.Print.Lexemes
import MacroAsm.Proofs.Print.Quoted
import MacroAsm.Proofs.Token.Context
import MacroAsm.Proofs.Token.Marks

/-!
# Scanning the lexemes of a printed node

`Lexeme.Fits` says what must stand before and after a lexeme so that the scanner takes it for a
token of its own: a run must end where the next lexeme starts, and blanks must follow a token that
is more than blanks. `Lexeme.scanFrom_of_spaced` is the run over lexemes which all fit.
-/

namespace MacroAsm

namespace Scan

variable {offset : Nat} {done : List Token} {kind : TokenKind} {c : Char} {cs rest : List Char}

/-! ## Single lexemes -/

theorem operatorLength_symbol {o : Operator} (ho : o ∉ [Operator.subscript, .cast, .field])
    (hrest : ∀ c ∈ rest.head?, c ∉ operatorChars) :
    operatorLength (o.symbol.toList ++ rest) = o.symbol.toList.length := by
  rw [operatorLength_append hrest]
  cases o <;> first | rfl | exact absurd (by decide) ho

theorem scanFrom_string
    (hclose : ∀ offset, closingQuote? '"' false offset (cs ++ '"' :: rest) =
      some (offset + Text.byteSize cs, rest)) :
    scanFrom offset done ('"' :: (cs ++ '"' :: rest)) =
      scanFrom (offset + 1 + Text.byteSize cs + 1)
        (⟨.string, offset + 1, offset + 1 + Text.byteSize cs⟩ :: done) rest := by
  have hlexes : Lexes offset ('"' :: (cs ++ '"' :: rest)) _ _ rest := .string rfl (hclose _)
  exact hlexes.scanFrom_eq ⟨by simp, by simp⟩

theorem scanFrom_operator {o : Operator} (ho : o ∉ [Operator.subscript, .cast, .field])
    (hrest : ∀ c ∈ rest.head?, c ∉ operatorChars) :
    scanFrom offset done (o.symbol.toList ++ rest) =
      scanFrom (offset + Text.byteSize o.symbol.toList)
        (⟨.operator, offset, offset + Text.byteSize o.symbol.toList⟩ :: done) rest := by
  have hlength := operatorLength_symbol ho hrest
  have hsymbol : ∃ c cs, o.symbol.toList = c :: cs ∧ c ∈ operatorChars := by
    cases o <;> first | exact absurd (by decide) ho | exact ⟨_, _, rfl, by decide⟩
  have hsize : Text.byteSize o.symbol.toList = o.symbol.toList.length := by
    cases o <;> rfl
  obtain ⟨c, cs, hcs, hc⟩ := hsymbol
  rw [hsize]
  rw [hcs, List.cons_append, List.length_cons] at hlength ⊢
  have hlexes : Lexes offset _ _ _ _ := .operator hc hlength (Nat.succ_pos _)
  rw [Nat.add_sub_cancel, List.drop_left] at hlexes
  exact hlexes.scanFrom_eq ⟨by simp, by simp⟩

theorem addBlank_eq {stop : Nat} (hdone : ∃ t ∈ done.head?, t.isSignificant = true ∧ 0 < t.start) :
    addBlank offset stop done = ⟨.blank, offset, stop⟩ :: done := by
  obtain ⟨t, ht, hsignificant, hstart⟩ := hdone
  have hcandidate : isLabelCandidate offset done = false := by
    unfold isLabelCandidate
    split
    · cases ht
      cases hstart
    · rfl
  rw [addBlank, hcandidate, ht]
  simp [hsignificant]

theorem scanFrom_blank (hdone : ∃ t ∈ done.head?, t.isSignificant = true ∧ 0 < t.start) :
    scanFrom offset done (' ' :: rest) =
      scanFrom (offset + 1) (⟨.blank, offset, offset + 1⟩ :: done) rest := by
  have hblank : isBlank ' ' = true ∧ ' '.utf8Size = 1 := by decide
  rw [scanFrom.eq_def]
  simp [hblank, addBlank_eq hdone]

end Scan

/-! ## Lexemes in a row -/

namespace Lexeme

open Scan

def token (offset : Nat) (x : Lexeme) : Token :=
  if x.kind = .string then ⟨.string, offset + 1, offset + 1 + Text.byteSize x.text⟩
  else ⟨x.kind, offset, offset + Text.byteSize x.text⟩

def place (offset : Nat) : List Lexeme → List Token
  | [] => []
  | x :: xs => x.token offset :: place (offset + Text.byteSize x.chars) xs

def EndsRun (rest : List Char) : Prop := ∀ c ∈ rest.head?, continuesRun c = false

/-- The token before is more than blanks. -/
def IsAfterSignificant (before : Option TokenKind) : Prop :=
  ∃ kind ∈ before, kind.isSignificant = true

/-- The lexeme is one token between a token of the kind `before` and the characters `rest`. -/
inductive Fits (before : Option TokenKind) : Lexeme → List Char → Prop
  | mark {kind c rest} (h : markKind? c = some kind) : Fits before ⟨kind, [c]⟩ rest
  | run {kind cs rest} (hcs : IsRun kind cs) (hrest : EndsRun rest) : Fits before ⟨kind, cs⟩ rest
  | string {cs rest} (hcs : ∀ c ∈ cs, IsQuotable c) :
      Fits before ⟨.string, Text.quotedChars cs⟩ rest
  | operator {o rest} (ho : o ∉ [Operator.subscript, .cast, .field])
      (hrest : ∀ c ∈ rest.head?, c ∉ operatorChars) : Fits before (ofOperator o) rest
  | cast {rest} (h : before ≠ none) : Fits before (ofOperator .cast) rest
  | blank {rest} (h : IsAfterSignificant before) : Fits before blank rest

/-- All lexemes fit between a token of the kind `before` and the characters `rest`. -/
def Spaced (before : Option TokenKind) : List Lexeme → List Char → Prop
  | [], _ => True
  | x :: xs, rest => x.Fits before (allChars xs ++ rest) ∧ Spaced (some x.kind) xs rest

variable {read : NumeralReader} {n : Node} {x : Lexeme} {xs ys : List Lexeme} {rest : List Char}
  {offset : Nat} {done : List Token}

@[simp] theorem token_of_ne {kind : TokenKind} {text : List Char} (h : kind ≠ .string) :
    (⟨kind, text⟩ : Lexeme).token offset = ⟨kind, offset, offset + Text.byteSize text⟩ := by
  simp [token, h]

@[simp] theorem place_nil : place offset [] = [] := rfl

@[simp] theorem place_cons :
    place offset (x :: xs) = x.token offset :: place (offset + Text.byteSize x.chars) xs := rfl

@[simp] theorem place_append :
    place offset (xs ++ ys) =
      place offset xs ++ place (offset + Text.byteSize (allChars xs)) ys := by
  induction xs generalizing offset with
  | nil => rfl
  | cons x xs ih =>
    rw [List.cons_append, place_cons, place_cons, ih, allChars_cons, Text.byteSize_append,
      Nat.add_assoc, List.cons_append]

/-- The tokens before a lexeme: none of them starts the line, and not all are blanks. -/
structure Opened (done : List Token) : Prop where
  start_pos : ∀ t ∈ done, 0 < t.start
  significant : done ≠ [] → ∃ t ∈ done, t.isSignificant = true

theorem kind_token : (x.token offset).kind = x.kind := by
  unfold token
  split <;> simp [*]

@[simp] theorem kind_head_token :
    (x.token offset :: done).head?.map Token.kind = some x.kind :=
  congrArg some kind_token

theorem exists_head_of_significant (h : IsAfterSignificant (done.head?.map Token.kind)) :
    ∃ t ∈ done.head?, t.isSignificant = true := by
  obtain ⟨kind, hkind, hsignificant⟩ := h
  obtain ⟨t, ht, rfl⟩ := Option.map_eq_some_iff.mp hkind
  exact ⟨t, ht, hsignificant⟩

theorem scanFrom_of_fits (h : x.Fits (done.head?.map Token.kind) rest) (hdone : Opened done) :
    scanFrom offset done (x.chars ++ rest) =
      scanFrom (offset + Text.byteSize x.chars) (x.token offset :: done) rest := by
  cases h with
  | mark h =>
    have hkind := kind_ne_string_of_mark h
    simp [hkind, scanFrom_mark h]
  | run hcs hrest =>
    have hkind := kind_ne_string_of_run hcs
    simp [hkind, scanFrom_run hcs hrest]
  | @string cs _ hcs =>
    have hclose : offset + 1 + Text.byteSize (Text.quotedChars cs) + 1 =
        offset + Text.byteSize ('"' :: Text.quotedChars cs ++ ['"']) := by
      rw [Text.byteSize_append, Text.byteSize_cons, Text.byteSize_cons, Text.byteSize_nil]
      have hsize : '"'.utf8Size = 1 := rfl
      omega
    rw [chars_string, ← hclose, List.append_assoc]
    exact scanFrom_string fun offset => Text.closingQuote?_quotedChars hcs offset _
  | @operator o _ ho hrest =>
    have hcast : o ≠ .cast := by
      rintro rfl
      exact ho (by decide)
    rw [chars_ofOperator, scanFrom_operator ho hrest]
    simp [ofOperator, hcast]
  | cast h =>
    refine scanFrom_cast (hdone.significant ?_)
    rintro rfl
    exact h rfl
  | blank h =>
    obtain ⟨t, ht, hsignificant⟩ := exists_head_of_significant h
    exact scanFrom_blank ⟨t, ht, hsignificant, hdone.start_pos t (List.mem_of_mem_head? ht)⟩

theorem Opened.cons (h : x.Fits (done.head?.map Token.kind) rest) (hdone : Opened done)
    (hoffset : 0 < offset) : Opened (x.token offset :: done) where
  start_pos := by
    have hstart : 0 < (x.token offset).start := by
      unfold token
      split
      · exact Nat.succ_pos offset
      · exact hoffset
    exact List.forall_mem_cons.mpr ⟨hstart, hdone.start_pos⟩
  significant := by
    have hself : x.kind.isSignificant = true →
        ∃ t ∈ x.token offset :: done, t.isSignificant = true := fun hx =>
      ⟨_, List.mem_cons_self .., by rwa [Token.isSignificant, kind_token]⟩
    intro _
    cases h with
    | mark h =>
      apply hself
      unfold markKind? at h
      split at h <;> cases h <;> rfl
    | run hcs =>
      apply hself
      rcases hcs.kind_eq with rfl | rfl <;> rfl
    | @operator o =>
      apply hself
      unfold ofOperator
      split <;> rfl
    | string => exact hself rfl
    | cast => exact hself rfl
    | blank h =>
      obtain ⟨t, ht, hsignificant⟩ := exists_head_of_significant h
      exact ⟨t, List.mem_cons_of_mem _ (List.mem_of_mem_head? ht), hsignificant⟩

/-- The scanner takes lexemes that fit for one token each. -/
theorem scanFrom_of_spaced (h : Spaced (done.head?.map Token.kind) xs rest) (hoffset : 0 < offset)
    (hdone : Opened done) :
    scanFrom offset done (allChars xs ++ rest) =
      scanFrom (offset + Text.byteSize (allChars xs)) ((place offset xs).reverse ++ done) rest := by
  induction xs generalizing offset done with
  | nil => rfl
  | cons x xs ih =>
    obtain ⟨hx, hxs⟩ := h
    have hspaced : Spaced ((x.token offset :: done).head?.map Token.kind) xs rest := by
      rwa [kind_head_token]
    rw [allChars_cons, List.append_assoc, scanFrom_of_fits hx hdone,
      ih hspaced (by omega) (hdone.cons hx hoffset)]
    simp [Nat.add_assoc]

theorem opened_of_spaced (h : Spaced (done.head?.map Token.kind) xs rest) (hoffset : 0 < offset)
    (hdone : Opened done) : Opened ((place offset xs).reverse ++ done) := by
  induction xs generalizing offset done with
  | nil => exact hdone
  | cons x xs ih =>
    obtain ⟨hx, hxs⟩ := h
    have hspaced : Spaced ((x.token offset :: done).head?.map Token.kind) xs rest := by
      rwa [kind_head_token]
    rw [place_cons, List.reverse_cons, List.append_assoc, List.singleton_append]
    exact ih hspaced (by omega) (hdone.cons hx hoffset)

theorem scanFrom_start_of_spaced (h : Spaced none xs rest) :
    scanFrom 1 [] (allChars xs ++ rest) =
        scanFrom (1 + Text.byteSize (allChars xs)) (place 1 xs).reverse rest ∧
      Opened (place 1 xs).reverse := by
  have hspaced : Spaced (([] : List Token).head?.map Token.kind) xs rest := h
  have hnil : Opened [] := ⟨by simp, by simp⟩
  have hscan := scanFrom_of_spaced hspaced Nat.one_pos hnil
  have hopened := opened_of_spaced hspaced Nat.one_pos hnil
  rw [List.append_nil] at hscan hopened
  exact ⟨hscan, hopened⟩

theorem Fits.not_mark {before : Option TokenKind} (h : x.Fits before rest) :
    ¬ (x.token offset).IsMark := by
  have hkind : x.kind ≠ .label ∧ x.kind ≠ .impliedLabel := by
    cases h with
    | mark h => exact kind_ne_of_markKind? h
    | run hcs => rcases hcs.kind_eq with rfl | rfl <;> simp
    | @operator o =>
      unfold ofOperator
      split <;> simp
    | string => simp
    | cast => simp [ofOperator]
    | blank => simp
  rintro (h | h)
  · exact hkind.1 (by rwa [kind_token] at h)
  · exact hkind.2 (by rwa [kind_token] at h)

theorem not_mark_of_spaced {before : Option TokenKind} (h : Spaced before xs rest) :
    ∀ t ∈ place offset xs, ¬ t.IsMark := by
  induction xs generalizing before offset with
  | nil => simp
  | cons x xs ih =>
    rw [place_cons, List.forall_mem_cons]
    exact ⟨h.1.not_mark, ih h.2⟩

theorem kinds_place : (place offset xs).map Token.kind = xs.map Lexeme.kind := by
  induction xs generalizing offset with
  | nil => rfl
  | cons x xs ih => rw [place_cons, List.map_cons, List.map_cons, kind_token, ih]

theorem length_place : (place offset xs).length = xs.length := by
  rw [← List.length_map, kinds_place, List.length_map]

theorem getLast_place :
    (place offset xs).getLast?.map Token.kind = xs.getLast?.map Lexeme.kind := by
  rw [← List.getLast?_map, ← List.getLast?_map, kinds_place]

theorem mem_place {t : Token} (h : t ∈ place offset xs) : ∃ x ∈ xs, t.kind = x.kind := by
  have hkind : t.kind ∈ (place offset xs).map Token.kind := List.mem_map_of_mem h
  rw [kinds_place] at hkind
  obtain ⟨x, hx, hkind⟩ := List.mem_map.mp hkind
  exact ⟨x, hx, hkind.symm⟩

/-! ## Where lexemes fit -/

variable {before : Option TokenKind}

theorem Spaced.append (hxs : Spaced before xs (allChars ys ++ rest))
    (hlast : ∀ x ∈ xs.getLast?, x.kind.isSignificant = true)
    (hnil : xs = [] → IsAfterSignificant before)
    (hys : ∀ before, IsAfterSignificant before → Spaced before ys rest) :
    Spaced before (xs ++ ys) rest := by
  induction xs generalizing before with
  | nil => exact hys before (hnil rfl)
  | cons x xs ih =>
    obtain ⟨hx, hxs⟩ := hxs
    have hx' : x.Fits before (allChars (xs ++ ys) ++ rest) := by
      rwa [allChars_append, List.append_assoc]
    refine ⟨hx', ih hxs (fun y hy => ?_) fun hxs => ?_⟩
    · apply hlast y
      rw [List.getLast?_cons, Option.mem_def.mp hy]
      rfl
    · subst hxs
      exact ⟨x.kind, rfl, hlast x rfl⟩

theorem Spaced.append_of_forall (hxs : Spaced before xs (allChars ys ++ rest))
    (hys : ∀ before, Spaced before ys rest) : Spaced before (xs ++ ys) rest := by
  induction xs generalizing before with
  | nil => exact hys before
  | cons x xs ih =>
    obtain ⟨hx, hxs⟩ := hxs
    have hx' : x.Fits before (allChars (xs ++ ys) ++ rest) := by
      rwa [allChars_append, List.append_assoc]
    exact ⟨hx', ih hxs⟩

theorem endsRun_cons {c : Char} (hc : continuesRun c = false) : EndsRun (c :: rest) := by
  rintro _ ⟨⟩
  exact hc

theorem spaced_ofName {s : String} (h : IsName s) (hrest : EndsRun rest) :
    Spaced before (ofName s) rest := by
  obtain ⟨run, hrun, ⟨-, heq⟩ | ⟨-, heq⟩⟩ := h.ofName_eq
  · rw [heq]
    exact ⟨.run hrun hrest, trivial⟩
  · rw [heq]
    exact ⟨.mark rfl, .run hrun hrest, trivial⟩

theorem spaced_ofNumeral {s : String} (h : IsNumeral s) (hrest : EndsRun rest) :
    Spaced before (ofNumeral s) rest := by
  rcases h.ofNumeral_eq with ⟨hrun, heq⟩ | ⟨whole, places, hwhole, hplaces, -, heq⟩
  · rw [heq]
    exact ⟨.run hrun hrest, trivial⟩
  · rw [heq]
    exact ⟨.run hwhole (endsRun_cons rfl), .mark rfl, .run hplaces hrest, trivial⟩

theorem spaced_ofPart {s : String} (h : IsPart s) (hrest : EndsRun rest) :
    Spaced before (ofPart s) rest := by
  obtain ⟨kind, hrun, heq⟩ := h.ofPart_eq
  rw [heq]
  exact ⟨.run hrun hrest, trivial⟩

theorem spaced_ofSize {size : Option String} (h : ∀ part ∈ size, part = "" ∨ IsPart part)
    (hrest : EndsRun rest) : Spaced before (ofSize size) rest := by
  cases size with
  | none => trivial
  | some part =>
    rcases h part rfl with rfl | hpart
    · exact ⟨.mark rfl, trivial⟩
    · exact ⟨.mark rfl, spaced_ofPart hpart hrest⟩

theorem spaced_callee {s : String} {size : Option String} (hs : IsName s)
    (hsize : ∀ part ∈ size, part = "" ∨ IsPart part) (hrest : EndsRun rest) :
    Spaced before (ofName s ++ ofSize size) rest := by
  have hends : EndsRun (allChars (ofSize size) ++ rest) := by
    cases size with
    | none => exact hrest
    | some => exact endsRun_cons rfl
  exact (spaced_ofName hs hends).append_of_forall fun _ => spaced_ofSize hsize hrest

end Lexeme

/-! ## Lines -/

namespace Scan

open Lexeme

variable {offset : Nat} {done : List Token} {xs : List Lexeme}

theorem scanFrom_to_end (h : Spaced (done.head?.map Token.kind) xs []) (hoffset : 0 < offset)
    (hdone : Opened done)
    (hlast : IsAfterSignificant ((xs.getLast?.map Lexeme.kind).or (done.head?.map Token.kind))) :
    ∃ t, t.kind = .blank ∧
      scanFrom offset done (allChars xs) = .ok (t :: ((place offset xs).reverse ++ done)) := by
  have hscan := scanFrom_of_spaced h hoffset hdone
  have hopened := opened_of_spaced h hoffset hdone
  have hhead : ((place offset xs).reverse ++ done).head?.map Token.kind =
      (xs.getLast?.map Lexeme.kind).or (done.head?.map Token.kind) := by
    have hlast : (place offset xs).getLast?.map Token.kind = xs.getLast?.map Lexeme.kind :=
      getLast_place
    rw [List.head?_append, List.head?_reverse, ← hlast]
    cases (place offset xs).getLast? <;> rfl
  obtain ⟨t, ht, hsignificant⟩ := exists_head_of_significant (hhead ▸ hlast)
  have hstart : 0 < t.start := hopened.start_pos t (List.mem_of_mem_head? ht)
  refine ⟨⟨.blank, offset + Text.byteSize (allChars xs), offset + Text.byteSize (allChars xs)⟩, rfl,
    ?_⟩
  rw [← List.append_nil (allChars xs), hscan, scanFrom, addBlank_eq ⟨t, ht, hsignificant, hstart⟩,
    List.append_nil]

theorem scan_of_spaced (h : Spaced none xs [])
    (hlast : ∃ x, xs.getLast? = some x ∧ x.kind.isSignificant = true) :
    ∃ t, t.kind = .blank ∧ scan (' ' :: allChars xs) = .ok (place 1 xs ++ [t]) := by
  obtain ⟨x, hx, hsignificant⟩ := hlast
  have hspaced : Spaced (([] : List Token).head?.map Token.kind) xs [] := h
  obtain ⟨t, ht, hscan⟩ := scanFrom_to_end hspaced Nat.one_pos ⟨by simp, by simp⟩
    ⟨x.kind, by rw [hx]; rfl, hsignificant⟩
  refine ⟨t, ht, ?_⟩
  rw [scan_cons_blank, hscan]
  simp [Except.map]

theorem scanFrom_name_label {name : String} {cs : List Char} (hname : IsName name)
    (hcolon : ∀ c ∈ cs.head?, c ≠ ':') :
    ∃ m : Token, m.kind = .label ∧ Opened (m :: (place 1 (ofName name)).reverse) ∧
      scanFrom 1 [] (name.toList ++ ':' :: cs) =
        scanFrom (1 + Text.byteSize name.toList + 1) (m :: (place 1 (ofName name)).reverse) cs := by
  have hspaced : Spaced none (ofName name) (':' :: cs) := spaced_ofName hname (endsRun_cons rfl)
  obtain ⟨hscan, hopened⟩ := scanFrom_start_of_spaced hspaced
  rw [allChars_ofName] at hscan
  have hsignificant : ∃ t ∈ (place 1 (ofName name)).reverse, t.isSignificant = true := by
    apply hopened.significant
    obtain ⟨run, -, ⟨-, heq⟩ | ⟨-, heq⟩⟩ := hname.ofName_eq <;> simp [heq]
  have hlabelled : isLabelled (place 1 (ofName name)).reverse = false := by
    rw [isLabelled, List.any_eq_false]
    intro t ht h
    exact not_mark_of_spaced hspaced t (List.mem_reverse.mp ht) (.inl (by simpa using h))
  have hstart : 0 < 1 + Text.byteSize name.toList := Nat.add_pos_left Nat.one_pos _
  refine ⟨_, ?kind, ?opened, hscan.trans (scanFrom_label hsignificant hlabelled hcolon)⟩
  case kind => rfl
  case opened =>
    exact ⟨List.forall_mem_cons.mpr ⟨hstart, hopened.start_pos⟩,
      fun _ => ⟨_, List.mem_cons_self .., rfl⟩⟩

theorem scan_label {name : String} (hname : IsName name) (h : Spaced (some .label) xs [])
    (hlast : ∀ x ∈ xs.getLast?, x.kind.isSignificant = true)
    (hcolon : ∀ c ∈ (allChars xs).head?, c ≠ ':') :
    ∃ m t, m.kind = .label ∧ t.kind = .blank ∧
      scan (' ' :: (name.toList ++ ':' :: allChars xs)) = .ok (place 1 (ofName name) ++
        m :: (place (1 + Text.byteSize name.toList + 1) xs ++ [t])) := by
  obtain ⟨m, hm, hopened, hscanName⟩ := scanFrom_name_label hname hcolon
  have hhead : (m :: (place 1 (ofName name)).reverse).head?.map Token.kind = some .label :=
    congrArg some hm
  have hend : IsAfterSignificant ((xs.getLast?.map Lexeme.kind).or
      ((m :: (place 1 (ofName name)).reverse).head?.map Token.kind)) := by
    rw [hhead]
    cases hx : xs.getLast? with
    | none => exact ⟨.label, rfl, rfl⟩
    | some x => exact ⟨x.kind, rfl, hlast x hx⟩
  obtain ⟨t, ht, hscan⟩ := scanFrom_to_end (hhead ▸ h) (Nat.succ_pos _) hopened hend
  refine ⟨m, t, hm, ht, ?_⟩
  rw [scan_cons_blank, hscanName, hscan]
  simp [Except.map]

end Scan

end MacroAsm

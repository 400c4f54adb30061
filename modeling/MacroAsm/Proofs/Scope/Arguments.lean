import MacroAsm.Proofs.Scope.Moved
import MacroAsm.Proofs.Scope.Written
import MacroAsm.Proofs.Token.Arguments

/-!
# Nesting arguments

In the parentheses of a call, the tokens of an argument (`Nest.IsArgument`) are nested as if there
was no call around them (`IsArgument.addTokens_within`): the call takes only commas outside brackets
and the parenthesis that closes it, and an argument has neither. Nor does it matter where in the line
the argument stands (`IsArgument.addTokens_moved`).

So a call is nested to the scopes that its arguments are nested to, each as the only one, and there
is one for each of them, even if it is empty (`addTokens_placeArguments`).
-/

namespace MacroAsm

namespace Nest

variable {cut cut' : Nat → Nat → String} {read : NumeralReader} {n n' : Nesting} {f : Frame}
  {taken depth offset : Nat} {atHead : Bool} {before : Option Token} {t sep : Token}
  {tokens front back opens opens' final : List Token}

/-! ## Inside one more scope -/

/-- What is nested so far, with one more scope open around all of it. -/
def Nesting.within (f : Frame) (n : Nesting) : Nesting := { n with frames := n.frames ++ [f] }

theorem keeps_within (f : Frame) (n : Nesting) : Keeps (Nesting.within f) n false where
  addLeaf _ _ := rfl
  openParen _ := rfl
  openBracket _ := rfl
  openCall _ _ _ _ _ := rfl
  head := rfl

theorem closeParen_within (h : n.frames ≠ []) :
    (n.within f).closeParen offset = (n.closeParen offset).map (Nesting.within f) := by
  obtain ⟨items, depth, _ | ⟨⟨opening, outside, depth'⟩, outer⟩⟩ := n
  · exact absurd rfl h
  cases opening with
  | paren | bracket => rfl
  | call name size bare => cases bare <;> rfl

theorem closeBracket_within (h : n.frames ≠ []) :
    (n.within f).closeBracket offset = (n.closeBracket offset).map (Nesting.within f) := by
  obtain ⟨items, depth, _ | ⟨⟨opening, outside, depth'⟩, outer⟩⟩ := n
  · exact absurd rfl h
  cases opening <;> rfl

theorem nextArgument_within (h : n.frames ≠ []) :
    (n.within f).nextArgument offset = (n.nextArgument offset).map (Nesting.within f) := by
  obtain ⟨items, depth, _ | ⟨⟨opening, outside, depth'⟩, outer⟩⟩ := n
  · exact absurd rfl h
  cases opening <;> rfl

/-! ## Brackets and commas of an argument -/

/-- Tokens that can be an argument of a call: their brackets match, there is no comma outside the
brackets, and none of them makes a label. -/
structure IsArgument (tokens : List Token) : Prop where
  nested : WellNested tokens
  commas : directCommas 0 tokens = 0
  unmarked : ∀ t ∈ tokens, ¬ t.IsMark

theorem length_frames_of_inCall (h : InCall false (n.frames ++ [f]) opens) :
    n.frames.length = opens.length := by
  have hlength := h.length_eq
  rw [List.length_append] at hlength
  exact Nat.add_right_cancel hlength

theorem addToken_within (h : InCall false (n.frames ++ [f]) opens)
    (hopens : openAfter opens t ≠ none) (hcomma : t.kind = .comma → opens ≠ []) :
    addToken cut read (n.within f) false before t tokens =
      (addToken cut read n false before t tokens).map fun result =>
        (result.1.within f, result.2) := by
  have hframes : opens ≠ [] → n.frames ≠ [] := by
    rw [← List.length_pos_iff, ← List.length_pos_iff, length_frames_of_inCall h]
    exact id
  have hclosing : ∀ kind, openAfter opens t = closing kind opens → n.frames ≠ [] := by
    intro kind hmatch
    apply hframes
    rintro rfl
    exact hopens hmatch
  exact addToken_map (keeps_within f n)
    (fun hkind => closeParen_within (hclosing .openParen (by simp [openAfter, hkind])))
    (fun hkind => closeBracket_within (hclosing .openBracket (by simp [openAfter, hkind])))
    fun hkind => nextArgument_within (hframes (hcomma hkind))

theorem headAfter_of_unmarked (h : ¬ t.IsMark) : headAfter false t.kind = false := by
  rw [Token.IsMark, not_or] at h
  unfold headAfter
  split <;> simp_all

/-- Tokens of an argument are nested in a call as without it. -/
theorem addTokens_within (h : InCall false (n.frames ++ [f]) opens)
    (hopens : (tokens.drop taken).foldlM openAfter opens = some final)
    (hcommas : directCommas opens.length (tokens.drop taken) = 0)
    (hmarks : ∀ t ∈ tokens, ¬ t.IsMark) :
    addTokens cut read (n.within f) false before taken tokens =
      (addTokens cut read n false before taken tokens).map (Nesting.within f) := by
  induction tokens generalizing n opens before taken with
  | nil => rfl
  | cons t tokens ih =>
    rw [List.forall_mem_cons] at hmarks
    cases taken with
    | succ taken => exact ih h hopens hcommas hmarks.2
    | zero =>
      have hcomma : t.kind = .comma → opens ≠ [] := by
        rintro hkind rfl
        simp [directCommas, hkind] at hcommas
      have hadd : addToken cut read (n.within f) false before t tokens = _ :=
        addToken_within h (openAfter_ne_none hopens) hcomma
      rw [addTokens, addTokens, hadd]
      cases hresult : addToken cut read n false before t tokens with
      | error => rfl
      | ok result =>
        rw [hresult] at hadd
        obtain ⟨opens', hfold, hcall⟩ :=
          InCall.addToken (n := n.within f) h hadd (openAfter_ne_none hopens)
        have hsplit : t :: tokens = (t :: tokens.take result.2) ++ tokens.drop result.2 := by simp
        rw [List.drop_zero, hsplit, List.foldlM_append, hfold] at hopens
        have hrest : directCommas opens'.length (tokens.drop result.2) ≤
            directCommas opens.length (t :: tokens) := by
          rw [hsplit]
          exact directCommas_append_le hfold
        simp only [headAfter_of_unmarked hmarks.1]
        exact ih hcall hopens (Nat.le_zero.mp (hrest.trans hcommas.le)) hmarks.2

def callFrame (name : String) (size : Option String) (offset : Nat) (args : List Scope) : Frame :=
  ⟨.call name size false offset args, [], 1⟩

variable {name : String} {size : Option String} {args : List Scope}

/-- An argument is nested in a call as without it. -/
theorem IsArgument.addTokens_within (h : IsArgument tokens) :
    addTokens cut read ⟨[], depth, [callFrame name size offset args]⟩ false before 0 tokens =
      (addTokens cut read ⟨[], depth, []⟩ false before 0 tokens).map
        (Nesting.within (callFrame name size offset args)) :=
  Nest.addTokens_within (n := ⟨[], depth, []⟩) .call h.nested h.commas h.unmarked

theorem IsArgument.eq_of_addTokens (h : IsArgument tokens)
    (hadd : addTokens cut read ⟨[], depth, []⟩ false before 0 tokens = .ok n) :
    n = ⟨n.items, depth, []⟩ := by
  have hwithin : addTokens cut read ⟨[], depth, [callFrame "" none 0 []]⟩ false before 0 tokens =
      .ok (n.within (callFrame "" none 0 [])) := by
    rw [h.addTokens_within, hadd]
    rfl
  have hopen : InCall false [callFrame "" none 0 []] [] := .call
  have hopens : (tokens.drop 0).foldlM openAfter [] = some [] := h.nested
  have hcall : InCall false (n.frames ++ [callFrame "" none 0 []]) [] :=
    InCall.addTokens (n := ⟨[], depth, [callFrame "" none 0 []]⟩) hopen hopens hwithin
  have hdepth : Grounded depth n.depth n.frames :=
    Grounded.addTokens (n := ⟨[], depth, []⟩) rfl hadd
  have hnil : n.frames = [] := List.length_eq_zero_iff.mp (length_frames_of_inCall hcall)
  obtain ⟨items, depth', frames⟩ := n
  obtain rfl : frames = [] := hnil
  obtain rfl : depth' = depth := hdepth
  rfl

/-! ## Arguments elsewhere -/

variable {φ : Nat → Nat} {first last : Nat}

theorem closing_moved (kind : TokenKind) (opens : List Token) :
    closing kind (opens.map (Token.moved φ)) =
      (closing kind opens).map (List.map (Token.moved φ)) := by
  cases opens with
  | nil => rfl
  | cons o outer =>
    show (if o.kind = kind then _ else _) = _
    by_cases ho : o.kind = kind
    · simp [closing, ho]
    · simp [closing, ho]

theorem openAfter_moved (opens : List Token) (t : Token) :
    openAfter (opens.map (Token.moved φ)) (t.moved φ) =
      (openAfter opens t).map (List.map (Token.moved φ)) := by
  unfold openAfter
  rw [show (t.moved φ).kind = t.kind from rfl]
  split <;> first | rfl | exact closing_moved _ _

theorem foldlM_openAfter_moved (tokens opens : List Token) :
    (tokens.map (Token.moved φ)).foldlM openAfter (opens.map (Token.moved φ)) =
      (tokens.foldlM openAfter opens).map (List.map (Token.moved φ)) := by
  induction tokens generalizing opens with
  | nil => rfl
  | cons t tokens ih =>
    rw [List.map_cons, List.foldlM_cons, List.foldlM_cons, openAfter_moved]
    cases openAfter opens t with
    | none => rfl
    | some next => exact ih next

theorem directCommas_moved (opens : Nat) :
    directCommas opens (tokens.map (Token.moved φ)) = directCommas opens tokens := by
  induction tokens generalizing opens with
  | nil => rfl
  | cons t tokens ih =>
    rw [List.map_cons, directCommas, directCommas, show (t.moved φ).kind = t.kind from rfl]
    split <;> simp [ih]

theorem IsArgument.moved (h : IsArgument tokens) (φ : Nat → Nat) :
    IsArgument (tokens.map (Token.moved φ)) where
  nested := by
    have hfold := foldlM_openAfter_moved (φ := φ) tokens []
    rw [h.nested] at hfold
    exact hfold
  commas := (directCommas_moved 0).trans h.commas
  unmarked t ht := by
    obtain ⟨u, hu, rfl⟩ := List.mem_map.mp ht
    exact h.unmarked u hu

/-- An argument anywhere in a call is nested to what it is nested to as the only one. -/
theorem IsArgument.addTokens_moved {finish : Nesting → Except Fault Nesting} {m : Nesting}
    (h : IsArgument tokens) (hφ : Function.Injective φ)
    (hmoved : Moved φ cut cut' tokens (tokens.map (Token.moved φ))) (hsep : IsApart sep)
    (hfinish : ∀ n atHead before, addTokens cut' read n atHead before 0 (sep :: back) = finish n) :
    addTokens cut' read ⟨[], depth, [callFrame name size offset args]⟩ false none 0
        (tokens.map (Token.moved φ) ++ sep :: back) = .ok m ↔
      ∃ items, addTokens cut read ⟨[], depth, []⟩ false none 0 tokens = .ok ⟨items, depth, []⟩ ∧
        finish ⟨items, depth, [callFrame name size offset args]⟩ = .ok m := by
  have hopen : InCall false [callFrame name size offset args] [] := .call
  have hopens : ((tokens.map (Token.moved φ)).drop 0).foldlM openAfter [] = some [] :=
    (h.moved φ).nested
  have happend : addTokens cut' read ⟨[], depth, [callFrame name size offset args]⟩ false none 0
      (tokens.map (Token.moved φ) ++ sep :: back) =
        (addTokens cut' read ⟨[], depth, [callFrame name size offset args]⟩ false none 0
          (tokens.map (Token.moved φ))).bind finish := by
    refine addTokens_append_inCall hopen hopens (Nat.zero_le _) ?_ hfinish
    rintro _ ⟨⟩
    exact hsep
  have hown : addTokens cut' read ⟨[], depth, []⟩ false none 0 (tokens.map (Token.moved φ)) = _ :=
    Nest.addTokens_moved (n := ⟨[], depth, []⟩) hφ .none hmoved
  rw [happend, (h.moved φ).addTokens_within, hown]
  cases hadd : addTokens cut read ⟨[], depth, []⟩ false none 0 tokens with
  | error => simp [outcomeMoved, Except.map, Except.mapError, Except.bind]
  | ok n =>
    rw [h.eq_of_addTokens hadd]
    simp [outcomeMoved, Except.map, Except.mapError, Except.bind, Nesting.within, Nesting.moved]

/-! ## All arguments of a call -/

open Scan (Argument argumentText callLine callStart placeArguments)

/-- What an argument is nested to as the only one of its call, the last scope first. -/
def NestsTo (read : NumeralReader) (a : Argument name) (items : List Scope) : Prop :=
  addTokens (cutLine (callLine name a.text)) read ⟨[], 3, []⟩ false none 0 a.tokens =
    .ok ⟨items, 3, []⟩

def argumentScope (items : List Scope) : Scope := ⟨.plain, 2, none, items.reverse⟩

def callScope (name : String) (args : List Scope) : Scope :=
  ⟨.call, 1, some (.call name none []), args⟩

variable {line : List Char} {k : Nat} {a : Argument name} {kind : TokenKind} {m : Nesting}
  {finish : Nesting → Except Fault Nesting}

theorem standsAt_callLine (name : String) (cs : List Char) :
    StandsAt (callLine name cs) (callStart name) cs := by
  refine ⟨' ' :: (name.toList ++ ['(']), [')'], by simp [callLine], ?_⟩
  have hblank : ' '.utf8Size = 1 ∧ '('.utf8Size = 1 := ⟨rfl, rfl⟩
  simp [callStart, hblank, Nat.add_assoc]

theorem addTokens_placed (h : IsArgument a.tokens)
    (hat : StandsAt line (callStart name + k) a.text)
    (hkind : kind = .comma ∨ kind = .closeParen)
    (hfinish : ∀ n atHead before, addTokens (cutLine line) read n atHead before 0
      (⟨kind, callStart name + k + Text.byteSize a.text,
        callStart name + k + Text.byteSize a.text + 1⟩ :: back) = finish n) :
    addTokens (cutLine line) read ⟨[], 3, [callFrame name none offset args]⟩ false none 0
        (a.placed k kind ++ back) = .ok m ↔
      ∃ items, NestsTo read a items ∧
        finish ⟨items, 3, [callFrame name none offset args]⟩ = .ok m := by
  have hcut : AgreeOn (callStart name) (callStart name + Text.byteSize a.text)
      (cutLine (callLine name a.text)) fun start stop => cutLine line (start + k) (stop + k) :=
    agreeOn_moved (standsAt_callLine name a.text) hat fun i _ => by omega
  have hapart : IsApart ⟨kind, callStart name + k + Text.byteSize a.text,
      callStart name + k + Text.byteSize a.text + 1⟩ := by
    rcases hkind with rfl | rfl <;> simp [IsApart]
  rw [Argument.placed, List.append_assoc, List.singleton_append]
  exact h.addTokens_moved (add_left_injective k) (moved_of_agreeOn hcut a.lies) hapart hfinish

theorem addTokens_nextArgument (ht : t.kind = .comma) :
    addTokens cut read n atHead before 0 (t :: back) =
      (n.nextArgument t.start).bind fun n' => addTokens cut read n' false none 0 back := by
  rw [addTokens]
  simp only [addToken, ht, headAfter]
  cases n.nextArgument t.start with
  | error => rfl
  | ok n' =>
    apply addTokens_of_before
    rintro _ ⟨⟩
    rw [ht]
    rfl

theorem closeParen_callFrame (items : List Scope) (close : Nat) :
    (⟨items, 3, [callFrame name none offset args]⟩ : Nesting).closeParen close =
      .ok ⟨[callScope name (args.reverse ++ [argumentScope items])], 1, []⟩ := by
  rw [← List.reverse_cons]
  rfl

/-- The arguments of a call are nested one after the other, each of them as if it were the only
one. -/
theorem addTokens_placeArguments {arguments : List (Argument name)} {b : Token}
    (hne : arguments ≠ []) (h : ∀ a ∈ arguments, IsArgument a.tokens)
    (hat : StandsAt line (callStart name + k) (argumentText arguments)) (hb : b.kind = .blank) :
    addTokens (cutLine line) read ⟨[], 3, [callFrame name none offset args]⟩ false none 0
        (placeArguments k arguments ++ [b]) = .ok m ↔
      ∃ nested, List.Forall₂ (NestsTo read) arguments nested ∧
        m = ⟨[callScope name (args.reverse ++ nested.map argumentScope)], 1, []⟩ := by
  fun_induction placeArguments k arguments generalizing args with
  | case1 => exact absurd rfl hne
  | case2 k a =>
    rw [Scan.argumentText_singleton] at hat
    rw [addTokens_placed (h a (List.mem_singleton_self a)) hat (.inr rfl) fun _ _ _ =>
      addTokens_closeParen_blank rfl (by simpa using hb)]
    simp only [closeParen_callFrame, Except.ok.injEq]
    constructor
    · rintro ⟨items, hitems, rfl⟩
      exact ⟨[items], .cons hitems .nil, rfl⟩
    · rintro ⟨nested, hnested, rfl⟩
      cases hnested with
      | cons hitems hnil =>
        cases hnil
        exact ⟨_, hitems, rfl⟩
  | case3 k a b rest ih =>
    rw [Scan.argumentText_cons_cons] at hat
    rw [List.forall_mem_cons] at h
    have hnext : StandsAt line (callStart name + (k + Text.byteSize a.text + 1))
        (argumentText (b :: rest)) := by
      have hcomma : ','.utf8Size = 1 := rfl
      rw [List.append_cons] at hat
      have hright := hat.right
      rw [Text.byteSize_append, Text.byteSize_cons, Text.byteSize_nil, hcomma] at hright
      convert hright using 1
      omega
    rw [List.append_assoc, addTokens_placed h.1 hat.left (.inl rfl) fun _ _ _ =>
      addTokens_nextArgument rfl]
    have hrest : ∀ items, addTokens (cutLine line) read
        ⟨[], 3, [callFrame name none offset (argumentScope items :: args)]⟩ false none 0
          (placeArguments (k + Text.byteSize a.text + 1) (b :: rest) ++ _) = .ok m ↔ _ :=
      fun items => ih (List.cons_ne_nil b rest) h.2 hnext
    constructor
    · rintro ⟨items, hitems, hadd⟩
      obtain ⟨nested, hnested, rfl⟩ := (hrest items).mp hadd
      exact ⟨items :: nested, .cons hitems hnested, by simp⟩
    · rintro ⟨nested, hnested, rfl⟩
      cases hnested with
      | @cons _ items _ nested hitems hnested =>
        exact ⟨items, hitems, (hrest items).mpr ⟨nested, hnested, by simp⟩⟩

theorem addTokens_callLine {cs : List Char} (hname : IsName name) :
    addTokens (cutLine (callLine name cs)) read {} true none 0
        (Lexeme.place 1 (Lexeme.ofName name) ++
          ⟨.openParen, 1 + Text.byteSize name.toList, callStart name⟩ :: back) =
      addTokens (cutLine (callLine name cs)) read
        ⟨[], 3, [callFrame name none (1 + Text.byteSize name.toList) []]⟩ false none 0 back := by
  have hcallee : Lexeme.ofName name = Lexeme.ofName name ++ Lexeme.ofSize none :=
    (List.append_nil _).symm
  have hat : StandsAt (callLine name cs) 1
      (Lexeme.allChars (Lexeme.ofName name ++ Lexeme.ofSize none)) := by
    refine ⟨[' '], '(' :: (cs ++ [')']), ?_, rfl⟩
    rw [← hcallee, Lexeme.allChars_ofName]
    simp [callLine]
  rw [hcallee]
  exact addTokens_call hname (by simp) hat rfl

theorem ofTokens_arguments {arguments : List (Argument name)} {b : Token} {root : Scope}
    (hname : IsName name) (hne : arguments ≠ []) (h : ∀ a ∈ arguments, IsArgument a.tokens)
    (hb : b.kind = .blank) :
    Scope.ofTokens (cutLine (callLine name (argumentText arguments))) read
        (Lexeme.place 1 (Lexeme.ofName name) ++
          ⟨.openParen, 1 + Text.byteSize name.toList, callStart name⟩ ::
            (placeArguments 0 arguments ++ [b])) = .ok root ↔
      ∃ nested, List.Forall₂ (NestsTo read) arguments nested ∧
        root = ⟨.plain, 0, none, [callScope name (nested.map argumentScope)]⟩ := by
  have hat := standsAt_callLine name (argumentText arguments)
  rw [← Nat.add_zero (callStart name)] at hat
  constructor
  · intro hroot
    obtain ⟨n, hn, hclose⟩ := Scope.eq_of_ofTokens hroot
    rw [addTokens_callLine hname, addTokens_placeArguments hne h hat hb] at hn
    obtain ⟨nested, hnested, rfl⟩ := hn
    exact ⟨nested, hnested, (Except.ok.inj hclose).symm⟩
  · rintro ⟨nested, hnested, rfl⟩
    rw [Scope.ofTokens, addTokens_callLine hname,
      (addTokens_placeArguments hne h hat hb).mpr ⟨nested, hnested, rfl⟩]
    rfl

end Nest

end MacroAsm

import Mathlib
import MacroAsm.Proofs.Fold.Judgment
import MacroAsm.Proofs.Print.Fold
import MacroAsm.Proofs.Scope.Arguments

/-!
# Arguments are read on their own

`Reader.line_arguments`: a macro call in parentheses is read if each of its arguments is read as the
only argument of a call of the same name, and the arguments of the node are then those nodes, in
order. None is dropped, not even an empty one.

Proof. The tokens of an argument are those that it has as the only one, moved to where it stands
(`Scan.scan_arguments`), and so they are nested to the same scopes (`Nest.ofTokens_arguments`). A
call folds to the nodes that the scopes of its arguments fold to.
-/

namespace MacroAsm

open Nest
open Scan (Argument argumentText callLine callStart tokensBetween)

namespace Fold

variable {read : NumeralReader} {name : String} {arguments : List (Argument name)}
  {args children : List Scope} {terms : List Term} {result : Option Node}

/-- The node that an argument folds to as the only one of its call. -/
def FoldsAlone (read : NumeralReader) (a : Argument name) (n : Node) : Prop :=
  ∃ items, NestsTo read a items ∧ foldScope .argument items.reverse = .ok (some n)

theorem eq_some_of_foldScope_argument (h : foldScope .argument children = .ok result) :
    ∃ n, result = some n := by
  unfold foldScope at h
  split at h
  · cases h
  · exact eq_some_of_foldTerms_argument h

theorem foldChildren_argumentScope (items : List Scope) :
    foldChildren (.call name none) (argumentScope items :: args) = .ok terms ↔
      ∃ n rest, foldScope .argument items.reverse = .ok (some n) ∧
        foldChildren (.call name none) args = .ok rest ∧ terms = .node n :: rest := by
  rw [foldChildren_cons_scope rfl]
  have hplace : foldScope (placeWithin (.call name none) (argumentScope items))
      (argumentScope items).children = foldScope .argument items.reverse := rfl
  rw [hplace]
  cases hfold : foldScope .argument items.reverse with
  | error => simp
  | ok result =>
    obtain ⟨n, rfl⟩ := eq_some_of_foldScope_argument hfold
    cases foldChildren (.call name none) args with
    | error => simp [Except.map]
    | ok rest => simp [Except.map, eq_comm]

theorem foldChildren_arguments_iff :
    (∃ nested, List.Forall₂ (NestsTo read) arguments nested ∧
        foldChildren (.call name none) (nested.map argumentScope) = .ok terms) ↔
      ∃ nodes, List.Forall₂ (FoldsAlone read) arguments nodes ∧ terms = nodes.map .node := by
  induction arguments generalizing terms with
  | nil => simp [foldChildren, eq_comm]
  | cons a arguments ih =>
    constructor
    · rintro ⟨nested, hnested, hfold⟩
      cases hnested with
      | @cons _ items _ nested ha hnested =>
        obtain ⟨n, rest, hn, hrest, rfl⟩ := (foldChildren_argumentScope items).mp hfold
        obtain ⟨nodes, hnodes, rfl⟩ := ih.mp ⟨nested, hnested, hrest⟩
        exact ⟨n :: nodes, .cons ⟨items, ha, hn⟩ hnodes, rfl⟩
    · rintro ⟨nodes, hnodes, rfl⟩
      cases hnodes with
      | @cons _ n _ nodes ha hnodes =>
        obtain ⟨items, hitems, hn⟩ := ha
        obtain ⟨nested, hnested, hrest⟩ := ih.mpr ⟨nodes, hnodes, rfl⟩
        exact ⟨items :: nested, .cons hitems hnested,
          (foldChildren_argumentScope items).mpr ⟨n, _, hn, hrest, rfl⟩⟩

theorem filterMap_node (nodes : List Node) :
    (nodes.map Term.node).filterMap Term.node? = nodes := by
  rw [List.filterMap_map]
  exact List.filterMap_some

theorem foldTerms_call (args : List Node) :
    foldTerms .line [.node (.call name none args)] = .ok (some (.call name none args)) := by
  have hrow : foldRow (Place.line = .line) [.node (.call name none args)] =
      [.node (.call name none args)] := by
    rw [foldRow, foldEntries]
    rfl
  exact foldTerms_of_foldRow (by simp) hrow rfl

theorem fold_callScope :
    (⟨.plain, 0, none, [callScope name args]⟩ : Scope).fold = .ok result ↔
      ∃ terms, foldChildren (.call name none) args = .ok terms ∧
        result = some (.call name none (terms.filterMap Term.node?)) := by
  have hroot : (⟨.plain, 0, none, [callScope name args]⟩ : Scope).fold =
      foldScope .line [callScope name args] := Scope.fold_eq _
  have hplace : foldScope (placeWithin .line (callScope name args)) (callScope name args).children =
      foldScope (.call name none) args := rfl
  rw [hroot, foldScope, foldChildren_cons_scope rfl, hplace, foldScope]
  cases foldChildren (.call name none) args with
  | error => simp
  | ok terms =>
    simp [foldTerms.eq_1, foldChildren, Except.map, foldTerms_call, eq_comm]

end Fold

namespace Reader

variable {r : Reader} {name text : String} {args : List String} {result : Option Node}

/-- The line of a call with the given arguments, with a comma between any two of them. -/
def callText (name : String) (args : List String) : String :=
  " " ++ name ++ "(" ++ ",".intercalate args ++ ")"

/-- The text can be an argument of a call: the call with it as the only argument is scanned, and
among the tokens of the text, brackets match, commas are in brackets only, and there is no label
mark. -/
def IsArgumentText (name text : String) : Prop :=
  ∃ tokens, scan (callText name [text]).toList = .ok tokens ∧
    let own := tokensBetween (callStart name) (callStart name + Text.byteSize text.toList) tokens
    WellNested own ∧ directCommas 0 own = 0 ∧ ∀ t ∈ own, t.kind ≠ .label

theorem toList_callText (name : String) (args : List String) :
    (callText name args).toList = callLine name ([','].intercalate (args.map String.toList)) := by
  simp [callText, callLine, String.toList_intercalate]

def textOf (a : Argument name) : String := String.ofList a.text

theorem toList_callText_arguments (arguments : List (Argument name)) :
    (callText name (arguments.map textOf)).toList = callLine name (argumentText arguments) := by
  rw [toList_callText, List.map_map, argumentText]
  congr 2
  exact List.map_congr_left fun a _ => String.toList_ofList

theorem IsArgumentText.exists_argument (h : IsArgumentText name text) (hname : IsName name) :
    ∃ a : Argument name, textOf a = text ∧ IsArgument a.tokens := by
  obtain ⟨tokens, hscan, hnested, hcommas, hlabel⟩ := h
  rw [toList_callText, List.map_singleton, List.intercalate_singleton] at hscan
  obtain ⟨a, htext, htokens⟩ := Scan.exists_argument hname hscan
  rw [htokens] at hnested hcommas hlabel
  refine ⟨a, by rw [textOf, htext, String.ofList_toList], hnested, hcommas, fun t ht hmark => ?_⟩
  rcases hmark with hkind | hkind
  · exact hlabel t ht hkind
  · exact a.kind_ne_impliedLabel hname t ht hkind

theorem exists_arguments (hname : IsName name) (h : ∀ text ∈ args, IsArgumentText name text) :
    ∃ arguments : List (Argument name), arguments.map textOf = args ∧
      ∀ a ∈ arguments, IsArgument a.tokens := by
  induction args with
  | nil => exact ⟨[], rfl, by simp⟩
  | cons text args ih =>
    rw [List.forall_mem_cons] at h
    obtain ⟨a, rfl, ha⟩ := h.1.exists_argument hname
    obtain ⟨arguments, rfl, harguments⟩ := ih h.2
    exact ⟨a :: arguments, rfl, List.forall_mem_cons.mpr ⟨ha, harguments⟩⟩

variable {arguments : List (Argument name)}

theorem line_callText (hname : IsName name) (hne : arguments ≠ [])
    (h : ∀ a ∈ arguments, IsArgument a.tokens) :
    r.line (callText name (arguments.map textOf)) = .ok result ↔
      ∃ nodes, List.Forall₂ (Fold.FoldsAlone r.numeral) arguments nodes ∧
        result = some (.call name none nodes) := by
  obtain ⟨b, hb, hscan⟩ := Scan.scan_arguments hname hne fun a ha t ht hkind =>
    (h a ha).unmarked t ht (.inl hkind)
  have hline := toList_callText_arguments arguments
  constructor
  · intro hread
    obtain ⟨tokens, root, htokens, hroot, hfold⟩ := eq_of_line hread
    rw [hline] at htokens hroot
    rw [hscan] at htokens
    cases htokens
    obtain ⟨nested, hnested, rfl⟩ := (ofTokens_arguments hname hne h hb).mp hroot
    obtain ⟨terms, hterms, rfl⟩ := Fold.fold_callScope.mp hfold
    obtain ⟨nodes, hnodes, rfl⟩ := Fold.foldChildren_arguments_iff.mp ⟨nested, hnested, hterms⟩
    exact ⟨nodes, hnodes, by rw [Fold.filterMap_node]⟩
  · rintro ⟨nodes, hnodes, rfl⟩
    obtain ⟨nested, hnested, hterms⟩ := Fold.foldChildren_arguments_iff.mpr ⟨nodes, hnodes, rfl⟩
    have hroot := (ofTokens_arguments hname hne h hb).mpr ⟨nested, hnested, rfl⟩
    have hfold := Fold.fold_callScope.mpr ⟨_, hterms, rfl⟩
    rw [← hline] at hscan hroot
    simp only [line, notedLine, hscan, hroot, hfold, Fold.filterMap_node]

/-- The text is read as the node where it is the only argument of a call. -/
def ReadsAlone (r : Reader) (name text : String) (n : Node) : Prop :=
  r.line (callText name [text]) = .ok (some (.call name none [n]))

theorem readsAlone_textOf {a : Argument name} {n : Node} (hname : IsName name)
    (ha : IsArgument a.tokens) :
    r.ReadsAlone name (textOf a) n ↔ Fold.FoldsAlone r.numeral a n := by
  have hsingle : ∀ b ∈ [a], IsArgument b.tokens := List.forall_mem_singleton.mpr ha
  rw [ReadsAlone, ← List.map_singleton, line_callText hname (List.cons_ne_nil a []) hsingle]
  constructor
  · rintro ⟨nodes, hnodes, heq⟩
    cases heq
    cases hnodes with
    | cons h _ => exact h
  · intro h
    exact ⟨[n], .cons h .nil, rfl⟩

theorem forall₂_readsAlone {nodes : List Node} (hname : IsName name)
    (h : ∀ a ∈ arguments, IsArgument a.tokens) :
    List.Forall₂ (r.ReadsAlone name) (arguments.map textOf) nodes ↔
      List.Forall₂ (Fold.FoldsAlone r.numeral) arguments nodes := by
  induction arguments generalizing nodes with
  | nil => simp
  | cons a arguments ih =>
    rw [List.forall_mem_cons] at h
    cases nodes with
    | nil => simp
    | cons n nodes =>
      rw [List.map_cons, List.forall₂_cons, List.forall₂_cons, ih h.2, readsAlone_textOf hname h.1]

theorem foldsAlone_of_blank {a : Argument name} (hname : IsName name)
    (htext : ∀ c ∈ a.text, Scan.isBlank c = true) : Fold.FoldsAlone r.numeral a (.text "") :=
  ⟨[], addTokens_blank (a.blank_of_text hname htext), Node.foldTerms_argument_nil⟩

/-- The arguments of a call are read on their own: the call is read with the nodes that they are
read as where each of them stands alone, in order, and it is at fault if one of them is not read as
a node. Blanks, or nothing, are an argument too, which is read as the empty name. -/
theorem line_arguments (r : Reader) (hname : IsName name) (hne : args ≠ [])
    (h : ∀ text ∈ args, IsArgumentText name text) :
    (∀ nodes, r.line (callText name args) = .ok (some (.call name none nodes)) ↔
      List.Forall₂ (r.ReadsAlone name) args nodes) ∧
    ((¬ ∃ nodes, List.Forall₂ (r.ReadsAlone name) args nodes) →
      ∃ fault, r.line (callText name args) = .error fault) ∧
    ∀ text ∈ args, (∀ c ∈ text.toList, Scan.isBlank c = true) →
      r.ReadsAlone name text (.text "") := by
  obtain ⟨arguments, rfl, harguments⟩ := exists_arguments hname h
  have hcall : ∀ result, r.line (callText name (arguments.map textOf)) = .ok result ↔
      ∃ nodes, List.Forall₂ (r.ReadsAlone name) (arguments.map textOf) nodes ∧
        result = some (.call name none nodes) := by
    intro result
    have hne : arguments ≠ [] := fun hnil => hne (by rw [hnil, List.map_nil])
    simp only [line_callText hname hne harguments, forall₂_readsAlone hname harguments]
  refine ⟨fun nodes => ?_, fun hnone => ?_, fun text htext hblank => ?_⟩
  · rw [hcall]
    constructor
    · rintro ⟨nodes, hnodes, heq⟩
      cases heq
      exact hnodes
    · exact fun hnodes => ⟨nodes, hnodes, rfl⟩
  · cases hread : r.line (callText name (arguments.map textOf)) with
    | error fault => exact ⟨fault, rfl⟩
    | ok result =>
      obtain ⟨nodes, hnodes, -⟩ := (hcall result).mp hread
      exact absurd ⟨nodes, hnodes⟩ hnone
  · obtain ⟨a, ha, rfl⟩ := List.mem_map.mp htext
    rw [textOf, String.toList_ofList] at hblank
    exact (readsAlone_textOf hname (harguments a ha)).mpr (foldsAlone_of_blank hname hblank)

/-- A string with a comma, blanks and a call with two arguments are three arguments. -/
theorem line_arguments_mixed :
    IsName "f" ∧ (∀ text ∈ ["\"x,\"", " ", "g(b,c)"], IsArgumentText "f" text) ∧
      ({} : Reader).line (callText "f" ["\"x,\"", " ", "g(b,c)"]) =
        .ok (some (.call "f" none
          [.string "x,", .text "", .call "g" none [.text "b", .text "c"]])) := by
  have hname : IsName "f" := .plain ⟨'f', [], rfl, rfl, by simp⟩
  have harguments : ∀ text ∈ ["\"x,\"", " ", "g(b,c)"], IsArgumentText "f" text := by
    rw [List.forall_mem_cons, List.forall_mem_cons, List.forall_mem_singleton]
    refine ⟨⟨[⟨.name, 1, 2⟩, ⟨.openParen, 2, 3⟩, ⟨.string, 4, 6⟩, ⟨.closeParen, 7, 8⟩,
        ⟨.blank, 8, 8⟩], by cbv, rfl, rfl, by decide⟩,
      ⟨[⟨.name, 1, 2⟩, ⟨.openParen, 2, 3⟩, ⟨.blank, 3, 4⟩, ⟨.closeParen, 4, 5⟩, ⟨.blank, 5, 5⟩],
        by cbv, rfl, rfl, by decide⟩,
      ⟨[⟨.name, 1, 2⟩, ⟨.openParen, 2, 3⟩, ⟨.name, 3, 4⟩, ⟨.openParen, 4, 5⟩, ⟨.name, 5, 6⟩,
        ⟨.comma, 6, 7⟩, ⟨.name, 7, 8⟩, ⟨.closeParen, 8, 9⟩, ⟨.closeParen, 9, 10⟩, ⟨.blank, 10, 10⟩],
        by cbv, rfl, rfl, by decide⟩⟩
  obtain ⟨hread, -, hblank⟩ := line_arguments {} hname (by simp) harguments
  refine ⟨hname, harguments, (hread _).mpr (.cons ?_ (.cons ?_ (.cons ?_ .nil)))⟩
  · rw [ReadsAlone]
    cbv
  · exact hblank " " (by simp) (List.all_eq_true.mp rfl)
  · rw [ReadsAlone]
    cbv

end Reader

end MacroAsm

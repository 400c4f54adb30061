import Mathlib
import MacroAsm.FileStore
import MacroAsm.Proofs.Text.Order

/-!
# What a store keeps

`FileStore.run_keeps`: a store that was new and has served any requests has the file that was stored
last under each name, unless it was removed since. That file is what the reader makes of the bytes
that it was stored from. A loader is called for a name that is not there and for nothing else, a
request that fails changes nothing, and the files are listed by the bytes of their names.

`FileStore.Serves` says once what serving a request can do. From it comes what is kept of all the
requests served so far (`FileStore.Kept`), one request after the other.
-/

namespace MacroAsm

theorem Reader.name_of_file {r : Reader} {name : String} {bytes : List UInt8} {f : SourceFile}
    (h : r.file name bytes = .ok f) : f.name = name := by
  rw [file, notedFile] at h
  split at h
  · cases h
  · dsimp only at h
    split at h
    · cases h
    next p hread =>
      dsimp only [Progress.outcome] at h
      split at h <;> cases h
      rfl

namespace FileStore

variable {ε : Type}

/-! ## Requests -/

/-- A request to a store. -/
inductive Request (ε : Type) where
  | put (name : String) (bytes : List UInt8)
  | fetch (name : String) (load : String → Except ε (List UInt8))
  | get (name : String)
  | remove (name : String)

inductive Answer (ε : Type) where
  | put (result : Except Diagnostic SourceFile)
  | fetch (result : Except (FetchFault ε) SourceFile)
  | get (file? : Option SourceFile)
  | remove (file? : Option SourceFile)

/-- A request with its answer, and the names that its loader was called with, in order. -/
structure Served (ε : Type) where
  request : Request ε
  answer : Answer ε
  loaded : List String

/-- A loader that keeps a log of the names it is called with. -/
def logged (load : String → Except ε (List UInt8)) (name : String) :
    StateM (List String) (Except ε (List UInt8)) := do
  modify (· ++ [name])
  return load name

/-- Serves a request. -/
def serve (s : FileStore) : Request ε → FileStore × Served ε
  | .put name bytes =>
    let result := s.put name bytes
    (result.1, ⟨.put name bytes, .put result.2.value, []⟩)
  | .fetch name load =>
    let (result, loaded) := (s.fetch name (logged load)).run []
    (result.1, ⟨.fetch name load, .fetch result.2.value, loaded⟩)
  | .get name => (s, ⟨.get name, .get (s.get? name), []⟩)
  | .remove name =>
    let result := s.remove name
    (result.1, ⟨.remove name, .remove result.2, []⟩)

def run (s : FileStore) : List (Request ε) → FileStore × List (Served ε)
  | [] => (s, [])
  | request :: requests =>
    let (next, served) := s.serve request
    let (last, more) := next.run requests
    (last, served :: more)

/-- The names that a request needs loaded. -/
def Request.missing (s : FileStore) : Request ε → List String
  | .fetch name _ => if s.contains name then [] else [name]
  | _ => []

/-- The request asks for a file that cannot be read, or not be loaded. -/
def Request.Fails (r : Reader) : Request ε → Prop
  | .put name bytes => ∃ d, r.file name bytes = .error d
  | .fetch name load => ∀ bytes, load name = .ok bytes → ∃ d, r.file name bytes = .error d
  | _ => False

/-- What a request does to a file of the store. -/
inductive Change where
  /-- The file is read from these bytes and stored. -/
  | stored (bytes : List UInt8)
  | removed
  deriving DecidableEq, Repr

/-- The name whose file the request changed, and how, going by its answer. -/
def Served.change? : Served ε → Option (String × Change)
  | ⟨.put name bytes, .put (.ok _), _⟩ => some (name, .stored bytes)
  | ⟨.fetch name load, .fetch (.ok _), [loaded]⟩ =>
    match load loaded with
    | .ok bytes => some (name, .stored bytes)
    | .error _ => none
  | ⟨.remove name, _, _⟩ => some (name, .removed)
  | _ => none

/-- What requests did to the file of one name, in order. -/
def changesOf (name : String) (served : List (Served ε)) : List Change :=
  (served.filterMap Served.change?).filterMap fun (changed, change) =>
    if changed = name then some change else none

/-! ## One request -/

def keep (s : FileStore) (name : String) (f : SourceFile) : FileStore :=
  { s with files := s.files.insert name f }

/-- What serving a request comes to: the store after it, the answer and the names loaded. -/
inductive Serves (s : FileStore) : Request ε → FileStore → Served ε → Prop
  | stored {name bytes f} (hfile : s.reader.file name bytes = .ok f) :
      Serves s (.put name bytes) (s.keep name f) ⟨.put name bytes, .put (.ok f), []⟩
  | rejected {name bytes d} (hfile : s.reader.file name bytes = .error d) :
      Serves s (.put name bytes) s ⟨.put name bytes, .put (.error d), []⟩
  | found {name load f} (hget : s.get? name = some f) :
      Serves s (.fetch name load) s ⟨.fetch name load, .fetch (.ok f), []⟩
  | notLoaded {name load e} (hget : s.get? name = none) (hload : load name = .error e) :
      Serves s (.fetch name load) s ⟨.fetch name load, .fetch (.error (.load e)), [name]⟩
  | notRead {name load bytes d} (hget : s.get? name = none) (hload : load name = .ok bytes)
      (hfile : s.reader.file name bytes = .error d) :
      Serves s (.fetch name load) s ⟨.fetch name load, .fetch (.error (.source d)), [name]⟩
  | loaded {name load bytes f} (hget : s.get? name = none) (hload : load name = .ok bytes)
      (hfile : s.reader.file name bytes = .ok f) :
      Serves s (.fetch name load) (s.keep name f) ⟨.fetch name load, .fetch (.ok f), [name]⟩
  | got {name} : Serves s (.get name) s ⟨.get name, .get (s.get? name), []⟩
  | removed {name} : Serves s (.remove name) (s.remove name).1
      ⟨.remove name, .remove (s.get? name), []⟩

/-- What is under a name after the last change of its file. -/
inductive Holds (r : Reader) (name : String) : Option Change → Option SourceFile → Prop
  | never : Holds r name none none
  | removed : Holds r name (some .removed) none
  | stored {bytes f} (hfile : r.file name bytes = .ok f) :
      Holds r name (some (.stored bytes)) (some f)

/-- What is kept of the requests that were served so far. -/
structure Kept (r : Reader) (s : FileStore) (before : List (Served ε)) : Prop where
  reader : s.reader = r
  holds : ∀ name, Holds r name (changesOf name before).getLast? (s.get? name)

variable {r : Reader} {s next : FileStore} {name other : String} {bytes : List UInt8}
  {f : SourceFile} {request : Request ε} {served : Served ε} {before : List (Served ε)}
  {change : Change}

theorem get?_keep : (s.keep name f).get? other = if name = other then some f else s.get? other := by
  simp [get?, keep, Std.TreeMap.getElem?_insert]

theorem get?_remove :
    (s.remove name).1.get? other = if name = other then none else s.get? other := by
  simp [get?, remove, Std.TreeMap.getElem?_erase]

theorem contains_eq : s.contains name = (s.get? name).isSome :=
  Std.TreeMap.contains_eq_isSome_getElem?

theorem put_of_ok (h : s.reader.file name bytes = .ok f) :
    (s.put name bytes).1 = s.keep name f ∧ (s.put name bytes).2.value = .ok f := by
  have hvalue : (s.reader.notedFile name bytes).value = .ok f := h
  simp only [put, hvalue, keep, and_self]

theorem put_of_error {d : Diagnostic} (h : s.reader.file name bytes = .error d) :
    (s.put name bytes).1 = s ∧ (s.put name bytes).2.value = .error d := by
  have hvalue : (s.reader.notedFile name bytes).value = .error d := h
  simp only [put, hvalue, and_self]

theorem run_logged {α : Type} {load : String → Except ε (List UInt8)} {log : List String}
    {more : Except ε (List UInt8) → StateM (List String) α} :
    (logged load name >>= more).run log = (more (load name)).run (log ++ [name]) := rfl

variable {load : String → Except ε (List UInt8)}

theorem serve_fetch_found (hget : s.get? name = some f) :
    s.serve (.fetch name load) = (s, ⟨.fetch name load, .fetch (.ok f), []⟩) := by
  simp only [serve, fetch, hget]
  rfl

theorem serve_fetch_notLoaded {e : ε} (hget : s.get? name = none) (hload : load name = .error e) :
    s.serve (.fetch name load) =
      (s, ⟨.fetch name load, .fetch (.error (.load e)), [name]⟩) := by
  simp only [serve, fetch, hget, run_logged, hload]
  rfl

theorem serve_fetch_loaded (hget : s.get? name = none) (hload : load name = .ok bytes) :
    s.serve (.fetch name load) = ((s.put name bytes).1,
      ⟨.fetch name load, .fetch ((s.put name bytes).2.value.mapError .source), [name]⟩) := by
  simp only [serve, fetch, hget, run_logged, hload]
  rfl

theorem serves_put : Serves s (.put name bytes) (s.put name bytes).1
    (⟨.put name bytes, .put (s.put name bytes).2.value, []⟩ : Served ε) := by
  cases hfile : s.reader.file name bytes with
  | ok f =>
    obtain ⟨hnext, hvalue⟩ := put_of_ok hfile
    rw [hnext, hvalue]
    exact .stored hfile
  | error d =>
    obtain ⟨hnext, hvalue⟩ := put_of_error hfile
    rw [hnext, hvalue]
    exact .rejected hfile

theorem serves_fetch : Serves s (.fetch name load) (s.serve (.fetch name load)).1
    (s.serve (.fetch name load)).2 := by
  cases hget : s.get? name with
  | some f =>
    rw [serve_fetch_found hget]
    exact .found hget
  | none =>
    cases hload : load name with
    | error e =>
      rw [serve_fetch_notLoaded hget hload]
      exact .notLoaded hget hload
    | ok bytes =>
      rw [serve_fetch_loaded hget hload]
      cases hfile : s.reader.file name bytes with
      | ok f =>
        obtain ⟨hnext, hvalue⟩ := put_of_ok hfile
        rw [hnext, hvalue]
        exact .loaded hget hload hfile
      | error d =>
        obtain ⟨hnext, hvalue⟩ := put_of_error hfile
        rw [hnext, hvalue]
        exact .notRead hget hload hfile

theorem serves_serve (s : FileStore) (request : Request ε) :
    Serves s request (s.serve request).1 (s.serve request).2 := by
  cases request with
  | get name => exact .got
  | remove name => exact .removed
  | put name bytes => exact serves_put
  | fetch name load => exact serves_fetch

/-! ## All requests -/

theorem changesOf_append {more : List (Served ε)} :
    changesOf name (before ++ more) = changesOf name before ++ changesOf name more := by
  rw [changesOf, changesOf, changesOf, List.filterMap_append, List.filterMap_append]

theorem Kept.unchanged (h : Kept r s before) (hserved : served.change? = none) :
    Kept r s (before ++ [served]) where
  reader := h.reader
  holds name := by
    have hnone : changesOf name [served] = [] := by simp [changesOf, hserved]
    rw [changesOf_append, hnone, List.append_nil]
    exact h.holds name

theorem Kept.changed (h : Kept r s before) (hserved : served.change? = some (name, change))
    (hreader : next.reader = s.reader) (hholds : Holds r name (some change) (next.get? name))
    (hother : ∀ other, name ≠ other → next.get? other = s.get? other) :
    Kept r next (before ++ [served]) where
  reader := hreader.trans h.reader
  holds other := by
    rw [changesOf_append]
    by_cases hname : name = other
    · subst hname
      have hone : changesOf name [served] = [change] := by simp [changesOf, hserved]
      rw [hone, List.getLast?_concat]
      exact hholds
    · have hnone : changesOf other [served] = [] := by simp [changesOf, hserved, hname]
      rw [hnone, List.append_nil, hother other hname]
      exact h.holds other

theorem Kept.keep (h : Kept r s before) (hserved : served.change? = some (name, .stored bytes))
    (hfile : s.reader.file name bytes = .ok f) : Kept r (s.keep name f) (before ++ [served]) := by
  refine h.changed hserved rfl ?_ fun other hname => ?_
  · rw [get?_keep, if_pos rfl]
    exact .stored (h.reader ▸ hfile)
  · rw [get?_keep, if_neg hname]

theorem Kept.serves (h : Kept r s before) (hserves : Serves s request next served) :
    Kept r next (before ++ [served]) := by
  cases hserves with
  | rejected | found | notLoaded | notRead | got => exact h.unchanged rfl
  | stored hfile => exact h.keep rfl hfile
  | loaded hget hload hfile => exact h.keep (by simp only [Served.change?, hload]) hfile
  | removed =>
    refine h.changed rfl rfl ?_ fun other hname => ?_
    · rw [get?_remove, if_pos rfl]
      exact .removed
    · rw [get?_remove, if_neg hname]

theorem Kept.run (h : Kept r s before) (requests : List (Request ε)) :
    Kept r (s.run requests).1 (before ++ (s.run requests).2) := by
  induction requests generalizing s before with
  | nil =>
    rw [FileStore.run, List.append_nil]
    exact h
  | cons request requests ih =>
    have hrest := ih (h.serves (serves_serve s request))
    rwa [List.append_assoc] at hrest

theorem kept_run (r : Reader) (requests : List (Request ε)) :
    Kept r (run { reader := r } requests).1 (run { reader := r } requests).2 := by
  have hnew : Kept (ε := ε) r { reader := r } [] := ⟨rfl, fun _ => .never⟩
  exact hnew.run requests

/-! ## The list of files -/

/-- Every file is under its own name. -/
def Keyed (s : FileStore) : Prop := ∀ name f, s.get? name = some f → f.name = name

theorem Kept.keyed (h : Kept r s before) : s.Keyed := by
  intro name f hget
  have hholds := h.holds name
  rw [hget] at hholds
  generalize (changesOf name before).getLast? = last at hholds
  cases hholds with
  | stored hfile => exact Reader.name_of_file hfile

theorem toList_eq (s : FileStore) : s.toList = s.files.toList.map Prod.snd := by
  show s.files.foldr (fun _ f files => f :: files) [] = _
  rw [Std.TreeMap.foldr_eq_foldr_toList, List.map_eq_foldr]

theorem Keyed.name_of_mem (h : s.Keyed) {entry : String × SourceFile}
    (hentry : entry ∈ s.files.toList) : entry.2.name = entry.1 :=
  h _ _ (Std.TreeMap.mem_toList_iff_getElem?_eq_some.mp hentry)

theorem Keyed.mem_toList (h : s.Keyed) : f ∈ s.toList ↔ s.get? f.name = some f := by
  rw [toList_eq, List.mem_map]
  constructor
  · rintro ⟨entry, hentry, rfl⟩
    rw [h.name_of_mem hentry]
    exact Std.TreeMap.mem_toList_iff_getElem?_eq_some.mp hentry
  · intro hget
    exact ⟨(f.name, f), Std.TreeMap.mem_toList_iff_getElem?_eq_some.mpr hget, rfl⟩

theorem Keyed.pairwise_toList (h : s.Keyed) :
    s.toList.Pairwise fun f later => Text.bytesOf f.name < Text.bytesOf later.name := by
  rw [toList_eq, List.pairwise_map]
  refine (Std.TreeMap.ordered_keys_toList (t := s.files)).imp_of_mem ?_
  intro entry later hentry hlater hlt
  rw [h.name_of_mem hentry, h.name_of_mem hlater]
  exact Text.bytesOf_lt (compareOfLessAndEq_eq_lt.mp hlt)

/-! ## What is kept -/

theorem loaded_of_serves (h : Serves s request next served) :
    served.loaded = request.missing s := by
  cases h with
  | found hget | notLoaded hget | notRead hget | loaded hget =>
    simp [Request.missing, contains_eq, hget]
  | _ => rfl

theorem eq_of_fails (hserves : Serves s request next served) (h : request.Fails s.reader) :
    next = s := by
  cases hserves with
  | stored hfile =>
    obtain ⟨d, hd⟩ := h
    rw [hfile] at hd
    cases hd
  | loaded hget hload hfile =>
    obtain ⟨d, hd⟩ := h _ hload
    rw [hfile] at hd
    cases hd
  | removed => cases h
  | _ => rfl

/-- A store that was new has, after any requests, the files that were stored last and not removed
since, each as it is read from the bytes that it was last stored from. The next request loads a file
only if it is fetched and not there, and changes nothing if it fails. The files are listed each once
in the order of the bytes of their names. -/
theorem run_keeps {r : Reader} {requests : List (Request ε)} {s : FileStore}
    {before : List (Served ε)} (hrun : run { reader := r } requests = (s, before)) :
    (∀ name, s.contains name = true ↔
        ∃ bytes, (changesOf name before).getLast? = some (.stored bytes)) ∧
      (∀ name bytes, (changesOf name before).getLast? = some (.stored bytes) →
        ∃ f, r.file name bytes = .ok f ∧ s.get? name = some f ∧ f.name = name) ∧
      (∀ request : Request ε, (s.serve request).2.loaded = request.missing s) ∧
      (∀ request : Request ε, request.Fails r → (s.serve request).1 = s) ∧
      (s.toList.Pairwise fun f later => Text.bytesOf f.name < Text.bytesOf later.name) ∧
      ∀ f, f ∈ s.toList ↔ s.get? f.name = some f := by
  have hkept := kept_run r requests
  rw [hrun] at hkept
  refine ⟨fun name => ?_, fun name bytes hlast => ?_, fun request => ?_, fun request hfails => ?_,
    hkept.keyed.pairwise_toList, fun f => hkept.keyed.mem_toList⟩
  · have hholds := hkept.holds name
    rw [contains_eq]
    generalize (changesOf name before).getLast? = last, s.get? name = file? at hholds
    cases hholds <;> simp
  · have hholds := hkept.holds name
    rw [hlast] at hholds
    generalize s.get? name = file? at hholds
    cases hholds with
    | stored hfile => exact ⟨_, hfile, rfl, Reader.name_of_file hfile⟩
  · exact loaded_of_serves (serves_serve s request)
  · exact eq_of_fails (serves_serve s request) (hkept.reader ▸ hfails)

/-- A file is stored, then cannot be read again and stays; another one is loaded at the second
attempt and removed. -/
theorem run_keeps_stored :
    let ran := run (ε := String) { reader := {} } [.put "b" [32, 120, 10], .put "b" [41],
      .fetch "a" fun _ => .error "gone", .fetch "a" fun _ => .ok [32, 121, 10],
      .fetch "b" fun _ => .ok [41], .remove "a"]
    changesOf "b" ran.2 = [.stored [32, 120, 10]] ∧
      changesOf "a" ran.2 = [.stored [32, 121, 10], .removed] ∧
      (∃ f, ({} : Reader).file "b" [32, 120, 10] = .ok f ∧ ran.1.get? "b" = some f ∧
        f.name = "b") ∧
      ran.1.contains "a" = false := by
  intro ran
  have hb : changesOf "b" ran.2 = [.stored [32, 120, 10]] := by unfold ran; cbv
  have ha : changesOf "a" ran.2 = [.stored [32, 121, 10], .removed] := by unfold ran; cbv
  obtain ⟨hcontains, hfiles, -⟩ := run_keeps (Prod.eta ran).symm
  refine ⟨hb, ha, hfiles "b" _ (by rw [hb]; rfl), ?_⟩
  rw [← Bool.not_eq_true, hcontains "a", ha]
  simp

end FileStore

end MacroAsm

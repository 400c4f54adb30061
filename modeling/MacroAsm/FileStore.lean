import MacroAsm.Reader
import Std.Data.TreeMap

/-!
# A store of files

A `FileStore` keeps the files that were read under their names. `put` reads a file and keeps it;
`fetch` loads and reads a file only if the store does not have it. A file that cannot be loaded
or read leaves the store as it was.
-/

namespace MacroAsm

/-- The files read so far, in the order of their names, and the reader that reads them. -/
structure FileStore where
  reader : Reader := {}
  files : Std.TreeMap String SourceFile := {}

/-- Why a file could not be fetched. -/
inductive FetchFault (ε : Type) where
  /-- The loader failed. -/
  | load (e : ε)
  /-- The source is at fault. -/
  | source (d : Diagnostic)

namespace FileStore

def get? (s : FileStore) (name : String) : Option SourceFile := s.files[name]?

def contains (s : FileStore) (name : String) : Bool := s.files.contains name

def size (s : FileStore) : Nat := s.files.size

def isEmpty (s : FileStore) : Bool := s.files.isEmpty

def toList (s : FileStore) : List SourceFile := s.files.values

/-- Removes the file under a name, and gives it back. -/
def remove (s : FileStore) (name : String) : FileStore × Option SourceFile :=
  ({ s with files := s.files.erase name }, s.get? name)

/-- Reads a file and keeps it in the place of any earlier one of its name. -/
def put (s : FileStore) (name : String) (bytes : List UInt8) :
    FileStore × Noted (Except Diagnostic SourceFile) :=
  let noted := s.reader.notedFile name bytes
  match noted.value with
  | .error _ => (s, noted)
  | .ok file =>
    ({ s with files := s.files.insert name file },
      { noted with notes := noted.notes ++ [.stored name file.length] })

/-- The file under a name, which is loaded, read and kept if the store does not have it. -/
def fetch {m : Type → Type} [Monad m] {ε : Type} (s : FileStore) (name : String)
    (load : String → m (Except ε (List UInt8))) :
    m (FileStore × Noted (Except (FetchFault ε) SourceFile)) :=
  match s.get? name with
  | some file => pure (s, ⟨.ok file, []⟩)
  | none => do
    match ← load name with
    | .error e => return (s, ⟨.error (.load e), []⟩)
    | .ok bytes =>
      let (s, noted) := s.put name bytes
      return (s, ⟨noted.value.mapError .source, noted.notes⟩)

end FileStore

end MacroAsm

import SparsePolynomial.Storage.FileSystem

/-!
Contract: the files of one directory, loaded and saved as a whole.

Owns:
- `Store`, the files by name with their bytes, where saving replaces what a file held;
- which names have a file: `.` and `..` are directories, and since the directory has none inside, a
  name that goes on behind any other part leads nowhere;
- that a store is a file system, which takes any bytes under the name of a file.

Nothing is known of what is around the directory: names that lead out of it lead nowhere.
-/

set_option autoImplicit false

namespace SparsePolynomial.Storage

/-- What a name leads to. -/
inductive Place where
  | file (name : String)
  | directory
  | nowhere
deriving DecidableEq, Repr

namespace Place

/-- What the parts of a name lead to, one after the other; empty parts and `.` stay in place. -/
def ofParts : List (List Char) → Place
  | [] => .directory
  | part :: later =>
    if part = [] ∨ part = ['.'] then ofParts later
    else if later ≠ [] then .nowhere
    else if part = ['.', '.'] then .directory
    else .file (String.ofList part)

/-- What a name leads to, seen from the directory. -/
def ofName (name : String) : Place :=
  match name.toList with
  | [] => .nowhere
  | '/' :: _ => .nowhere
  | c :: rest => ofParts ((c :: rest).splitOn '/')

example : ["", ".", "..", "./p", "no/such"].map ofName =
    [.nowhere, .directory, .directory, .file "p", .nowhere] := by decide

end Place

/-- The files of one directory. -/
structure Store where
  files : List (String × List UInt8)
deriving DecidableEq, Repr

namespace Store

/-- A directory without files. -/
def empty : Store := ⟨[]⟩

instance : Inhabited Store := ⟨empty⟩

/-- The bytes of a file, if there is one of that name. -/
def contents? (store : Store) (name : String) : Option (List UInt8) := store.files.lookup name

/-- The store in which a file has the given bytes and nothing else has changed. -/
def replace (store : Store) (name : String) (bytes : List UInt8) : Store :=
  ⟨(name, bytes) :: store.files.filter fun file => file.1 ≠ name⟩

/-- All bytes of the file that a name leads to. -/
def load (store : Store) (name : String) : Except StorageError (List UInt8) :=
  match Place.ofName name with
  | .directory => .error .isDirectory
  | .nowhere => .error .notFound
  | .file name =>
    match store.contents? name with
    | some bytes => .ok bytes
    | none => .error .notFound

/-- Makes the given bytes the contents of the file that a name leads to. -/
def save (store : Store) (name : String) (bytes : List UInt8) : Except StorageError Store :=
  match Place.ofName name with
  | .directory => .error .isDirectory
  | .nowhere => .error .notFound
  | .file name => .ok (store.replace name bytes)

@[simp] theorem contents?_replace (store : Store) (name : String) (bytes : List UInt8) :
    (store.replace name bytes).contents? name = some bytes := by
  simp [contents?, replace]

/-- What has been saved is loaded. -/
theorem load_of_save {store saved : Store} {name : String} {bytes : List UInt8}
    (success : store.save name bytes = .ok saved) : saved.load name = .ok bytes := by
  unfold save at success
  unfold load
  cases place : Place.ofName name with
  | directory => simp [place] at success
  | nowhere => simp [place] at success
  | file own =>
      simp only [place, Except.ok.injEq] at success
      subst success
      simp

instance : FileSystem Store := ⟨load, save, load_of_save⟩

theorem takes {name file : String} (place : Place.ofName name = .file file) (store : Store) :
    FileSystem.Takes store name := by
  intro bytes
  refine ⟨store.replace file bytes, ?_⟩
  show store.save name bytes = _
  rw [save, place]

end Store

end SparsePolynomial.Storage

/-!
Contract: what polynomials in files need of the system that keeps the files.

Owns:
- `FileSystem`, with the only law that is needed: what has been saved under a name is what is loaded
  under it;
- the causes for which loading and saving fail, with their messages.

How names are resolved and which names and bytes are refused is left to the system.
-/

set_option autoImplicit false

namespace SparsePolynomial.Storage

/-- Why bytes or text cannot be loaded or saved. -/
inductive StorageError where
  | notFound
  | isDirectory
  | notText
  /-- Any other cause, in the words of the system. -/
  | other (message : String)
deriving DecidableEq, Repr

def StorageError.message : StorageError → String
  | notFound => "No such file or directory (os error 2)"
  | isDirectory => "Is a directory (os error 21)"
  | notText => "stream did not contain valid UTF-8"
  | other message => message

/-- A system that keeps bytes under names. -/
class FileSystem (System : Type) where
  /-- All bytes of the file that a name leads to. -/
  load : System → String → Except StorageError (List UInt8)
  /-- Makes the given bytes the contents of the file that a name leads to. -/
  save : System → String → List UInt8 → Except StorageError System
  /-- What has been saved is loaded. -/
  load_of_save {system saved : System} {name : String} {bytes : List UInt8} :
    save system name bytes = .ok saved → load saved name = .ok bytes

/-- Whatever bytes are given can be saved under the name. -/
def FileSystem.Takes {System : Type} [FileSystem System] (system : System) (name : String) : Prop :=
  ∀ bytes, ∃ saved, save system name bytes = .ok saved

end SparsePolynomial.Storage

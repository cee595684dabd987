import SparsePolynomial.Storage.Store
import SparsePolynomial.Text.Printer
import SparsePolynomial.Text.Reader
import SparsePolynomial.Text.WhiteSpace

/-!
Contract: polynomials in files.

Owns:
- reading: the text of a polynomial is the first line without the white space around it, and no
  later byte matters;
- writing: the text of the polynomial is all that the file holds afterwards.

A file without a newline is one line. Only the first line has to be valid UTF-8.
-/

set_option autoImplicit false

namespace SparsePolynomial.Storage

/-- Why no polynomial can be read from a file. -/
inductive ReadError where
  | storage (error : StorageError)
  | malformed (error : Text.SyntaxError)
deriving DecidableEq, Repr

/-- The message of a failure that is not about the polynomial. -/
def StorageError.fileMessage (error : StorageError) : String :=
  "polynomial file I/O failed: " ++ error.message

namespace ReadError

def message : ReadError → String
  | storage error => error.fileMessage
  | malformed error => "polynomial file is malformed: " ++ error.message

end ReadError

def newline : UInt8 := 10

/-- The bytes in front of the first newline. -/
def firstLine (bytes : List UInt8) : List UInt8 := bytes.takeWhile fun byte => byte ≠ newline

/-- The text that bytes encode. -/
def decode (bytes : List UInt8) : Except StorageError String :=
  match String.fromUTF8? bytes.toByteArray with
  | some text => .ok text
  | none => .error .notText

/-- The bytes of a text. -/
def encode (text : String) : List UInt8 := text.toUTF8.data.toList

variable {System : Type} [FileSystem System]

/-- The first line of a file without the white space around it. -/
def readLine (system : System) (name : String) : Except StorageError String := do
  let bytes ← FileSystem.load system name
  let line ← decode (firstLine bytes)
  return String.ofList (Text.trim line.toList)

/-- The polynomial that a text from a file stands for. -/
def parseLine (text : String) : Except ReadError Polynomial :=
  (Text.parse text).mapError .malformed

/-- Reads a polynomial from a file. -/
def read (system : System) (name : String) : Except ReadError Polynomial :=
  match readLine system name with
  | .error error => .error (.storage error)
  | .ok text => parseLine text

/-- Writes a polynomial to a file. -/
def write (system : System) (name : String) (p : Polynomial) : Except StorageError System :=
  FileSystem.save system name (encode p.text)

theorem readLine_of_load {system : System} {name : String} {bytes : List UInt8}
    (loaded : FileSystem.load system name = .ok bytes) :
    readLine system name =
      (decode (firstLine bytes)).map fun line => String.ofList (Text.trim line.toList) := by
  rw [readLine, loaded]
  show (do let line ← decode (firstLine bytes); return String.ofList (Text.trim line.toList)) = _
  cases decode (firstLine bytes) <;> rfl

theorem readLine_of_load_error {system : System} {name : String} {error : StorageError}
    (failed : FileSystem.load system name = .error error) :
    readLine system name = .error error := by
  rw [readLine, failed]
  rfl

/-- Text survives being encoded. -/
@[simp] theorem decode_encode (text : String) : decode (encode text) = .ok text := by
  have bytes : (encode text).toByteArray = text.toByteArray := by
    apply ByteArray.ext
    simp [encode]
  have valid : String.fromUTF8? text.toByteArray = some text := by
    rw [String.fromUTF8?, dif_pos text.isValidUTF8]
    rfl
  simp [decode, bytes, valid]

end SparsePolynomial.Storage

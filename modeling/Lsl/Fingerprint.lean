import Lsl.Compile
import Lsl.Script.Stored
import Lsl.Sha256

/-! Fingerprints of what a compile depends on. The parts are written one after the other, each after
a mark of its own and with its length in front, and the whole is digested. -/
namespace Lsl

namespace Fingerprint

def version : UInt8 := 1

def scriptMark : UInt8 := 1
def libraryMark : UInt8 := 2
def functionMark : UInt8 := 3
def privilegedMark : UInt8 := 4
def backendMark : UInt8 := 5
def memoryMark : UInt8 := 6

def count (n : Nat) : Bytes := bigEndian 4 n

def sized (bs : Bytes) : Bytes := count bs.length ++ bs

def flag (b : Bool) : Bytes := [if b then 1 else 0]

def whole (n : Int) : Bytes := bigEndian 8 (n.emod 0x10000000000000000).toNat

def type (t : Ty) : UInt8 := UInt8.ofNat t.tag

def function (f : LibraryFunction) : Bytes :=
  functionMark :: sized (Text.bytes f.name) ++ type f.result :: count f.params.length ++
    f.params.map type ++ flag f.privileged ++ whole f.index

/-- A library: all its functions, whether privileged or not. -/
def library (l : Library) : Bytes :=
  version :: count l.functions.length ++ l.functions.flatMap function

/-- What a compile depends on, apart from the functions of the library, which are digested. -/
def inputs (tree libraryDigest : Bytes) (privileged : Bool) (backend : String) (memory : Int) :
    Bytes :=
  version :: scriptMark :: sized tree ++ libraryMark :: sized libraryDigest ++
    privilegedMark :: flag privileged ++ backendMark :: sized (Text.bytes backend) ++
    memoryMark :: whole memory

end Fingerprint

def Library.fingerprint (l : Library) : Bytes := Sha256.digest (Fingerprint.library l)

inductive FingerprintError where
  | noScript

def FingerprintError.message : FingerprintError → String
  | noScript => "hash: nil script"

/-- The fingerprint of a compile. Notes in the tree do not count. -/
def fingerprint (script : Option Script) (library : Library) (privileged : Bool) (backend : String)
    (memory : Int) : Except FingerprintError Bytes :=
  match script with
  | none => .error .noScript
  | some s =>
    .ok (Sha256.digest
      (Fingerprint.inputs s.encode library.fingerprint privileged backend memory))

namespace CompileOptions

/-- The memory that a fingerprint shows: an image for which none is asked has the usual one. -/
def fingerprintMemory (o : CompileOptions) : Int :=
  if o.theBackend.name = "lso" ∧ o.memory = 0 then Image.defaultMemory else o.memory

/-- The key under which the output of a compile is kept. -/
def key (o : CompileOptions) (script : Option Script) : Except FingerprintError Bytes :=
  fingerprint script o.theLibrary o.privileged o.theBackend.name o.fingerprintMemory

end CompileOptions
end Lsl

import Microprogram.ControlTable.Basic
import Microprogram.Sha256
import Microprogram.Text.Format

/-! A control table written out: as bytes, which also give its fingerprint, and as text.
Entries are written in order; bytes that are read may have their guards and control sets
in any order. -/
namespace Microprogram

namespace Mode

def encode (mode : Mode) : List UInt8 := Bytes.encodeNat 4 mode.rank

def decode : Bytes.Decoder Mode := fun bytes => do
  let (n,bytes) ← Bytes.decodeNat 4 bytes
  match n with
  | 0 => return (.none,bytes)
  | 1 => return (.immediate,bytes)
  | 2 => return (.absolute,bytes)
  | n => .error (.badVariant n 3)

end Mode

namespace Descriptor

def encode (d : Descriptor) : List UInt8 :=
  Bytes.encodeByte d.opcode ++ Bytes.encodeString d.name ++ d.mode.encode ++
    Bytes.encodeString d.description

def decode : Bytes.Decoder Descriptor := fun bytes => do
  let (opcode,bytes) ← Bytes.decodeByte bytes
  let (name,bytes) ← Bytes.decodeString bytes
  let (mode,bytes) ← Mode.decode bytes
  let (description,bytes) ← Bytes.decodeString bytes
  return (⟨opcode,name,mode,description⟩,bytes)

end Descriptor

namespace Ident
variable {kind : Kind}

def encode (id : Ident kind) : List UInt8 := Bytes.encodeNat 2 id.index

def decode : Bytes.Decoder (Ident kind) := fun bytes => do
  let (n,bytes) ← Bytes.decodeNat 2 bytes
  return (⟨UInt16.ofNat n⟩,bytes)

end Ident

namespace Entry

def encodeGate (gate : StatusId × Bool) : List UInt8 := gate.1.encode ++ Bytes.encodeBool gate.2

def decodeGate : Bytes.Decoder (StatusId × Bool) := fun bytes => do
  let (status,bytes) ← Ident.decode bytes
  let (value,bytes) ← Bytes.decodeBool bytes
  return ((status,value),bytes)

def encode (entry : Entry) : List UInt8 :=
  entry.descriptor.encode ++ Bytes.encodeByte entry.step ++
    Bytes.encodeList encodeGate entry.guard.toList ++
    Bytes.encodeList Ident.encode entry.controls.toList

def decode : Bytes.Decoder Entry := fun bytes => do
  let (descriptor,bytes) ← Descriptor.decode bytes
  let (step,bytes) ← Bytes.decodeByte bytes
  let (gates,bytes) ← Bytes.decodeList decodeGate bytes
  let (controls,bytes) ← Bytes.decodeList Ident.decode bytes
  return (⟨descriptor,step,.ofList gates,.ofList controls⟩,bytes)

end Entry

namespace ControlTable

def encode (table : ControlTable) : List UInt8 := Bytes.encodeList Entry.encode table.entries

/-- Bytes after the last entry are let be. -/
def decode (bytes : List UInt8) : Except TableError ControlTable :=
  match Bytes.decodeList Entry.decode bytes with
  | .ok (entries,_) => ofEntries entries
  | .error e => .error (.encoding e)

def fingerprint (table : ControlTable) : String := Text.hexBytes (Sha256.digest table.encode)

def line (hw : Registry) (entry : Entry) : String :=
  Text.joined " " [
    Text.hex 2 entry.descriptor.opcode.toNat,
    Text.padRight 16 entry.descriptor.label,
    Text.padLeft 2 ' ' (toString entry.step.toNat),
    entry.guard.text hw,
    "[" ++ Text.joined " " (entry.controls.toList.map hw.controlPath) ++ "]"]

/-- The entries in order. A name that holds a line feed spreads its entry over several
lines of the text. -/
def listing (table : ControlTable) (hw : Registry) : String :=
  Text.unlines (table.entries.map (line hw))

end ControlTable
end Microprogram

import Microprogram.Hardware.Units
import Microprogram.Signal.Lines

/-! Registers of a byte and of a word. A register puts its value on its bus, takes
the value of the bus, and counts. A word register may lend its two bytes to taps
of their own. -/
namespace Microprogram

namespace RegisterLines

def controls (lines : RegisterLines) : List ControlId :=
  [lines.tap.write,lines.tap.read] ++ lines.reset.toList ++ lines.increment.toList ++
    lines.decrement.toList

def drive (lines : RegisterLines) (hw : Registry) (asserted : Asserted) (value : UInt16)
    (driven : Driven) : Outcome Driven :=
  if asserted.contains lines.tap.write then
    .attempt driven (hw.drive lines.tap.bus value lines.path driven)
  else .done driven

def sense (lines : RegisterLines) (hw : Registry) (asserted : Asserted) (driven : Driven) :
    Except Fault (Option UInt16) :=
  if asserted.contains lines.tap.read then
    (hw.sense lines.tap.bus lines.path driven).map some
  else .ok none

def load {σ : Type} (lines : RegisterLines) (hw : Registry) (asserted : Asserted) (driven : Driven)
    (store : UInt16 → σ → σ) (s : σ) : Outcome σ :=
  match lines.sense hw asserted driven with
  | .error fault => .stopped fault s
  | .ok none => .done s
  | .ok (some value) => .done (store value s)

/-- Reset goes before increment, and increment before decrement. -/
def count {ω : Type} [OfNat ω 0] [OfNat ω 1] [Add ω] [Sub ω] (lines : RegisterLines)
    (asserted : Asserted) (value : ω) : ω :=
  if lines.reset.any asserted.contains then 0
  else if lines.increment.any asserted.contains then value + 1
  else if lines.decrement.any asserted.contains then value - 1
  else value

end RegisterLines

structure Register where
  lines : RegisterLines
  value : UInt8
deriving DecidableEq, Repr

namespace Register

def controls (r : Register) : List ControlId := r.lines.controls

def drive (r : Register) (hw : Registry) (asserted : Asserted) (driven : Driven) : Outcome Driven :=
  r.lines.drive hw asserted r.value.toUInt16 driven

def load (r : Register) (hw : Registry) (asserted : Asserted) (driven : Driven) : Outcome Register :=
  r.lines.load hw asserted driven (fun value r => { r with value := value.toUInt8 }) r

def count (r : Register) (asserted : Asserted) : Register :=
  { r with value := r.lines.count asserted r.value }

end Register

structure WordRegister where
  lines : RegisterLines
  halves : Option (RegisterLines × RegisterLines)
  value : UInt16
deriving DecidableEq, Repr

namespace WordRegister

def high (w : WordRegister) : UInt8 := (w.value >>> 8).toUInt8
def low (w : WordRegister) : UInt8 := w.value.toUInt8

def withHigh (byte : UInt16) (w : WordRegister) : WordRegister :=
  { w with value := (byte <<< 8) ||| (w.value &&& 0x00ff) }

def withLow (byte : UInt16) (w : WordRegister) : WordRegister :=
  { w with value := (w.value &&& 0xff00) ||| (byte &&& 0x00ff) }

def controls (w : WordRegister) : List ControlId :=
  w.lines.controls ++ match w.halves with
    | some (high,low) => high.controls ++ low.controls
    | none => []

/-- The word first, then its high byte, then its low byte. -/
def drive (w : WordRegister) (hw : Registry) (asserted : Asserted) (driven : Driven) : Outcome Driven :=
  let word := w.lines.drive hw asserted w.value driven
  match w.halves with
  | none => word
  | some (high,low) =>
    (word.andThen (high.drive hw asserted w.high.toUInt16)).andThen
      (low.drive hw asserted w.low.toUInt16)

/-- The word first; a byte that is taken replaces only its half. -/
def load (w : WordRegister) (hw : Registry) (asserted : Asserted) (driven : Driven) :
    Outcome WordRegister :=
  let word := w.lines.load hw asserted driven (fun value w => { w with value }) w
  match w.halves with
  | none => word
  | some (high,low) =>
    (word.andThen (high.load hw asserted driven withHigh)).andThen
      (low.load hw asserted driven withLow)

def count (w : WordRegister) (asserted : Asserted) : WordRegister :=
  { w with value := w.lines.count asserted w.value }

end WordRegister
end Microprogram

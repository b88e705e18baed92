import Microprogram.ControlTable.Bytes
import Microprogram.Microcode.Program

/-! The control table: for an instruction, a step and the statuses, the controls to
assert. Entries are kept in ascending order of their keys, which do not repeat,
and are found through one row for each opcode. -/
namespace Microprogram

structure Entry where
  descriptor : Descriptor
  step : UInt8
  guard : Guard
  controls : ControlSet
deriving DecidableEq

namespace Entry

structure Key where
  descriptor : Descriptor
  step : UInt8
  guard : Guard
deriving DecidableEq

/-- By descriptor, then step, then guard. -/
instance : Ord Key :=
  ⟨compareLex (compareOn Key.descriptor) (compareLex (compareOn Key.step) (compareOn Key.guard))⟩

instance : Std.TransOrd Key :=
  inferInstanceAs (Std.TransCmp (compareLex (compareOn Key.descriptor)
    (compareLex (compareOn Key.step) (compareOn Key.guard))))

instance : Std.LawfulEqOrd Key where
  compare_self := Ordering.then_eq_eq.mpr ⟨Std.ReflOrd.compare_self,
    Ordering.then_eq_eq.mpr ⟨Std.ReflOrd.compare_self,Std.ReflOrd.compare_self⟩⟩
  eq_of_compare {a b} same := by
    obtain ⟨descriptor,rest⟩ := Ordering.then_eq_eq.mp same
    obtain ⟨step,guard⟩ := Ordering.then_eq_eq.mp rest
    cases a; cases b
    rw [Key.mk.injEq]
    exact ⟨Std.LawfulEqOrd.eq_of_compare descriptor,Std.LawfulEqOrd.eq_of_compare step,
      Std.LawfulEqOrd.eq_of_compare guard⟩

def key (entry : Entry) : Key := ⟨entry.descriptor,entry.step,entry.guard⟩

def answers (entry : Entry) (step : UInt8) (status : StatusId → Bool) : Bool :=
  entry.step = step && entry.guard.holds status

end Entry

inductive TableError
  | duplicateEntry (descriptor : String) (step : UInt8) (guard : Guard)
  | stepIndexOverflow (descriptor : String) (steps : Nat)
  | encoding (error : Bytes.DecodeError)
deriving DecidableEq

def TableError.message : TableError → String
  | duplicateEntry descriptor step guard =>
    s!"Duplicate table entry for {descriptor} step {step.toNat} under " ++ guard.numberedText
  | stepIndexOverflow descriptor steps =>
    s!"Instruction {descriptor} has {steps} steps, more than a step index can address"
  | encoding error => s!"Table encoding error: {error.message}"

structure ControlTable where
  /-- In ascending order. -/
  entries : List Entry
  /-- The entries of each opcode, in ascending order. -/
  rows : Array (List Entry)
deriving DecidableEq

namespace ControlTable

def rowsOf (entries : List Entry) : Array (List Entry) :=
  entries.foldr (fun entry rows => rows.modify entry.descriptor.opcode.toNat (entry :: ·))
    (Array.replicate 256 [])

def ofSorted (entries : List Entry) : ControlTable := ⟨entries,rowsOf entries⟩

def empty : ControlTable := ofSorted []

instance : Inhabited ControlTable := ⟨empty⟩

/-- Adds an entry to those in order; a key may not repeat. -/
def place (sorted : List Entry) (entry : Entry) : Except TableError (List Entry) :=
  match Sorted.find? Entry.key entry.key sorted with
  | some _ => .error (.duplicateEntry entry.descriptor.label entry.step entry.guard)
  | none => .ok (Sorted.insert Entry.key entry sorted)

def ofEntries (entries : List Entry) : Except TableError ControlTable :=
  (entries.foldlM place []).map ofSorted

def size (table : ControlTable) : Nat := table.entries.length

def row (table : ControlTable) (opcode : UInt8) : List Entry := table.rows.getD opcode.toNat []

/-- The first entry for an opcode at a step whose guard holds. -/
def lookup (table : ControlTable) (opcode step : UInt8) (status : StatusId → Bool) : Option Entry :=
  (table.row opcode).find? fun entry => entry.answers step status

def entriesOf (variant : Variant) : List Entry :=
  variant.steps.zipIdx.map fun (step,place) =>
    ⟨variant.descriptor,UInt8.ofNat place,variant.guard,step.controls⟩

/-- A step has to have a number below 256. -/
def lowerVariant (variant : Variant) : Except TableError (List Entry) :=
  if variant.steps.length > 256 then
    .error (.stepIndexOverflow variant.label variant.steps.length)
  else .ok (entriesOf variant)

def lower (program : Program) : Except TableError ControlTable := do
  ofEntries (← program.toList.mapM lowerVariant).flatten

end ControlTable
end Microprogram

import Microprogram.Hardware.Registry
import Microprogram.Sorted.Map
import Microprogram.Sorted.Set

/-! Guards: the status values under which a variant of an instruction applies. A
status that a guard does not name may have either value. -/
namespace Microprogram

abbrev Guard := SortedMap StatusId Bool

/-- The controls asserted together in one cycle. -/
abbrev ControlSet := SortedSet ControlId

namespace Guard

def holds (guard : Guard) (status : StatusId → Bool) : Bool :=
  guard.toList.all fun pair => status pair.1 == pair.2

/-- Whether some status state satisfies both guards. -/
def overlaps (guard other : Guard) : Bool :=
  guard.toList.all fun pair =>
    match other.get? pair.1 with
    | some value => value == pair.2
    | none => true

def flip (guard : Guard) (status : StatusId) (value : Bool) : Guard := guard.insert status !value

/-- Written by paths, as in `{/cpu/zero=true}`. -/
def text (guard : Guard) (hw : Registry) : String :=
  "\x7b" ++ Text.joined ", " (guard.toList.map fun pair => s!"{hw.statusPath pair.1}={pair.2}") ++ "\x7d"

/-- Written by numbers, as in `{status 3=true}`. -/
def numberedText (guard : Guard) : String :=
  "\x7b" ++ Text.joined ", " (guard.toList.map fun pair => s!"status {pair.1.text}={pair.2}") ++ "\x7d"

end Guard
end Microprogram

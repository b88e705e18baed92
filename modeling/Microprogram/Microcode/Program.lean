import Microprogram.Microcode.Guard

/-! Microcode as data: steps of control lines, variants of instructions, and
programs, which are sets of variants kept in order. Equal variants are one. -/
namespace Microprogram

/-- One cycle's worth of controls. Steps of different stages are kept apart. -/
structure Step where
  stage : UInt8
  controls : ControlSet
  /-- Buses that the step says it moves a value over. -/
  buses : SortedSet BusId
deriving DecidableEq

namespace Step

/-- By stage, then controls, then buses. -/
instance : Ord Step :=
  ⟨compareLex (compareOn stage) (compareLex (compareOn controls) (compareOn buses))⟩

instance : Std.TransOrd Step :=
  inferInstanceAs (Std.TransCmp
    (compareLex (compareOn stage) (compareLex (compareOn controls) (compareOn buses))))

instance : Std.LawfulEqOrd Step where
  compare_self := Ordering.then_eq_eq.mpr ⟨Std.ReflOrd.compare_self,
    Ordering.then_eq_eq.mpr ⟨Std.ReflOrd.compare_self,Std.ReflOrd.compare_self⟩⟩
  eq_of_compare {a b} same := by
    obtain ⟨stage,rest⟩ := Ordering.then_eq_eq.mp same
    obtain ⟨controls,buses⟩ := Ordering.then_eq_eq.mp rest
    cases a; cases b
    rw [Step.mk.injEq]
    exact ⟨Std.LawfulEqOrd.eq_of_compare stage,Std.LawfulEqOrd.eq_of_compare controls,
      Std.LawfulEqOrd.eq_of_compare buses⟩

def ofLists (stage : UInt8) (controls : List ControlId) (buses : List BusId) : Step :=
  ⟨stage,.ofList controls,.ofList buses⟩

def contains (step : Step) (control : ControlId) : Bool := step.controls.contains control

def withControl (step : Step) (control : ControlId) : Step :=
  { step with controls := step.controls.insert control }

def withoutControl (step : Step) (control : ControlId) : Step :=
  { step with controls := step.controls.erase control }

/-- The controls and buses of both steps, in the stage of the first. -/
def union (step other : Step) : Step :=
  ⟨step.stage,step.controls.union other.controls,step.buses.union other.buses⟩

end Step

structure Variant where
  descriptor : Descriptor
  guard : Guard
  steps : List Step
deriving DecidableEq

namespace Variant

/-- By descriptor, then guard, then steps. -/
instance : Ord Variant :=
  ⟨compareLex (compareOn descriptor) (compareLex (compareOn guard) (compareOn steps))⟩

instance : Std.TransOrd Variant :=
  inferInstanceAs (Std.TransCmp
    (compareLex (compareOn descriptor) (compareLex (compareOn guard) (compareOn steps))))

instance : Std.LawfulEqOrd Variant where
  compare_self := Ordering.then_eq_eq.mpr ⟨Std.ReflOrd.compare_self,
    Ordering.then_eq_eq.mpr ⟨Std.ReflOrd.compare_self,Std.ReflOrd.compare_self⟩⟩
  eq_of_compare {a b} same := by
    obtain ⟨descriptor,rest⟩ := Ordering.then_eq_eq.mp same
    obtain ⟨guard,steps⟩ := Ordering.then_eq_eq.mp rest
    cases a; cases b
    rw [Variant.mk.injEq]
    exact ⟨Std.LawfulEqOrd.eq_of_compare descriptor,Std.LawfulEqOrd.eq_of_compare guard,
      Std.LawfulEqOrd.eq_of_compare steps⟩

def overlaps (variant other : Variant) : Bool := variant.guard.overlaps other.guard

def label (variant : Variant) : String := variant.descriptor.label

end Variant

/-- Every variant of every instruction, in ascending order. -/
abbrev Program := SortedSet Variant

namespace Program

def variantsOf (program : Program) (d : Descriptor) : List Variant :=
  program.toList.filter fun variant => variant.descriptor = d

def descriptors (program : Program) : SortedSet Descriptor :=
  .ofList (program.toList.map Variant.descriptor)

def stepCount (program : Program) : Nat :=
  program.toList.foldl (fun count v => count + v.steps.length) 0

end Program
end Microprogram

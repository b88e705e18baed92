import Microprogram.Microcode.Rejection

/-! The check of guards: a variant gated on a status has a sibling for the other
value of it, and no status state satisfies the guards of two variants. -/
namespace Microprogram

namespace Guard

/-- The first status of a guard whose other value no sibling takes. -/
def unpaired? (guards : List Guard) (guard : Guard) : Option (StatusId × Bool) :=
  guard.toList.find? fun pair => !guards.contains (guard.flip pair.1 pair.2)

def firstOverlap? : List Guard → Option (Guard × Guard)
  | [] => none
  | guard :: rest =>
    match rest.find? guard.overlaps with
    | some other => some (guard,other)
    | none => firstOverlap? rest

/-- Missing siblings of any variant come before overlaps. -/
def checkComplete (hw : Registry) (label : String) (guards : List Guard) : Except Rejection Unit := do
  guards.forM fun guard =>
    match unpaired? guards guard with
    | some (status,value) => .error (.incompleteStatus label (hw.statusPath status) (!value)
        (Guard.text (guard.erase status) hw))
    | none => .ok ()
  if let some (first,second) := firstOverlap? guards then
    .error (.ambiguousVariants label (first.text hw) (second.text hw))

end Guard

namespace Program

def checkCompleteness (hw : Registry) (program : Program) : Except Rejection Unit :=
  program.descriptors.toList.forM fun d =>
    Guard.checkComplete hw d.label ((program.variantsOf d).map Variant.guard)

end Program
end Microprogram

import Microprogram.Part.Register

/-! The ALU of a machine: two operand registers, a result register, and a control
for each operation, of which one at a time may be asserted. -/
namespace Microprogram

structure AluUnit where
  path : String
  lhs : Register
  rhs : Register
  result : Register
  ops : Vector ControlId 9
  flags : Flags
  carryIn : StatusId
deriving DecidableEq, Repr

namespace AluUnit

def ofLines (lines : AluLines) (carryIn : StatusId) : AluUnit :=
  ⟨lines.path,⟨lines.lhs,0⟩,⟨lines.rhs,0⟩,⟨lines.result,0⟩,lines.ops,lines.flags,carryIn⟩

def controls (alu : AluUnit) : List ControlId :=
  alu.ops.toList ++ alu.lhs.controls ++ alu.rhs.controls ++ alu.result.controls

def statuses (alu : AluUnit) : List StatusId := alu.flags.all

def drive (alu : AluUnit) (hw : Registry) (asserted : Asserted) (driven : Driven) : Outcome Driven :=
  ((alu.lhs.drive hw asserted driven).andThen (alu.rhs.drive hw asserted)).andThen
    (alu.result.drive hw asserted)

def load (alu : AluUnit) (hw : Registry) (asserted : Asserted) (driven : Driven) : Outcome AluUnit :=
  (((alu.lhs.load hw asserted driven).map fun lhs => { alu with lhs }).andThen
    fun alu => (alu.rhs.load hw asserted driven).map fun rhs => { alu with rhs }).andThen
    fun alu => (alu.result.load hw asserted driven).map fun result => { alu with result }

/-- The three registers count before an operation is carried out. -/
def count (alu : AluUnit) (asserted : Asserted) : AluUnit :=
  { alu with
    lhs := alu.lhs.count asserted
    rhs := alu.rhs.count asserted
    result := alu.result.count asserted }

def selected (alu : AluUnit) (asserted : Asserted) : List Alu.Op :=
  Alu.Op.all.filter fun op => asserted.contains (alu.ops.get op.index)

def compute (alu : AluUnit) (op : Alu.Op) (statuses : SortedSet StatusId) : Alu.Output :=
  Alu.compute op alu.lhs.value alu.rhs.value (statuses.contains alu.carryIn)

def reports (alu : AluUnit) (out : Alu.Output) : List (StatusId × Bool) :=
  [(alu.flags.carry,out.carry),(alu.flags.zero,out.zero),(alu.flags.negative,out.negative),
    (alu.flags.overflow,out.overflow)]

/-- Counts, then carries out the one operation that is asserted. -/
def process (alu : AluUnit) (hw : Registry) (asserted : Asserted) (statuses : SortedSet StatusId)
    (staged : Staged) : Outcome (AluUnit × Staged) :=
  let alu := alu.count asserted
  match alu.selected asserted with
  | [] => .done (alu,staged)
  | [op] =>
    let out := alu.compute op statuses
    let alu := { alu with result := { alu.result with value := out.value } }
    (hw.stageAll (alu.reports out) staged).map (alu,·)
  | ops => .stopped (.aluConflict (ops.map Alu.Op.name)) (alu,staged)

end AluUnit
end Microprogram

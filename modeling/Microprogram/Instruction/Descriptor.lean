/-! Identities of machine instructions: an opcode byte, a mnemonic, the way the
operand is found, and a line of description. -/
namespace Microprogram

/-- How an instruction finds its operand. -/
inductive Mode
  | none
  | immediate
  /-- A 16-bit address follows the opcode, high byte first. -/
  | absolute
deriving DecidableEq, Repr, Inhabited

namespace Mode

def name : Mode → String
  | none => "none"
  | immediate => "immediate"
  | absolute => "absolute"

def rank : Mode → Nat
  | none => 0
  | immediate => 1
  | absolute => 2

def operandLength : Mode → Nat := rank

instance : Ord Mode := ⟨compareOn rank⟩

instance : Std.TransOrd Mode := inferInstanceAs (Std.TransCmp (compareOn rank))

instance : Std.LawfulEqOrd Mode where
  compare_self {m} := by cases m <;> rfl
  eq_of_compare {a b} same := by
    have equal : a.rank = b.rank := Std.LawfulEqOrd.eq_of_compare same
    cases a <;> cases b <;> first | rfl | cases equal

end Mode

structure Descriptor where
  opcode : UInt8
  name : String
  mode : Mode
  description : String
deriving DecidableEq, Repr

namespace Descriptor

def label (d : Descriptor) : String := d.name ++ " (" ++ d.mode.name ++ ")"

/-- By opcode, then name, mode and description. -/
instance : Ord Descriptor :=
  ⟨compareLex (compareOn opcode) (compareLex (compareOn name)
    (compareLex (compareOn mode) (compareOn description)))⟩

instance : Std.TransOrd Descriptor :=
  inferInstanceAs (Std.TransCmp (compareLex (compareOn opcode) (compareLex (compareOn name)
    (compareLex (compareOn mode) (compareOn description)))))

instance : Std.LawfulEqOrd Descriptor where
  compare_self := Ordering.then_eq_eq.mpr ⟨Std.ReflOrd.compare_self,Ordering.then_eq_eq.mpr
    ⟨Std.ReflOrd.compare_self,Ordering.then_eq_eq.mpr
      ⟨Std.ReflOrd.compare_self,Std.ReflOrd.compare_self⟩⟩⟩
  eq_of_compare {a b} same := by
    obtain ⟨opcode,rest⟩ := Ordering.then_eq_eq.mp same
    obtain ⟨name,rest⟩ := Ordering.then_eq_eq.mp rest
    obtain ⟨mode,description⟩ := Ordering.then_eq_eq.mp rest
    cases a; cases b
    rw [Descriptor.mk.injEq]
    exact ⟨Std.LawfulEqOrd.eq_of_compare opcode,Std.LawfulEqOrd.eq_of_compare name,
      Std.LawfulEqOrd.eq_of_compare mode,Std.LawfulEqOrd.eq_of_compare description⟩

end Descriptor
end Microprogram

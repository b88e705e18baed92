/-! Identities of hardware declarations: a number among the declarations of one
kind. Numbers have sixteen bits, so a kind has at most 65536 declarations. -/
namespace Microprogram

/-- What a piece of hardware can be declared as. -/
inductive Kind
  | component
  | control
  | status
  | bus
deriving DecidableEq, Repr

def Kind.name : Kind → String
  | component => "component"
  | control => "control"
  | status => "status"
  | bus => "bus"

/-- The number of a declaration of the given kind. -/
structure Ident (kind : Kind) where
  num : UInt16
deriving DecidableEq, Repr

abbrev ComponentId := Ident .component
abbrev ControlId := Ident .control
abbrev StatusId := Ident .status
abbrev BusId := Ident .bus

namespace Ident
variable {kind : Kind}

def index (id : Ident kind) : Nat := id.num.toNat

instance : Inhabited (Ident kind) := ⟨⟨0⟩⟩

instance : Ord (Ident kind) := ⟨compareOn num⟩

instance : Std.TransOrd (Ident kind) :=
  inferInstanceAs (Std.TransCmp (compareOn num))

instance : Std.LawfulEqOrd (Ident kind) where
  compare_self {id} := Std.ReflOrd.compare_self (a := id.num)
  eq_of_compare {a b} same := by
    have equal : a.num = b.num := Std.LawfulEqOrd.eq_of_compare same
    cases a; cases b; cases equal; rfl

def text (id : Ident kind) : String := toString id.num.toNat

end Ident
end Microprogram

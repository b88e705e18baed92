import Std.Data.TreeMap
import Microprogram.Phase
import Microprogram.StructuralError

/-! The registry of declared hardware: components, control lines, status lines
and buses, each reached by its number and by a path such as `/cpu/a/write`. -/
namespace Microprogram

inductive BusWidth
  | byte
  | word
deriving DecidableEq, Repr

def BusWidth.name : BusWidth → String
  | byte => "byte"
  | word => "word"

/-- What an asserted control line makes its owner do. -/
inductive ControlAction
  | write (bus : BusId)
  | read (bus : BusId)
  | process
  | clear
deriving DecidableEq, Repr

namespace ControlAction

def phase : ControlAction → Phase
  | write _ => .write
  | read _ => .read
  | process => .process
  | clear => .clear

def name : ControlAction → String
  | write _ => "write"
  | read _ => "read"
  | process => "process"
  | clear => "clear"

def bus? : ControlAction → Option BusId
  | write bus => some bus
  | read bus => some bus
  | process => none
  | clear => none

end ControlAction

structure ComponentDecl where
  name : String
  path : String
  /-- Absent for the root alone. -/
  parent : Option ComponentId
deriving DecidableEq, Repr

structure ControlDecl where
  name : String
  path : String
  owner : ComponentId
  action : ControlAction
  /-- Whether the line falls at the end of every cycle. -/
  autoClear : Bool
deriving DecidableEq, Repr

structure StatusDecl where
  name : String
  path : String
  owner : ComponentId
deriving DecidableEq, Repr

structure BusDecl where
  name : String
  path : String
  width : BusWidth
deriving DecidableEq, Repr

structure Target where
  kind : Kind
  num : UInt16
deriving DecidableEq, Repr

structure Registry where
  components : Array ComponentDecl
  controls : Array ControlDecl
  statuses : Array StatusDecl
  buses : Array BusDecl
  paths : Std.TreeMap String Target

namespace Registry

/-- Only the root component. -/
def initial : Registry where
  components := #[⟨"","/",none⟩]
  controls := #[]
  statuses := #[]
  buses := #[]
  paths := ({} : Std.TreeMap String Target).insert "/" ⟨.component,0⟩

def root : ComponentId := ⟨0⟩

def count (hw : Registry) : Kind → Nat
  | .component => hw.components.size
  | .control => hw.controls.size
  | .status => hw.statuses.size
  | .bus => hw.buses.size

def component? (hw : Registry) (id : ComponentId) : Option ComponentDecl := hw.components[id.index]?
def control? (hw : Registry) (id : ControlId) : Option ControlDecl := hw.controls[id.index]?
def status? (hw : Registry) (id : StatusId) : Option StatusDecl := hw.statuses[id.index]?
def bus? (hw : Registry) (id : BusId) : Option BusDecl := hw.buses[id.index]?

/-- The declaration found, or the error that the number names none. -/
def known {kind : Kind} {δ : Type} (id : Ident kind) : Option δ → Except StructuralError δ
  | some decl => .ok decl
  | none => .error (.unknown kind id.num)

def component (hw : Registry) (id : ComponentId) : Except StructuralError ComponentDecl :=
  known id (hw.component? id)
def control (hw : Registry) (id : ControlId) : Except StructuralError ControlDecl :=
  known id (hw.control? id)
def status (hw : Registry) (id : StatusId) : Except StructuralError StatusDecl :=
  known id (hw.status? id)
def bus (hw : Registry) (id : BusId) : Except StructuralError BusDecl :=
  known id (hw.bus? id)

def lookup (hw : Registry) (path : String) : Except StructuralError Target :=
  match hw.paths.get? path with
  | some target => .ok target
  | none => .error (.unknownPath path)

/-- The identity of the given kind at a path; another kind there does not count. -/
def identAt (hw : Registry) (kind : Kind) (path : String) : Except StructuralError (Ident kind) := do
  let target ← hw.lookup path
  if target.kind = kind then .ok ⟨target.num⟩ else .error (.unknownPath path)

def idents (hw : Registry) (kind : Kind) : List (Ident kind) :=
  (List.range (hw.count kind)).map fun n => ⟨UInt16.ofNat n⟩

def controlsOf (hw : Registry) (owner : ComponentId) : List ControlId :=
  (hw.idents .control).filter fun id => (hw.control? id).any fun decl => decl.owner = owner

/-- Path of a control; a dangling number is written as a placeholder. -/
def controlPath (hw : Registry) (id : ControlId) : String :=
  ((hw.control? id).map ControlDecl.path).getD s!"<control {id.text}>"

def statusPath (hw : Registry) (id : StatusId) : String :=
  ((hw.status? id).map StatusDecl.path).getD s!"<status {id.text}>"

def busPath (hw : Registry) (id : BusId) : String :=
  ((hw.bus? id).map BusDecl.path).getD s!"<bus {id.text}>"

end Registry

/-- The two controls that drive the step counter of a controller. -/
structure StepCounter where
  increment : ControlId
  reset : ControlId
deriving DecidableEq, Repr

namespace StepCounter

def contains (counter : StepCounter) (control : ControlId) : Bool :=
  control = counter.increment || control = counter.reset

end StepCounter
end Microprogram

import Microprogram.Hardware.Registry

/-! Declaring hardware. Each declaration takes the next number of its kind and a
path of its own; a refused declaration leaves the registry as it was. -/
namespace Microprogram.Registry

def childPath (hw : Registry) (parent : ComponentId) (name : String) :
    Except StructuralError String := do
  let decl ← hw.component parent
  return if decl.path = "/" then "/" ++ name else decl.path ++ "/" ++ name

/-- The next number of a kind, while sixteen bits can still hold it. -/
def nextNum (hw : Registry) (kind : Kind) : Except StructuralError UInt16 :=
  if hw.count kind ≤ 65535 then .ok (UInt16.ofNat (hw.count kind)) else .error (.tooManyDeclarations kind)

/-- Books a path for a declaration; a path serves only one. -/
def claim (hw : Registry) (path : String) (target : Target) :
    Except StructuralError (Std.TreeMap String Target) :=
  if hw.paths.contains path then .error (.duplicatePath path)
  else .ok (hw.paths.insert path target)

inductive Declaration
  | component (parent : ComponentId) (name : String)
  | bus (name : String) (width : BusWidth)
  | control (owner : ComponentId) (name : String) (action : ControlAction) (autoClear : Bool)
  | status (owner : ComponentId) (name : String)
deriving DecidableEq, Repr

def declareComponent (hw : Registry) (parent : ComponentId) (name : String) :
    Except StructuralError (ComponentId × Registry) := do
  let path ← hw.childPath parent name
  let num ← hw.nextNum .component
  let paths ← hw.claim path ⟨.component,num⟩
  return (⟨num⟩,{ hw with paths, components := hw.components.push ⟨name,path,some parent⟩ })

/-- A bus stands under the root. -/
def declareBus (hw : Registry) (name : String) (width : BusWidth) :
    Except StructuralError (BusId × Registry) := do
  let path ← hw.childPath root name
  let num ← hw.nextNum .bus
  let paths ← hw.claim path ⟨.bus,num⟩
  return (⟨num⟩,{ hw with paths, buses := hw.buses.push ⟨name,path,width⟩ })

/-- The bus of a control has to be declared before it. -/
def declareControl (hw : Registry) (owner : ComponentId) (name : String) (action : ControlAction)
    (autoClear : Bool) : Except StructuralError (ControlId × Registry) := do
  if let some bus := action.bus? then
    let _ ← hw.bus bus
  let path ← hw.childPath owner name
  let num ← hw.nextNum .control
  let paths ← hw.claim path ⟨.control,num⟩
  return (⟨num⟩,
    { hw with paths, controls := hw.controls.push ⟨name,path,owner,action,autoClear⟩ })

def declareStatus (hw : Registry) (owner : ComponentId) (name : String) :
    Except StructuralError (StatusId × Registry) := do
  let path ← hw.childPath owner name
  let num ← hw.nextNum .status
  let paths ← hw.claim path ⟨.status,num⟩
  return (⟨num⟩,{ hw with paths, statuses := hw.statuses.push ⟨name,path,owner⟩ })

def declare (hw : Registry) : Declaration → Except StructuralError (UInt16 × Registry)
  | .component parent name => (hw.declareComponent parent name).map fun (id,hw) => (id.num,hw)
  | .bus name width => (hw.declareBus name width).map fun (id,hw) => (id.num,hw)
  | .control owner name action autoClear =>
    (hw.declareControl owner name action autoClear).map fun (id,hw) => (id.num,hw)
  | .status owner name => (hw.declareStatus owner name).map fun (id,hw) => (id.num,hw)

/-- Makes declarations in order. If one is refused, tells how many were made before it and why. -/
def declareAll : List Declaration → Registry → Except (Nat × StructuralError) Registry
  | [], hw => .ok hw
  | declaration :: rest, hw =>
    match hw.declare declaration with
    | .ok (_,next) => (declareAll rest next).mapError fun (made,error) => (made + 1,error)
    | .error error => .error (0,error)

end Microprogram.Registry

import Microprogram.Computer.Layout

/-! The layout in numbers. Declaring the hardware succeeds, and this is what comes
of it: identities count up in the order of declaration. -/
namespace Microprogram.Layout

def tapDecls (owner : UInt16) (path : String) (bus : BusId) : List ControlDecl :=
  [⟨"write",path ++ "/write",⟨owner⟩,.write bus,true⟩,⟨"read",path ++ "/read",⟨owner⟩,.read bus,true⟩]

def processDecls (owner : UInt16) (path : String) (names : List String) : List ControlDecl :=
  names.map fun name => ⟨name,path ++ "/" ++ name,⟨owner⟩,.process,true⟩

def flagDecls (owner : UInt16) (path : String) : List StatusDecl :=
  ["carry","zero","negative","overflow"].map fun name => ⟨name,path ++ "/" ++ name,⟨owner⟩⟩

def dataBusId : BusId := ⟨0⟩
def addressBusId : BusId := ⟨1⟩

def standardControls : List ControlDecl :=
  processDecls 0 "" ["halt","crash"] ++
  tapDecls 2 "/cpu/a" dataBusId ++ processDecls 2 "/cpu/a" ["reset"] ++
  tapDecls 3 "/cpu/x" dataBusId ++ processDecls 3 "/cpu/x" ["reset","increment","decrement"] ++
  tapDecls 4 "/cpu/y" dataBusId ++ processDecls 4 "/cpu/y" ["reset","increment","decrement"] ++
  tapDecls 6 "/cpu/alu/lhs" dataBusId ++ tapDecls 7 "/cpu/alu/rhs" dataBusId ++
  tapDecls 8 "/cpu/alu/result" dataBusId ++
  processDecls 5 "/cpu/alu" (Alu.Op.all.map Alu.Op.name) ++
  tapDecls 9 "/cpu/status_register" dataBusId ++
  [⟨"latch","/cpu/status_register/latch",⟨9⟩,.clear,false⟩] ++
  processDecls 9 "/cpu/status_register" ["set_carry","clear_carry"] ++
  tapDecls 10 "/cpu/pc" addressBusId ++ processDecls 10 "/cpu/pc" ["reset","increment"] ++
  tapDecls 11 "/cpu/buffer" addressBusId ++
  tapDecls 12 "/cpu/buffer/high" dataBusId ++ tapDecls 13 "/cpu/buffer/low" dataBusId ++
  tapDecls 15 "/cpu/controller/opcode" dataBusId ++
  processDecls 16 "/cpu/controller/step_counter" ["increment","reset"] ++
  tapDecls 17 "/memory" dataBusId ++
  tapDecls 18 "/memory/address" addressBusId ++ processDecls 18 "/memory/address" ["increment"]

def standardComponents : List ComponentDecl := [
  ⟨"","/",none⟩,⟨"cpu","/cpu",some ⟨0⟩⟩,⟨"a","/cpu/a",some ⟨1⟩⟩,⟨"x","/cpu/x",some ⟨1⟩⟩,
  ⟨"y","/cpu/y",some ⟨1⟩⟩,⟨"alu","/cpu/alu",some ⟨1⟩⟩,⟨"lhs","/cpu/alu/lhs",some ⟨5⟩⟩,
  ⟨"rhs","/cpu/alu/rhs",some ⟨5⟩⟩,⟨"result","/cpu/alu/result",some ⟨5⟩⟩,
  ⟨"status_register","/cpu/status_register",some ⟨1⟩⟩,⟨"pc","/cpu/pc",some ⟨1⟩⟩,
  ⟨"buffer","/cpu/buffer",some ⟨1⟩⟩,⟨"high","/cpu/buffer/high",some ⟨11⟩⟩,
  ⟨"low","/cpu/buffer/low",some ⟨11⟩⟩,⟨"controller","/cpu/controller",some ⟨1⟩⟩,
  ⟨"opcode","/cpu/controller/opcode",some ⟨14⟩⟩,
  ⟨"step_counter","/cpu/controller/step_counter",some ⟨14⟩⟩,⟨"memory","/memory",some ⟨0⟩⟩,
  ⟨"address","/memory/address",some ⟨17⟩⟩]

def pathsOf : Except StructuralError Layout → Std.TreeMap String Target
  | .ok layout => layout.hardware.paths
  | .error _ => {}

def standardHardware : Registry where
  components := standardComponents.toArray
  controls := standardControls.toArray
  statuses := (⟨"halted","/halted",⟨0⟩⟩ :: flagDecls 5 "/cpu/alu" ++
    flagDecls 9 "/cpu/status_register").toArray
  buses := #[⟨"data_bus","/data_bus",.byte⟩,⟨"address_bus","/address_bus",.word⟩]
  paths := pathsOf build

def plainRegister (path : String) (write read : UInt16) : RegisterLines :=
  ⟨path,⟨dataBusId,⟨write⟩,⟨read⟩⟩,none,none,none⟩

/-- The layout that declaring the hardware gives. -/
def standard : Layout where
  hardware := standardHardware
  dataBus := dataBusId
  addressBus := addressBusId
  root := ⟨⟨0⟩,⟨1⟩,⟨0⟩⟩
  a := ⟨"/cpu/a",⟨dataBusId,⟨2⟩,⟨3⟩⟩,some ⟨4⟩,none,none⟩
  x := ⟨"/cpu/x",⟨dataBusId,⟨5⟩,⟨6⟩⟩,some ⟨7⟩,some ⟨8⟩,some ⟨9⟩⟩
  y := ⟨"/cpu/y",⟨dataBusId,⟨10⟩,⟨11⟩⟩,some ⟨12⟩,some ⟨13⟩,some ⟨14⟩⟩
  alu := {
    path := "/cpu/alu"
    lhs := plainRegister "/cpu/alu/lhs" 15 16
    rhs := plainRegister "/cpu/alu/rhs" 17 18
    result := plainRegister "/cpu/alu/result" 19 20
    ops := #v[⟨21⟩,⟨22⟩,⟨23⟩,⟨24⟩,⟨25⟩,⟨26⟩,⟨27⟩,⟨28⟩,⟨29⟩]
    flags := ⟨⟨1⟩,⟨2⟩,⟨3⟩,⟨4⟩⟩ }
  statusRegister := ⟨"/cpu/status_register",⟨dataBusId,⟨30⟩,⟨31⟩⟩,⟨32⟩,⟨33⟩,⟨34⟩,⟨⟨5⟩,⟨6⟩,⟨7⟩,⟨8⟩⟩⟩
  pc := ⟨"/cpu/pc",⟨addressBusId,⟨35⟩,⟨36⟩⟩,some ⟨37⟩,some ⟨38⟩,none⟩
  buffer := ⟨"/cpu/buffer",⟨addressBusId,⟨39⟩,⟨40⟩⟩,none,none,none⟩
  high := plainRegister "/cpu/buffer/high" 41 42
  low := plainRegister "/cpu/buffer/low" 43 44
  controller := ⟨"/cpu/controller",plainRegister "/cpu/controller/opcode" 45 46,⟨⟨47⟩,⟨48⟩⟩⟩
  stepCounterPath := "/cpu/controller/step_counter"
  memory := ⟨"/memory",⟨dataBusId,⟨49⟩,⟨50⟩⟩,
    ⟨"/memory/address",⟨addressBusId,⟨51⟩,⟨52⟩⟩,none,some ⟨53⟩,none⟩⟩

def isStandard (layout : Layout) : Bool :=
  layout.hardware.components = standard.hardware.components &&
  layout.hardware.controls = standard.hardware.controls &&
  layout.hardware.statuses = standard.hardware.statuses &&
  layout.hardware.buses = standard.hardware.buses &&
  layout.dataBus = standard.dataBus && layout.addressBus = standard.addressBus &&
  layout.root = standard.root && layout.a = standard.a && layout.x = standard.x &&
  layout.y = standard.y && layout.alu = standard.alu &&
  layout.statusRegister = standard.statusRegister && layout.pc = standard.pc &&
  layout.buffer = standard.buffer && layout.high = standard.high && layout.low = standard.low &&
  layout.controller = standard.controller && layout.stepCounterPath = standard.stepCounterPath &&
  layout.memory = standard.memory

private theorem standard_of_numbers (made : Except StructuralError Layout)
    (numbers : made.toOption.any isStandard = true) :
    made = .ok { standard with hardware := { standardHardware with paths := pathsOf made } } := by
  cases made with
  | error error => contradiction
  | ok layout =>
    obtain ⟨hardware,_⟩ := layout
    obtain ⟨components,controls,statuses,buses,paths⟩ := hardware
    simp only [Except.toOption,Option.any_some,isStandard,Bool.and_eq_true,decide_eq_true_eq] at numbers
    obtain ⟨⟨⟨⟨⟨⟨⟨⟨⟨⟨⟨⟨⟨⟨⟨⟨⟨⟨rfl,rfl⟩,rfl⟩,rfl⟩,rfl⟩,rfl⟩,rfl⟩,rfl⟩,rfl⟩,rfl⟩,rfl⟩,rfl⟩,rfl⟩,rfl⟩,
      rfl⟩,rfl⟩,rfl⟩,rfl⟩,rfl⟩ := numbers
    rfl

private theorem build_numbers : build.toOption.any isStandard = true := by decide +kernel

theorem build_eq : build = .ok standard := standard_of_numbers build build_numbers

end Microprogram.Layout

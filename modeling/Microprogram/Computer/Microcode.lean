import Microprogram.Computer.Instructions
import Microprogram.Computer.Layout
import Microprogram.Microcode.Compiler

/-! The microcode of the computer. A recipe is the list of edits that makes a
variant of an instruction; each one begins with the same fetch stage, which reads
the opcode at the program counter and moves on. -/
namespace Microprogram.Computer

/-- A variant of an instruction, by the edits that follow the fetch stage. -/
structure Recipe where
  name : String
  mode : Mode
  edits : List Edit

variable (hw : Layout)

/-- The cycle that increments a register, where the register can count up. -/
def increment (register : RegisterLines) : List Edit :=
  (register.increment.map Edit.raise).toList

def readMemory (address dst : Tap) : List Edit :=
  [.copy address hw.memory.address.tap,.copy hw.memory.tap dst]

def writeMemory (address src : Tap) : List Edit :=
  [.copy address hw.memory.address.tap,.copy src hw.memory.tap]

/-- Reads the byte at the program counter, which moves on. -/
def readMemoryAtPc (dst : Tap) : List Edit := readMemory hw hw.pc.tap dst ++ increment hw.pc

/-- Reads the word at the program counter through the buffer, high byte first. -/
def readWordAtPc (dst : Tap) : List Edit :=
  readMemoryAtPc hw hw.high.tap ++ increment hw.memory.address ++
    [.copy hw.memory.tap hw.low.tap] ++ increment hw.pc ++ [.copy hw.buffer.tap dst]

def indirectRead (dst : Tap) : List Edit :=
  readWordAtPc hw hw.memory.address.tap ++ [.copy hw.memory.tap dst]

def indirectWrite (src : Tap) : List Edit :=
  readWordAtPc hw hw.memory.address.tap ++ [.copy src hw.memory.tap]

def aluOperation (op : Alu.Op) : List Edit :=
  [.step [hw.alu.control op,hw.statusRegister.latch] []]

def fetch : List Edit := readMemoryAtPc hw hw.controller.opcode.tap ++ [.nextStage]

/-- Load immediate, load from memory and store, for one register. -/
def loadStore (name : String) (register : RegisterLines) : List Recipe :=
  [⟨"ld" ++ name,.immediate,readMemoryAtPc hw register.tap⟩,
    ⟨"ld" ++ name,.absolute,indirectRead hw register.tap⟩,
    ⟨"st" ++ name,.absolute,indirectWrite hw register.tap⟩]

def transfer (name : String) (src dst : RegisterLines) : Recipe :=
  ⟨name,.none,[.copy src.tap dst.tap]⟩

def count (name : String) (control : Option ControlId) : Recipe :=
  ⟨name,.none,(control.map Edit.raise).toList⟩

def combine (op : Alu.Op) : List Edit :=
  [.copy hw.a.tap hw.alu.lhs.tap] ++ aluOperation hw op ++ [.copy hw.alu.result.tap hw.a.tap]

def binary (name : String) (op : Alu.Op) : List Recipe :=
  [⟨name,.immediate,readMemoryAtPc hw hw.alu.rhs.tap ++ combine hw op⟩,
    ⟨name,.absolute,indirectRead hw hw.alu.rhs.tap ++ combine hw op⟩]

/-- A difference with the carry set, of which only the flags are kept. -/
def compare : Recipe :=
  ⟨"cmp",.immediate,[.copy hw.a.tap hw.alu.lhs.tap] ++ readMemoryAtPc hw hw.alu.rhs.tap ++
    [.raise hw.statusRegister.setCarry] ++ aluOperation hw .subtract⟩

def shift (name : String) (op : Alu.Op) : Recipe := ⟨name,.none,combine hw op⟩

/-- Skips the address, or jumps to it. The two increments that skip it stand in
stages of their own, so that they are not merged. -/
def branch (name : String) (status : StatusId) (taken : Bool) : List Recipe :=
  [⟨name,.absolute,[.gate status !taken] ++ increment hw.pc ++ [.nextStage] ++ increment hw.pc⟩,
    ⟨name,.absolute,[.gate status taken] ++ readWordAtPc hw hw.pc.tap⟩]

def recipes : List Recipe :=
  [⟨"hlt",.none,[.raise hw.root.halt]⟩,⟨"nop",.none,[.step [] []]⟩,⟨"crs",.none,[.raise hw.root.crash]⟩] ++
  loadStore hw "a" hw.a ++ loadStore hw "x" hw.x ++ loadStore hw "y" hw.y ++
  [transfer "tax" hw.a hw.x,transfer "txa" hw.x hw.a,transfer "tay" hw.a hw.y,
    transfer "tya" hw.y hw.a] ++
  [count "inx" hw.x.increment,count "dex" hw.x.decrement,count "iny" hw.y.increment,
    count "dey" hw.y.decrement] ++
  binary hw "adc" .add ++ binary hw "sbc" .subtract ++ binary hw "and" .and ++
  binary hw "ora" .or ++ binary hw "eor" .xor ++ [compare hw] ++
  [shift hw "asl" .shiftLeft,shift hw "lsr" .shiftRight,shift hw "rol" .rotateLeft,
    shift hw "ror" .rotateRight] ++
  [⟨"jmp",.absolute,readWordAtPc hw hw.pc.tap⟩] ++
  branch hw "jeq" hw.statusRegister.flags.zero true ++
  branch hw "jne" hw.statusRegister.flags.zero false ++
  [⟨"sec",.none,[.raise hw.statusRegister.setCarry]⟩,
    ⟨"clc",.none,[.raise hw.statusRegister.clearCarry]⟩]

/-- The draft of a recipe; the catalog has to hold its instruction. -/
def draft (catalog : Catalog) (recipe : Recipe) : Except StructuralError Draft := do
  let descriptor ← catalog.require recipe.name recipe.mode
  return Draft.ofEdits descriptor (fetch hw ++ recipe.edits)

def drafts (catalog : Catalog) : Except StructuralError (List Draft) :=
  (recipes hw).mapM (draft hw catalog)

def compiler (catalog : Catalog) : Compiler := ⟨hw.hardware,catalog,hw.controller.counter⟩

structure Design where
  layout : Layout
  catalog : Catalog
  drafts : List Draft

namespace Design

def build : Except StructuralError Design := do
  let layout ← Layout.build
  let catalog ← Computer.catalog
  return ⟨layout,catalog,← Computer.drafts layout catalog⟩

def compiler (design : Design) : Compiler :=
  Computer.compiler design.layout design.catalog

def table (design : Design) : Except CompileError ControlTable :=
  design.compiler.compile design.drafts

end Design

end Microprogram.Computer

import Microprogram.Alu
import Microprogram.CommandLine
import Microprogram.Computer.Assembly
import Microprogram.Computer.Instructions
import Microprogram.Computer.Layout
import Microprogram.Computer.Microcode
import Microprogram.Computer.Report
import Microprogram.ControlTable.Basic
import Microprogram.ControlTable.Bytes
import Microprogram.ControlTable.Encoding
import Microprogram.Hardware.Declare
import Microprogram.Hardware.Ident
import Microprogram.Hardware.Registry
import Microprogram.Hardware.Units
import Microprogram.Instruction.Catalog
import Microprogram.Instruction.Descriptor
import Microprogram.Machine.Basic
import Microprogram.Machine.Bench
import Microprogram.Machine.Config
import Microprogram.Machine.Fault
import Microprogram.Machine.Topology
import Microprogram.Main
import Microprogram.Memory.Region
import Microprogram.Microcode.BusUse
import Microprogram.Microcode.Compiler
import Microprogram.Microcode.Completeness
import Microprogram.Microcode.Draft
import Microprogram.Microcode.Guard
import Microprogram.Microcode.Merging
import Microprogram.Microcode.Pass
import Microprogram.Microcode.Program
import Microprogram.Microcode.Rejection
import Microprogram.Microcode.Sequencing
import Microprogram.Microcode.Summary
import Microprogram.Part.AluUnit
import Microprogram.Part.Basic
import Microprogram.Part.Controller
import Microprogram.Part.Memory
import Microprogram.Part.Register
import Microprogram.Part.StatusRegister
import Microprogram.Phase
import Microprogram.Proofs.Alu.Chain
import Microprogram.Proofs.Computer.Agreement
import Microprogram.Proofs.Computer.Booting
import Microprogram.Proofs.Computer.Boundaries
import Microprogram.Proofs.Computer.BusSafety
import Microprogram.Proofs.Computer.Contents
import Microprogram.Proofs.Computer.Counting
import Microprogram.Proofs.Computer.Edits
import Microprogram.Proofs.Computer.Entering
import Microprogram.Proofs.Computer.Execution
import Microprogram.Proofs.Computer.Fetching
import Microprogram.Proofs.Computer.Following
import Microprogram.Proofs.Computer.Implementation
import Microprogram.Proofs.Computer.InstructionSet
import Microprogram.Proofs.Computer.Layout
import Microprogram.Proofs.Computer.Mapping
import Microprogram.Proofs.Computer.MemoryMap
import Microprogram.Proofs.Computer.Microcode
import Microprogram.Proofs.Computer.Observe
import Microprogram.Proofs.Computer.Phases
import Microprogram.Proofs.Computer.Ports
import Microprogram.Proofs.Computer.Recipes
import Microprogram.Proofs.Computer.Replay
import Microprogram.Proofs.Computer.Rest
import Microprogram.Proofs.Computer.Runs
import Microprogram.Proofs.Computer.Scripted
import Microprogram.Proofs.Computer.Selection
import Microprogram.Proofs.Computer.Start
import Microprogram.Proofs.Computer.StatusLines
import Microprogram.Proofs.Computer.Steadiness
import Microprogram.Proofs.Computer.Successor
import Microprogram.Proofs.Computer.Tables
import Microprogram.Proofs.Computer.Tabulation
import Microprogram.Proofs.Computer.Tick
import Microprogram.Proofs.Computer.Wiring
import Microprogram.Proofs.ControlTable.Bytes
import Microprogram.Proofs.ControlTable.Compilation
import Microprogram.Proofs.ControlTable.CreationOrder
import Microprogram.Proofs.ControlTable.Declared
import Microprogram.Proofs.ControlTable.Delimiting
import Microprogram.Proofs.ControlTable.Dispatch
import Microprogram.Proofs.ControlTable.Encoding
import Microprogram.Proofs.ControlTable.FetchStage
import Microprogram.Proofs.ControlTable.Lookup
import Microprogram.Proofs.ControlTable.Lowering
import Microprogram.Proofs.ControlTable.Scan
import Microprogram.Proofs.ControlTable.Sequencing
import Microprogram.Proofs.Hardware.Idents
import Microprogram.Proofs.Hardware.Registry
import Microprogram.Proofs.Instruction.Catalog
import Microprogram.Proofs.Machine.Atomicity
import Microprogram.Proofs.Machine.Faults
import Microprogram.Proofs.Machine.Idle
import Microprogram.Proofs.Machine.Order
import Microprogram.Proofs.Machine.Outcome
import Microprogram.Proofs.Machine.Ownership
import Microprogram.Proofs.Machine.Rollback
import Microprogram.Proofs.Machine.Running
import Microprogram.Proofs.Machine.Topology
import Microprogram.Proofs.Microcode.Blocks
import Microprogram.Proofs.Microcode.BusFaults
import Microprogram.Proofs.Microcode.BusUse
import Microprogram.Proofs.Microcode.Compiled
import Microprogram.Proofs.Microcode.Completeness
import Microprogram.Proofs.Microcode.Dispatch
import Microprogram.Proofs.Microcode.Drafts
import Microprogram.Proofs.Microcode.FetchStage
import Microprogram.Proofs.Microcode.Grouping
import Microprogram.Proofs.Microcode.Merging
import Microprogram.Proofs.Microcode.Minimality
import Microprogram.Proofs.Microcode.Sequencing
import Microprogram.Proofs.Microcode.Stages
import Microprogram.Proofs.Microcode.Summary
import Microprogram.Proofs.Part.Arbitration
import Microprogram.Proofs.Part.Deeds
import Microprogram.Proofs.Part.Idle
import Microprogram.Proofs.Part.Lines
import Microprogram.Proofs.Part.Outlets
import Microprogram.Proofs.Part.Processing
import Microprogram.Proofs.Part.Reading
import Microprogram.Proofs.Part.Turns
import Microprogram.Proofs.Part.Wiring
import Microprogram.Proofs.Sorted.Map
import Microprogram.Proofs.Sorted.Set
import Microprogram.Proofs.Text.Utf8
import Microprogram.Sha256
import Microprogram.Signal.Lines
import Microprogram.Sorted.Basic
import Microprogram.Sorted.Map
import Microprogram.Sorted.Set
import Microprogram.StructuralError
import Microprogram.Text.Format
import Microprogram.Text.Utf8
import Microprogram.Transcript

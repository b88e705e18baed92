import Microprogram.Memory.Region
import Microprogram.StructuralError

/-! What can stop a machine, and where an action that was stopped left off. -/
namespace Microprogram

inductive Fault
  | structural (error : StructuralError)
  | busConflict (bus first second : String)
  | memory (error : MemoryError)
  | openBus (bus reader : String)
  | missingEntry (opcode step : UInt8)
  | aluConflict (ops : List String)
  | crashed (cycle : Nat)
  | cycleLimitExceeded (limit : Nat)
  | invalidConfig (error : ConfigError)
deriving DecidableEq, Repr

namespace Fault
open Text

def message : Fault → String
  | structural error => s!"Structural error: {error.message}"
  | busConflict bus first second => s!"Bus conflict on {bus}: written by {first} and {second}"
  | memory error => s!"Memory error: {error.message}"
  | openBus bus reader => s!"{reader} read {bus} with no value set"
  | missingEntry opcode step =>
    s!"No table entry for opcode {hex 2 opcode.toNat} at step {step.toNat}"
  | aluConflict ops => "ALU operations asserted together: " ++ joined ", " ops
  | crashed cycle => s!"Crashed at cycle {cycle}"
  | cycleLimitExceeded limit => s!"Cycle limit exceeded: {limit}"
  | invalidConfig error => s!"Invalid config: {error.message}"

end Fault

/-- How an action on a state ended: it was carried out, or a fault stopped it in
the state it had reached by then. -/
inductive Outcome (σ : Type)
  | done (state : σ)
  | stopped (fault : Fault) (state : σ)
deriving DecidableEq, Repr

namespace Outcome
variable {σ τ : Type}

def state : Outcome σ → σ
  | done s => s
  | stopped _ s => s

def fault? : Outcome σ → Option Fault
  | done _ => none
  | stopped fault _ => some fault

@[inline]
def map (f : σ → τ) : Outcome σ → Outcome τ
  | done s => done (f s)
  | stopped fault s => stopped fault (f s)

@[inline]
def andThen (first : Outcome σ) (next : σ → Outcome σ) : Outcome σ :=
  match first with
  | done s => next s
  | stopped fault s => stopped fault s

/-- A single attempt: where it fails, the state stays. -/
@[inline]
def attempt (s : σ) : Except Fault σ → Outcome σ
  | .ok next => done next
  | .error fault => stopped fault s

def each {ι : Type} (action : ι → σ → Outcome σ) : List ι → σ → Outcome σ
  | [], s => done s
  | item :: rest, s =>
    match action item s with
    | done next => each action rest next
    | stopped fault next => stopped fault next

end Outcome
end Microprogram

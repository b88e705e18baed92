/-! The five phases of a clock cycle. Every part of a machine passes through
them together, in the order of `Phase.all`. -/
namespace Microprogram

inductive Phase
  /-- The controller raises the control lines of this cycle. -/
  | control
  /-- Values are put on buses. -/
  | write
  /-- Values are taken off buses. -/
  | read
  /-- Counters and arithmetic. -/
  | process
  /-- Lines and latches return to rest. -/
  | clear
deriving DecidableEq, Repr, Inhabited

namespace Phase

def all : List Phase := [control,write,read,process,clear]

def name : Phase → String
  | control => "control"
  | write => "write"
  | read => "read"
  | process => "process"
  | clear => "clear"

/-- Place in the cycle; an earlier phase has a lower rank. -/
def rank : Phase → Nat
  | control => 0
  | write => 1
  | read => 2
  | process => 3
  | clear => 4

def earlier (p q : Phase) : Phase := if p.rank ≤ q.rank then p else q

def later (p q : Phase) : Phase := if p.rank ≤ q.rank then q else p

end Phase
end Microprogram

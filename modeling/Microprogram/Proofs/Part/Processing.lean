import Microprogram.Proofs.Part.Reading

/-! The process and the clear phase of each part by its results. Status writes are
staged in the order of the parts and take effect together. -/
namespace Microprogram

namespace AluUnit

/-- The result after counting and an operation, with the status writes that report it. -/
def operate (alu : AluUnit) (asserted : Asserted) (statuses : SortedSet StatusId) :
    Except Fault (UInt8 × Staged) :=
  let alu := alu.count asserted
  match alu.selected asserted with
  | [] => .ok (alu.result.value,[])
  | [op] => .ok ((alu.compute op statuses).value,alu.reports (alu.compute op statuses))
  | ops => .error (.aluConflict (ops.map Alu.Op.name))

def withResult (alu : AluUnit) (asserted : Asserted) (value : UInt8) : AluUnit :=
  { alu.count asserted with result := { (alu.count asserted).result with value } }

theorem process_result (alu : AluUnit) (hw : Registry) (asserted : Asserted)
    (statuses : SortedSet StatusId) (staged : Staged)
    (declared : ∀ status ∈ alu.statuses, status.index < hw.statuses.size) :
    (alu.process hw asserted statuses staged).result = do
      let (value,reports) ← alu.operate asserted statuses
      return (alu.withResult asserted value,staged ++ reports) := by
  unfold process operate
  dsimp only
  rcases (alu.count asserted).selected asserted with _ | ⟨op,_ | ⟨other,rest⟩⟩
  · change Except.ok (alu.count asserted,staged) = Except.ok (alu.count asserted,staged ++ [])
    rw [List.append_nil]
  · dsimp only
    rw [Registry.stageAll_declared]
    · rfl
    · simp only [AluUnit.statuses,Flags.all,List.forall_mem_cons] at declared
      simp [reports,count,declared]
  · rfl

end AluUnit

namespace StatusRegister

def raised (sr : StatusRegister) (asserted : Asserted) : UInt8 :=
  if asserted.contains sr.lines.setCarry then sr.value ||| carryBit else sr.value

/-- The byte after setting and clearing the carry. -/
def adjusted (sr : StatusRegister) (asserted : Asserted) : UInt8 :=
  if asserted.contains sr.lines.clearCarry then sr.raised asserted &&& ~~~carryBit
  else sr.raised asserted

/-- What is shown of setting and of clearing the carry. -/
def adjustments (sr : StatusRegister) (asserted : Asserted) : Staged :=
  (if asserted.contains sr.lines.setCarry then { sr with value := sr.raised asserted }.shown else []) ++
    if asserted.contains sr.lines.clearCarry then { sr with value := sr.adjusted asserted }.shown
    else []

section Congruence
variable {asserted others : Asserted} (sr : StatusRegister)
  (raise : asserted.contains sr.lines.setCarry = others.contains sr.lines.setCarry)
  (clear : asserted.contains sr.lines.clearCarry = others.contains sr.lines.clearCarry)
include raise clear

theorem adjusted_congr : sr.adjusted asserted = sr.adjusted others := by
  unfold adjusted raised
  rw [raise,clear]

theorem adjustments_congr : sr.adjustments asserted = sr.adjustments others := by
  have raises : sr.raised asserted = sr.raised others := by
    unfold raised
    rw [raise]
  unfold adjustments
  rw [sr.adjusted_congr raise clear,raises,raise,clear]

end Congruence

variable {hw : Registry} {sr : StatusRegister}
  (declared : ∀ status ∈ sr.statuses, status.index < hw.statuses.size)
include declared

theorem process_declared (asserted : Asserted) (staged : Staged) :
    sr.process hw asserted staged =
      .done ({ sr with value := sr.adjusted asserted },staged ++ sr.adjustments asserted) := by
  have again (value : UInt8) : ∀ status ∈ { sr with value }.statuses,
      status.index < hw.statuses.size := declared
  unfold process adjustments adjusted raised
  dsimp only
  by_cases set : asserted.contains sr.lines.setCarry = true <;>
    by_cases clear : asserted.contains sr.lines.clearCarry = true
  · rw [if_pos set,if_pos set,if_pos set,if_pos clear,if_pos clear,store_declared declared]
    simp only [Outcome.andThen,if_pos clear,store_declared (again _),List.append_assoc]
  · simp only [set,clear,if_true,store_declared declared,Outcome.andThen]
    simp
  · simp only [set,clear,if_true,Outcome.andThen]
    simp [store_declared declared]
  · simp [set,clear,Outcome.andThen]

theorem settle_declared (asserted : Asserted) (statuses : SortedSet StatusId) (staged : Staged)
    (known : sr.lines.latch.index < hw.controls.size) :
    sr.settle hw asserted statuses staged =
      if asserted.contains sr.lines.latch then
        .done ({ sr with value := sr.latched statuses },asserted.erase sr.lines.latch,
          staged ++ { sr with value := sr.latched statuses }.shown)
      else .done (sr,asserted,staged) := by
  unfold settle
  split
  · rw [store_declared declared]
    simp only [Outcome.map,Outcome.andThen,Registry.setControl,if_pos known]
    rfl
  · rfl

end StatusRegister

namespace Part
variable (hw : Registry) (number : Nat) (signals : Signals)

theorem act_process_root (lines : RootLines) (declared : lines.halted.index < hw.statuses.size) :
    (root lines).act hw .process number signals =
      if signals.asserted.contains lines.crash then .error (.crashed number)
      else .ok (root lines,{ signals with
        staged := signals.staged ++
          if signals.asserted.contains lines.halt then [(lines.halted,true)] else [] }) := by
  change ((rootAct lines hw number signals.asserted signals.staged).map _).result = _
  unfold rootAct
  split
  · rfl
  split
  · rw [Registry.stage,if_pos declared]
    rfl
  · rw [List.append_nil]
    rfl

theorem act_process_register (r : Register) :
    (register r).act hw .process number signals = .ok (register (r.count signals.asserted),signals) :=
  rfl

theorem act_process_word (w : WordRegister) :
    (word w).act hw .process number signals = .ok (word (w.count signals.asserted),signals) := rfl

theorem act_process_memory (m : Memory) :
    (memory m).act hw .process number signals = .ok (memory (m.count signals.asserted),signals) := rfl

theorem act_process_alu (unit : AluUnit)
    (declared : ∀ status ∈ unit.statuses, status.index < hw.statuses.size) :
    (alu unit).act hw .process number signals = do
      let (value,reports) ← unit.operate signals.asserted signals.statuses
      return (alu (unit.withResult signals.asserted value),
        { signals with staged := signals.staged ++ reports }) := by
  change (((unit.process _ _ _ _).map _).map _).result = _
  rw [Outcome.result_map,Outcome.result_map,AluUnit.process_result _ _ _ _ _ declared]
  cases unit.operate signals.asserted signals.statuses <;> rfl

theorem act_process_statusRegister (sr : StatusRegister)
    (declared : ∀ status ∈ sr.statuses, status.index < hw.statuses.size) :
    (statusRegister sr).act hw .process number signals =
      .ok (statusRegister { sr with value := sr.adjusted signals.asserted },
        { signals with staged := signals.staged ++ sr.adjustments signals.asserted }) := by
  change (((sr.process _ _ _).map _).map _).result = _
  rw [StatusRegister.process_declared declared]
  rfl

theorem act_clear_other (part : Part) (other : ∀ sr, part ≠ statusRegister sr) :
    part.act hw .clear number signals = .ok (part,signals) := by
  cases part with
  | statusRegister sr => exact absurd rfl (other sr)
  | _ => rfl

theorem act_clear_statusRegister (sr : StatusRegister)
    (declared : ∀ status ∈ sr.statuses, status.index < hw.statuses.size)
    (known : sr.lines.latch.index < hw.controls.size) :
    (statusRegister sr).act hw .clear number signals =
      if signals.asserted.contains sr.lines.latch then
        .ok (statusRegister { sr with value := sr.latched signals.statuses },{ signals with
          asserted := signals.asserted.erase sr.lines.latch
          staged := signals.staged ++ { sr with value := sr.latched signals.statuses }.shown })
      else .ok (statusRegister sr,signals) := by
  change (((sr.settle _ _ _ _).map _).map _).result = _
  rw [StatusRegister.settle_declared declared _ _ _ known]
  split <;> rfl

end Part
end Microprogram

import Microprogram.Proofs.Machine.Outcome

/-! The write phase as a list of outlets. Each part has taps on which it offers a
value; a phase goes through the outlets of all parts in order, and leaves every part
as it is. -/
namespace Microprogram

/-- A tap with the value that its owner puts on the bus when the line is asserted. -/
structure Outlet where
  tap : Tap
  setter : String
  value : Except Fault UInt16

namespace Outlet

def offer (hw : Registry) (asserted : Asserted) (driven : Driven) (outlet : Outlet) :
    Except Fault Driven :=
  if asserted.contains outlet.tap.write then
    outlet.value >>= fun value => hw.drive outlet.tap.bus value outlet.setter driven
  else .ok driven

end Outlet

def RegisterLines.outlet (lines : RegisterLines) (value : UInt16) : Outlet :=
  ⟨lines.tap,lines.path,.ok value⟩

theorem RegisterLines.drive_result (lines : RegisterLines) (hw : Registry) (asserted : Asserted)
    (value : UInt16) (driven : Driven) :
    (lines.drive hw asserted value driven).result =
      (lines.outlet value).offer hw asserted driven := by
  unfold drive Outlet.offer outlet
  dsimp only
  split
  · exact Outcome.result_attempt _ _
  · rfl

def WordRegister.outlets (w : WordRegister) : List Outlet :=
  w.lines.outlet w.value :: match w.halves with
    | none => []
    | some (high,low) => [high.outlet w.high.toUInt16,low.outlet w.low.toUInt16]

theorem WordRegister.drive_result (w : WordRegister) (hw : Registry) (asserted : Asserted)
    (driven : Driven) :
    (w.drive hw asserted driven).result = w.outlets.foldlM (Outlet.offer hw asserted) driven := by
  unfold drive outlets
  cases w.halves with
  | none =>
    rw [List.foldlM_cons]
    dsimp only
    rw [RegisterLines.drive_result]
    exact (bind_pure _).symm
  | some halves =>
    simp only [Outcome.result_andThen,RegisterLines.drive_result,List.foldlM_cons,List.foldlM_nil,
      bind_assoc,bind_pure]

namespace Part

def outlets : Part → List Outlet
  | root _ => []
  | register r => [r.lines.outlet r.value.toUInt16]
  | word w => w.outlets
  | alu a => [a.lhs.lines.outlet a.lhs.value.toUInt16,a.rhs.lines.outlet a.rhs.value.toUInt16,
      a.result.lines.outlet a.result.value.toUInt16]
  | statusRegister sr => [⟨sr.lines.tap,sr.lines.path,.ok sr.value.toUInt16⟩]
  | memory m => ⟨m.tap,m.path,
      ((m.read m.address.value).mapError Fault.memory).map UInt8.toUInt16⟩ :: m.address.outlets
  | controller c => [c.opcode.lines.outlet c.opcode.value.toUInt16]
  | scripted c => [c.opcode.lines.outlet c.opcode.value.toUInt16]

theorem drive_result (part : Part) (hw : Registry) (asserted : Asserted) (driven : Driven) :
    (part.drive hw asserted driven).result =
      part.outlets.foldlM (Outlet.offer hw asserted) driven := by
  have one (outlet : Outlet) (driven : Driven) :
      [outlet].foldlM (Outlet.offer hw asserted) driven = outlet.offer hw asserted driven :=
    bind_pure _
  cases part with
  | root lines => rfl
  | register r => exact (RegisterLines.drive_result _ _ _ _ _).trans (one _ _).symm
  | word w => exact w.drive_result hw asserted driven
  | alu a =>
    simp only [drive,AluUnit.drive,Register.drive,outlets,Outcome.result_andThen,
      RegisterLines.drive_result,List.foldlM_cons,List.foldlM_nil,bind_assoc,bind_pure]
  | statusRegister sr =>
    refine Eq.trans ?_ (one _ _).symm
    simp only [drive,StatusRegister.drive,Outlet.offer]
    split
    · exact Outcome.result_attempt _ _
    · rfl
  | memory m =>
    simp only [drive,Memory.drive,outlets,List.foldlM_cons,Outcome.result_andThen,
      WordRegister.drive_result]
    congr 1
    unfold Outlet.offer
    split
    next asserts =>
      cases m.read m.address.value with
      | error error => rfl
      | ok value => exact Outcome.result_attempt _ _
    next => rfl
  | controller c => exact (RegisterLines.drive_result _ _ _ _ _).trans (one _ _).symm
  | scripted c => exact (RegisterLines.drive_result _ _ _ _ _).trans (one _ _).symm

theorem act_write (part : Part) (hw : Registry) (cycle : Nat) (signals : Signals) :
    part.act hw .write cycle signals =
      (part.outlets.foldlM (Outlet.offer hw signals.asserted) signals.driven).map
        fun driven => (part,{ signals with driven }) := by
  rw [← drive_result,← Outcome.result_map]
  cases part <;> rfl

theorem reactAll_write (hw : Registry) (cycle : Nat) (parts : List Part) (signals : Signals) :
    (reactAll hw .write cycle parts signals).result =
      ((parts.flatMap outlets).foldlM (Outlet.offer hw signals.asserted) signals.driven).map
        fun driven => (parts,{ signals with driven }) := by
  induction parts generalizing signals with
  | nil => rfl
  | cons part rest ih =>
    rw [reactAll_cons,act_write,List.flatMap_cons,List.foldlM_append]
    cases part.outlets.foldlM (Outlet.offer hw signals.asserted) signals.driven with
    | error fault => rfl
    | ok driven =>
      change ((reactAll hw .write cycle rest { signals with driven }).result >>= fun others =>
        Except.ok (part :: others.1,others.2)) = _
      rw [ih]
      change _ = ((rest.flatMap outlets).foldlM (Outlet.offer hw signals.asserted) driven).map _
      generalize (rest.flatMap outlets).foldlM (Outlet.offer hw signals.asserted) driven = reached
      cases reached <;> rfl

end Part
end Microprogram

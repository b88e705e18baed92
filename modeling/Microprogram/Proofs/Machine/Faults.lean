import Microprogram.Proofs.Part.Deeds

/-! The faults of a cycle. Parts fail over lines, buses, memory, the table and the ALU, and the
root crashes; no part knows of a limit on cycles. -/
namespace Microprogram

/-- A fault that some part can meet with in a cycle. -/
def Fault.ofCycle : Fault → Bool
  | cycleLimitExceeded _ => false
  | invalidConfig _ => false
  | _ => true

/-- If the action fails it is by a fault of a cycle. -/
def InCycle {α : Type} (action : Except Fault α) : Prop :=
  ∀ fault, action = .error fault → fault.ofCycle = true

namespace InCycle
variable {α β ι : Type}

theorem ok (a : α) : InCycle (.ok a) := by
  intro fault failed
  cases failed

theorem error {fault : Fault} (met : fault.ofCycle = true) : InCycle (.error fault : Except Fault α) := by
  intro other failed
  cases failed
  exact met

theorem andThen {first : Except Fault α} {next : α → Except Fault β} (one : InCycle first)
    (two : ∀ a, InCycle (next a)) : InCycle (first >>= next) := by
  intro fault failed
  rcases except_bind_error.mp failed with early | ⟨a,_,late⟩
  · exact one fault early
  · exact two a fault late

theorem map {first : Except Fault α} (one : InCycle first) (f : α → β) : InCycle (first.map f) := by
  intro fault failed
  exact one fault (except_map_error.mp failed)

theorem mapError {ε : Type} (first : Except ε α) {f : ε → Fault}
    (met : ∀ error, (f error).ofCycle = true) : InCycle (first.mapError f) := by
  intro fault failed
  obtain ⟨error,_,rfl⟩ := except_mapError_error.mp failed
  exact met error

theorem foldlM {f : β → ι → Except Fault β} {items : List ι}
    (each : ∀ item ∈ items, ∀ b, InCycle (f b item)) (start : β) : InCycle (items.foldlM f start) := by
  intro fault failed
  obtain ⟨item,member,b,stopped⟩ := except_foldlM_error failed
  exact each item member b fault stopped

end InCycle

namespace Registry
variable (hw : Registry)

theorem drive_inCycle (bus : BusId) (value : UInt16) (setter : String) (driven : Driven) :
    InCycle (hw.drive bus value setter driven) := by
  unfold drive busAt findBus
  apply InCycle.andThen
  · exact (InCycle.mapError _ fun _ => rfl).andThen fun _ => .ok _
  · rintro ⟨decl,held⟩
    apply InCycle.andThen _ fun _ => .ok _
    unfold BusDecl.arbitrate
    cases held with
    | none => exact .ok _
    | some drive =>
      dsimp only
      split
      · exact .ok _
      · exact .error rfl

theorem sense_inCycle (bus : BusId) (reader : String) (driven : Driven) :
    InCycle (hw.sense bus reader driven) := by
  unfold sense busAt findBus
  apply InCycle.andThen
  · exact (InCycle.mapError _ fun _ => rfl).andThen fun _ => .ok _
  · rintro ⟨decl,held⟩
    cases held with
    | none => exact .error rfl
    | some drive => exact .ok _

theorem setControl_inCycle (control : ControlId) (on : Bool) (asserted : Asserted) :
    InCycle (hw.setControl control on asserted) := by
  unfold setControl
  split
  · exact .ok _
  · exact .error rfl

theorem stage_inCycle (write : StatusId × Bool) (staged : Staged) : InCycle (hw.stage write staged) := by
  unfold stage
  split
  · exact .ok _
  · exact .error rfl

theorem stageAll_inCycle (writes : List (StatusId × Bool)) (staged : Staged) :
    InCycle (hw.stageAll writes staged).result := by
  rw [stageAll,Outcome.result_each]
  apply InCycle.foldlM
  intro write _ staged
  rw [Outcome.result_attempt]
  exact hw.stage_inCycle write staged

theorem assertAll_inCycle (controls : List ControlId) (asserted : Asserted) :
    InCycle (hw.assertAll controls asserted).result := by
  rw [assertAll,Outcome.result_each]
  apply InCycle.foldlM
  intro control _ asserted
  rw [Outcome.result_attempt]
  exact hw.setControl_inCycle control true asserted

end Registry

section Parts
variable (hw : Registry) (asserted : Asserted) (driven : Driven)

theorem RegisterLines.load_inCycle {σ : Type} (lines : RegisterLines) (store : UInt16 → σ → σ) (s : σ) :
    InCycle (lines.load hw asserted driven store s).result := by
  rw [RegisterLines.load_result,sense]
  apply InCycle.andThen _ fun _ => .ok _
  split
  · exact (hw.sense_inCycle _ _ _).map _
  · exact .ok _

theorem WordRegister.load_inCycle (w : WordRegister) : InCycle (w.load hw asserted driven).result := by
  unfold load
  split
  · exact w.lines.load_inCycle hw asserted driven _ _
  · simp only [Outcome.result_andThen]
    apply InCycle.andThen
    · apply InCycle.andThen
      · exact w.lines.load_inCycle hw asserted driven _ _
      · intro w
        exact RegisterLines.load_inCycle hw asserted driven _ _ _
    · intro w
      exact RegisterLines.load_inCycle hw asserted driven _ _ _

theorem AluUnit.load_inCycle (alu : AluUnit) : InCycle (alu.load hw asserted driven).result := by
  unfold load Register.load
  simp only [Outcome.result_andThen,Outcome.result_map]
  apply InCycle.andThen
  · apply InCycle.andThen
    · exact (alu.lhs.lines.load_inCycle hw asserted driven _ _).map _
    · intro alu
      exact (alu.rhs.lines.load_inCycle hw asserted driven _ _).map _
  · intro alu
    exact (alu.result.lines.load_inCycle hw asserted driven _ _).map _

theorem Memory.load_inCycle (m : Memory) : InCycle (m.load hw asserted driven).result := by
  unfold load
  simp only [Outcome.result_andThen,Outcome.result_map]
  apply InCycle.andThen
  · split
    · have sensed := hw.sense_inCycle m.tap.bus m.path driven
      cases taken : hw.sense m.tap.bus m.path driven with
      | error fault => exact .error (sensed fault taken)
      | ok value =>
        obtain ⟨journal,stored⟩ := m.store_result value.toUInt8
        dsimp only
        rw [stored]
        exact (InCycle.mapError _ fun _ => rfl).andThen fun _ => .ok _
    · exact .ok _
  · intro m
    exact (m.address.load_inCycle hw asserted driven).map _

namespace StatusRegister

theorem store_inCycle (value : UInt8) (state : StatusRegister × Staged) :
    InCycle (store hw value state).result := by
  rw [store,Outcome.result_map]
  exact (hw.stageAll_inCycle _ _).map _

theorem load_inCycle (sr : StatusRegister) (staged : Staged) :
    InCycle (sr.load hw asserted driven staged).result := by
  unfold load
  split
  · have sensed := hw.sense_inCycle sr.lines.tap.bus sr.lines.path driven
    cases taken : hw.sense sr.lines.tap.bus sr.lines.path driven with
    | error fault => exact .error (sensed fault taken)
    | ok value => exact store_inCycle hw _ _
  · exact .ok _

theorem process_inCycle (sr : StatusRegister) (staged : Staged) :
    InCycle (sr.process hw asserted staged).result := by
  unfold process
  rw [Outcome.result_andThen]
  apply InCycle.andThen
  · split
    · exact store_inCycle hw _ _
    · exact .ok _
  · intro state
    split
    · exact store_inCycle hw _ _
    · exact .ok _

theorem settle_inCycle (sr : StatusRegister) (statuses : SortedSet StatusId) (staged : Staged) :
    InCycle (sr.settle hw asserted statuses staged).result := by
  unfold settle
  split
  · simp only [Outcome.result_andThen,Outcome.result_map,Outcome.result_attempt]
    apply InCycle.andThen
    · exact (store_inCycle hw _ _).map _
    · intro state
      exact (hw.setControl_inCycle _ _ _).map _
  · exact .ok _

end StatusRegister

theorem AluUnit.process_inCycle (alu : AluUnit) (statuses : SortedSet StatusId) (staged : Staged) :
    InCycle (alu.process hw asserted statuses staged).result := by
  unfold process
  dsimp only
  split
  · exact .ok _
  · rw [Outcome.result_map]
    exact (hw.stageAll_inCycle _ _).map _
  · exact .error rfl

namespace Part

theorem outlets_inCycle (part : Part) : ∀ outlet ∈ part.outlets, InCycle outlet.value := by
  have word (w : WordRegister) : ∀ outlet ∈ w.outlets, InCycle outlet.value := by
    unfold WordRegister.outlets
    split <;> simp [RegisterLines.outlet,InCycle.ok]
  cases part with
  | word w => exact word w
  | memory m =>
    rw [outlets,List.forall_mem_cons]
    exact ⟨(InCycle.mapError _ fun _ => rfl).map _,word m.address⟩
  | _ => simp [outlets,RegisterLines.outlet,InCycle.ok]

theorem drive_inCycle (part : Part) : InCycle (part.drive hw asserted driven).result := by
  rw [drive_result]
  apply InCycle.foldlM
  intro outlet member driven
  unfold Outlet.offer
  split
  · exact (part.outlets_inCycle outlet member).andThen fun _ => hw.drive_inCycle _ _ _ _
  · exact .ok _

theorem select_inCycle (part : Part) (statuses : SortedSet StatusId) :
    InCycle (part.select hw statuses asserted).result := by
  cases part with
  | controller c =>
    rw [select,Outcome.result_map,Controller.select,Controller.choose]
    apply InCycle.map
    cases c.table.lookup c.opcode.value c.step statuses.contains with
    | none => exact .error rfl
    | some entry => exact hw.assertAll_inCycle _ _
  | scripted c =>
    rw [select,Outcome.result_map,ScriptedController.select]
    apply InCycle.map
    cases c.script with
    | nil => exact .ok _
    | cons controls rest =>
      dsimp only
      rw [Outcome.result_map]
      exact (hw.assertAll_inCycle _ _).map _
  | _ => exact .ok _

theorem load_inCycle (part : Part) (staged : Staged) :
    InCycle (part.load hw asserted driven staged).result := by
  cases part with
  | root lines => exact .ok _
  | register r =>
    rw [load,Outcome.result_map]
    exact (r.lines.load_inCycle hw asserted driven _ _).map _
  | word w =>
    rw [load,Outcome.result_map]
    exact (w.load_inCycle hw asserted driven).map _
  | alu a =>
    rw [load,Outcome.result_map]
    exact (a.load_inCycle hw asserted driven).map _
  | statusRegister sr =>
    rw [load,Outcome.result_map]
    exact (sr.load_inCycle hw asserted driven staged).map _
  | memory m =>
    rw [load,Outcome.result_map]
    exact (m.load_inCycle hw asserted driven).map _
  | controller c =>
    rw [load,Outcome.result_map]
    exact (c.opcode.lines.load_inCycle hw asserted driven _ _).map _
  | scripted c =>
    rw [load,Outcome.result_map]
    exact (c.opcode.lines.load_inCycle hw asserted driven _ _).map _

theorem work_inCycle (part : Part) (cycle : Nat) (statuses : SortedSet StatusId) (staged : Staged) :
    InCycle (part.work hw cycle asserted statuses staged).result := by
  cases part with
  | root lines =>
    rw [work,Outcome.result_map,rootAct]
    apply InCycle.map
    split
    · exact .error rfl
    split
    · rw [Outcome.result_attempt]
      exact hw.stage_inCycle _ _
    · exact .ok _
  | alu a =>
    change InCycle ((a.process hw asserted statuses staged).map _).result
    rw [Outcome.result_map]
    exact (a.process_inCycle hw asserted statuses staged).map _
  | statusRegister sr =>
    change InCycle ((sr.process hw asserted staged).map _).result
    rw [Outcome.result_map]
    exact (sr.process_inCycle hw asserted staged).map _
  | _ => exact .ok _

theorem settle_inCycle (part : Part) (statuses : SortedSet StatusId) (staged : Staged) :
    InCycle (part.settle hw statuses asserted staged).result := by
  cases part with
  | statusRegister sr =>
    rw [settle,Outcome.result_map]
    exact (sr.settle_inCycle hw asserted statuses staged).map _
  | _ => exact .ok _

theorem act_inCycle (phase : Phase) (cycle : Nat) (part : Part) (signals : Signals) :
    InCycle (part.act hw phase cycle signals) := by
  cases phase with
  | control =>
    rw [act_control]
    exact (part.select_inCycle hw _ _).map _
  | write =>
    rw [act_write,← drive_result]
    exact (part.drive_inCycle hw _ _).map _
  | read =>
    rw [act_read]
    exact (part.load_inCycle hw _ _ _).map _
  | process =>
    rw [act_process]
    exact (part.work_inCycle hw _ _ _ _).map _
  | clear =>
    rw [act_clear]
    exact (part.settle_inCycle hw _ _ _).map _

theorem reactAll_inCycle (phase : Phase) (cycle : Nat) (parts : List Part) (signals : Signals) :
    InCycle (reactAll hw phase cycle parts signals).result := by
  induction parts generalizing signals with
  | nil => exact .ok _
  | cons part rest ih =>
    rw [reactAll_cons]
    apply (part.act_inCycle hw phase cycle signals).andThen
    intro acted
    exact (ih acted.2).andThen fun others => .ok _

end Part
end Parts

theorem Machine.tick_fault {m after : Machine} {fault : Fault} (failed : m.tick = .stopped fault after) :
    fault.ofCycle = true := by
  have phases (state : List Part × Signals) : InCycle (runPhases m.hardware m.cycle state).result := by
    rw [runPhases,Outcome.result_each]
    apply InCycle.foldlM
    intro phase _ state
    rw [runPhase,Outcome.result_map]
    exact (Part.reactAll_inCycle m.hardware phase m.cycle state.1 state.2).map _
  cases ran : (runPhases m.hardware m.cycle
      (m.parts.map (fun part => part.checkpoint.1),m.signals)).result with
  | ok state =>
    rw [m.tick_of_ok ran] at failed
    cases failed
  | error other =>
    rw [m.tick_of_error ran] at failed
    cases failed
    exact phases _ _ ran

end Microprogram

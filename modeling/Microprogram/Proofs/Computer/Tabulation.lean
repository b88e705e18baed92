import Microprogram.Proofs.Computer.BusSafety
import Microprogram.Proofs.Computer.Fetching
import Microprogram.Proofs.ControlTable.FetchStage

/-! Ticks by a table. A compiled table has the steps of the variants of a program, and each
tick asserts, at the place of the step counter, the step of the one variant that applies. -/
namespace Microprogram

/-- A table made from a program that dispatches, and whose variants go through their steps. -/
structure Tabulates (hw : Layout) (catalog : Catalog) (program : Program) (table : ControlTable) :
    Prop where
  lowered : ControlTable.lower program = .ok table
  dispatches : program.Dispatches catalog
  distinct : catalog.Distinct
  sound : ∀ variant ∈ program, ∀ step ∈ variant.steps, BusSound hw.hardware step.controls
  ordered : ∀ variant ∈ program, Variant.InSequence hw.controller.counter variant.steps

namespace Tabulates
variable {hw : Layout} {catalog : Catalog} {program : Program} {table : ControlTable}
  (tabulates : Tabulates hw catalog program table) {variant : Variant}
include tabulates

section Step
variable (member : variant ∈ program) {place : UInt8} {step : Step}
  (found : variant.steps[place.toNat]? = some step)
include member found

theorem declared : ∀ line ∈ step.controls, line.index < hw.hardware.controls.size := by
  intro line raised
  obtain ⟨action,acts⟩ :=
    (tabulates.sound variant member step (List.mem_of_getElem? found)).declared line raised
  exact Registry.control_declared acts

/-- Without a reset there is a next step, and the step counter moves on to it. -/
theorem advance (stays : hw.controller.counter.reset ∉ step.controls) :
    place.toNat + 1 < variant.steps.length ∧
      (hw.stepAfter step.controls place).toNat = place.toNat + 1 := by
  have ordered := tabulates.ordered variant member
  have low : place.toNat < variant.steps.length := (List.getElem?_eq_some_iff.mp found).1
  have short := ControlTable.fits_of_lower tabulates.lowered variant member
  have more : place.toNat + 1 < variant.steps.length :=
    lt_of_le_of_ne low fun last => stays (ordered.resets found last).1
  refine ⟨more,?_⟩
  rw [Layout.stepAfter_counts (ordered.counts found more).1 stays,UInt8.toNat_add]
  exact Nat.mod_eq_of_lt (by simp; omega)

theorem reset (resets : hw.controller.counter.reset ∈ step.controls) :
    place.toNat + 1 = variant.steps.length ∧ hw.controller.counter.increment ∉ step.controls ∧
      hw.stepAfter step.controls place = 0 := by
  have ordered := tabulates.ordered variant member
  have low : place.toNat < variant.steps.length := (List.getElem?_eq_some_iff.mp found).1
  have last : place.toNat + 1 = variant.steps.length :=
    Nat.le_antisymm low (Nat.le_of_not_lt fun more => (ordered.counts found more).2 resets)
  exact ⟨last,(ordered.resets found last).2,if_pos ((SortedSet.contains_iff _ _).mpr resets)⟩

end Step

theorem choose_ok {s : Contents} {place : UInt8} {lines : ControlSet}
    (chosen : (Driver.byTable table place).choose s.opcode s.lines = .ok lines) :
    ∃ variant ∈ program, ∃ step, variant.steps[place.toNat]? = some step ∧ lines = step.controls := by
  by_cases known : catalog.Knows s.opcode
  · obtain ⟨variant,member,answers⟩ := tabulates.dispatches.applying known s.lines.contains
    rw [Variant.choose_place tabulates.lowered tabulates.dispatches tabulates.distinct member
      answers] at chosen
    cases found : variant.steps[place.toNat]? with
    | none =>
      rw [found] at chosen
      cases chosen
    | some step =>
      rw [found] at chosen
      cases chosen
      exact ⟨variant,member,step,found,rfl⟩
  · rw [Driver.choose_unknown tabulates.lowered tabulates.dispatches known] at chosen
    cases chosen

variable (config : Config) (saved : UInt16)

theorem asserted (member : variant ∈ program) {place : UInt8} {number : Nat} {s : Contents}
    (answers : variant.Answers s.opcode s.lines.contains) :
    (Moment.computer hw config saved ⟨.byTable table place,number,s⟩).asserted =
      match variant.steps[place.toNat]? with
      | some step => .ok step.controls
      | none => .error (.missingEntry s.opcode place) := by
  rw [Moment.asserted_computer]
  dsimp only
  rw [Variant.choose_place tabulates.lowered tabulates.dispatches tabulates.distinct member answers]
  cases found : variant.steps[place.toNat]? with
  | none => rfl
  | some step => exact Registry.assertAll_declared _ _ (tabulates.declared member found)

theorem tick_done {place : UInt8} {number : Nat} {s : Contents} {after : Moment}
    (stepped : Moment.next hw ⟨.byTable table place,number,s⟩ = .ok after) :
    ∃ variant ∈ program, ∃ step, variant.steps[place.toNat]? = some step ∧
      (Moment.computer hw config saved ⟨.byTable table place,number,s⟩).asserted = .ok step.controls ∧
      s.cycle hw number step.controls = .ok after.contents ∧
      after.driver = .byTable table (hw.stepAfter step.controls place) := by
  obtain ⟨lines,chosen,_⟩ := except_bind_ok.mp stepped
  obtain ⟨variant,member,step,found,rfl⟩ := tabulates.choose_ok chosen
  have declared := tabulates.declared member found
  rw [Moment.next_of_choice chosen declared] at stepped
  obtain ⟨t,cycled,ended⟩ := except_bind_ok.mp stepped
  cases ended
  refine ⟨variant,member,step,found,?_,cycled,rfl⟩
  rw [Moment.asserted_computer]
  dsimp only
  rw [chosen]
  exact Registry.assertAll_declared _ _ declared

theorem tick_missing (wired : hw.Wired) (place : UInt8) (number : Nat) (s : Contents)
    (opcode step : UInt8) :
    let c := Moment.computer hw config saved ⟨.byTable table place,number,s⟩
    (∃ after, c.tick = .stopped (.missingEntry opcode step) after) ↔
      c.asserted = .error (.missingEntry opcode step) := by
  simp only [Moment.tick_stopped wired,exists_and_left,exists_eq,and_true,Moment.asserted_computer]
  cases chosen : (Driver.byTable table place).choose s.opcode s.lines with
  | error fault =>
    unfold Moment.next
    dsimp only
    rw [chosen]
    change (Except.error fault : Except Fault Moment) = _ ↔
      (Except.error fault : Except Fault ControlSet) = _
    simp only [Except.error.injEq]
  | ok lines =>
    obtain ⟨variant,member,taken,found,rfl⟩ := tabulates.choose_ok chosen
    have declared := tabulates.declared member found
    rw [Moment.next_of_choice (m := ⟨.byTable table place,number,s⟩) chosen declared,except_ok_bind,
      Registry.assertAll_declared _ _ declared]
    simp only [reduceCtorEq,iff_false]
    intro failed
    cases cycled : s.cycle hw number taken.controls with
    | ok t =>
      rw [cycled] at failed
      cases failed
    | error fault =>
      rw [cycled] at failed
      cases failed
      have part := s.cycle_fault wired
        (tabulates.sound variant member taken (List.mem_of_getElem? found)) cycled
      cases part

omit tabulates in
theorem of_compile (wired : hw.Wired) {descriptors : List Descriptor}
    (cataloged : Catalog.ofList descriptors = .ok catalog) {plain : Program}
    (accepts : (Computer.compiler hw catalog).Accepts plain)
    (merges : (plain.sequenced hw.controller.counter).merged hw.hardware hw.controller.counter =
      .ok program) (lowered : ControlTable.lower program = .ok table) :
    Tabulates hw catalog program table := by
  refine ⟨lowered,accepts.dispatches.merged merges,Catalog.ofList_distinct cataloged,?_,?_⟩
  · intro variant member
    obtain ⟨_,given,inside,joins⟩ := Compiler.compiled_variant accepts merges member
    exact Variant.mergedSteps_sound wired.counter_line (Program.merged_steps joins).2.2
      (Variant.sequencedSteps_sound wired.counter_line
        (Program.checkBusUse_sound accepts.busUse given inside))
  · exact fun variant member => (Compiler.compiled_variant accepts merges member).1

end Tabulates
end Microprogram

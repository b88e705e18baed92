import Microprogram.Proofs.Computer.Following
import Microprogram.Proofs.Computer.StatusLines
import Microprogram.Proofs.ControlTable.Dispatch

/-! Selection. A variant stays selected while its steps leave the opcode and the statuses
of its guard alone, and then the table follows its steps to their end. -/
namespace Microprogram

namespace Layout

/-- Lines that keep a variant selected: they leave the opcode alone, halt in the last
step only, and leave the status register alone where the variant is gated. -/
structure Calm (hw : Layout) (gated : Prop) (lines : ControlSet) : Prop where
  opcode : hw.controller.opcode.tap.read ∉ lines
  halt : hw.root.halt ∈ lines → hw.controller.counter.reset ∈ lines
  status : gated → ∀ line ∈ hw.statusControls, line ∉ lines

variable {hw : Layout} (wired : hw.Wired) {lines : ControlSet}
include wired

theorem Wired.halted_stays (running : hw.root.halt ∉ lines) : ¬hw.Permits lines hw.root.halted := by
  have apart := List.nodup_cons.mp wired.statuses_apart
  rintro (⟨_,raised⟩ | flag | ⟨flag,_⟩)
  · exact running raised
  · exact apart.1 (List.mem_append_left _ flag)
  · exact apart.1 (List.mem_append_right _ flag)

theorem Wired.flag_stays (idle : ∀ line ∈ hw.statusControls, line ∉ lines) {status : StatusId}
    (flag : status ∈ hw.statusRegister.flags.all) : ¬hw.Permits lines status := by
  have apart := (List.nodup_append.mp wired.statuses_apart).2.2
  rintro (⟨rfl,_⟩ | other | ⟨_,line,control,raised⟩)
  · exact apart _ List.mem_cons_self _ flag rfl
  · exact apart _ (List.mem_cons_of_mem _ other) _ flag rfl
  · exact idle line control raised

theorem Wired.calm_apart {line : ControlId}
    (member : line ∈ hw.controller.opcode.tap.read :: hw.root.halt :: hw.statusControls) :
    hw.controller.counter.contains line = false := by
  have action (other : ControlAction) (acts : hw.hardware.actionOf line = some other)
      (apart : other ≠ .process) : hw.controller.counter.contains line = false := by
    rw [← Bool.not_eq_true]
    intro inside
    rw [wired.counter_line line inside,Option.some.injEq] at acts
    exact apart acts.symm
  simp only [statusControls,List.mem_cons,List.not_mem_nil,or_false] at member
  rcases member with rfl | rfl | rfl | rfl | rfl | rfl
  · exact action _ (wired.read_line _ (by simp [taps])) (by simp)
  · exact wired.process_apart _ (by simp [processLines])
  · exact action _ (wired.read_line _ (by simp [taps])) (by simp)
  · exact action _ wired.latch_line (by simp)
  · exact wired.process_apart _ (by simp [processLines])
  · exact wired.process_apart _ (by simp [processLines])

theorem Calm.merge {gated : Prop} {step next : Step} (first : hw.Calm gated step.controls)
    (second : hw.Calm gated next.controls) :
    hw.Calm gated (step.merge hw.controller.counter next).controls := by
  refine ⟨?_,?_,?_⟩
  · rw [Step.mem_merge]
    rintro (⟨inside,_⟩ | inside)
    · exact first.opcode inside
    · exact second.opcode inside
  · rw [Step.mem_merge,Step.mem_merge]
    rintro (⟨inside,_⟩ | inside)
    · exact .inl ⟨first.halt inside,wired.counter_apart.symm⟩
    · exact .inr (second.halt inside)
  · intro gate line control
    rw [Step.mem_merge]
    rintro (⟨inside,_⟩ | inside)
    · exact first.status gate line control inside
    · exact second.status gate line control inside

end Layout

namespace Variant
variable {hw : Layout} (wired : hw.Wired) {variant : Variant}

/-- The guard names flags of the status register only. -/
def GatesFlags (hw : Layout) (variant : Variant) : Prop :=
  ∀ status value, variant.guard.get? status = some value → status ∈ hw.statusRegister.flags.all

include wired

theorem Answers.kept (gates : variant.GatesFlags hw) {lines : ControlSet}
    (calm : hw.Calm (variant.guard ≠ ∅) lines) {number : Nat} {s t : Contents}
    (done : s.cycle hw number lines = .ok t) (answers : variant.Answers s.opcode s.lines.contains) :
    variant.Answers t.opcode t.lines.contains := by
  refine ⟨answers.opcode.trans (Contents.cycle_opcode done calm.opcode).symm,?_⟩
  rw [Guard.holds_iff]
  intro status value given
  have gated : variant.guard ≠ ∅ := by
    intro empty
    rw [empty] at given
    cases given
  rw [← Guard.holds_iff.mp answers.guard status value given]
  exact SortedSet.contains_congr
    (Contents.cycle_keeps done (wired.flag_stays (calm.status gated) (gates status value given)))

section Table
variable {program : Program} {catalog : Catalog} {table : ControlTable}
  (lowered : ControlTable.lower program = .ok table) (dispatches : program.Dispatches catalog)
  (distinct : catalog.Distinct) (member : variant ∈ program)
include lowered dispatches distinct member

omit wired in
theorem choose_place {s : Contents} (answers : variant.Answers s.opcode s.lines.contains)
    (place : UInt8) : (Driver.byTable table place).choose s.opcode s.lines =
      match variant.steps[place.toNat]? with
      | some step => .ok step.controls
      | none => .error (.missingEntry s.opcode place) := by
  simp only [Driver.choose]
  rw [ControlTable.lookup_entry lowered dispatches distinct member answers place]
  cases variant.steps[place.toNat]? <;> rfl

omit wired in
theorem choose_step {s : Contents} (answers : variant.Answers s.opcode s.lines.contains)
    (front : List Step) {rest : List Step} {step : Step}
    (whole : variant.steps = front ++ step :: rest) :
    (Driver.byTable table (UInt8.ofNat front.length)).choose s.opcode s.lines = .ok step.controls := by
  have bound := ControlTable.fits_of_lower lowered variant member
  rw [whole,List.length_append,List.length_cons] at bound
  rw [choose_place lowered dispatches distinct member answers,
    UInt8.toNat_ofNat_of_lt' (by omega : front.length < 256),whole,
    List.getElem?_append_right (Nat.le_refl _),Nat.sub_self,List.getElem?_cons_zero]

/-- The table follows the steps of a variant that applies, as long as they are calm. -/
theorem follows_steps (gates : variant.GatesFlags hw)
    (sound : ∀ step ∈ variant.steps, BusSound hw.hardware step.controls)
    (ordered : InSequence hw.controller.counter variant.steps) (front : List Step) {rest : List Step}
    (whole : variant.steps = front ++ rest) (more : rest ≠ [])
    (calm : ∀ step ∈ rest, hw.Calm (variant.guard ≠ ∅) step.controls) {s : Contents}
    (running : hw.root.halted ∉ s.lines) (answers : variant.Answers s.opcode s.lines.contains) :
    Follows hw table (fun step t => step = 0 ∧ variant.Answers t.opcode t.lines.contains)
      (rest.map Step.controls) (UInt8.ofNat front.length) s := by
  induction rest generalizing front s with
  | nil => exact absurd rfl more
  | cons step rest ih =>
    obtain ⟨first,others⟩ := List.forall_mem_cons.mp calm
    have declared : ∀ line ∈ step.controls, line.index < hw.hardware.controls.size := by
      intro line inside
      obtain ⟨action,acts⟩ := (sound step (by rw [whole]; simp)).declared line inside
      exact Registry.control_declared acts
    have later := (whole ▸ ordered).append (List.cons_ne_nil step rest)
    refine ⟨choose_step lowered dispatches distinct member answers front whole,declared,running,?_⟩
    intro number t done
    have kept := answers.kept wired gates first done
    cases rest with
    | nil =>
      refine ⟨fun some => absurd rfl some,?_,kept⟩
      exact if_pos ((SortedSet.contains_iff _ _).mpr later.1)
    | cons next following =>
      obtain ⟨⟨counts,stays⟩,_⟩ := (inSequence_cons (by simp)).mp later
      have place : hw.stepAfter step.controls (UInt8.ofNat front.length) =
          UInt8.ofNat (front ++ [step]).length := by
        rw [Layout.stepAfter_counts counts stays,List.length_append]
        exact (UInt8.ofNat_add _ _).symm
      have bound := ControlTable.fits_of_lower lowered variant member
      rw [whole] at bound
      simp only [List.length_append,List.length_cons] at bound
      have low : (front ++ [step]).length < 256 := by
        rw [List.length_append,List.length_singleton]
        omega
      rw [place]
      refine ⟨fun _ zero => ?_,ih _ (by rw [whole]; simp) (List.cons_ne_nil _ _) others ?_ kept⟩
      · have values := congrArg UInt8.toNat zero
        rw [UInt8.toNat_ofNat_of_lt' low] at values
        simp at values
      · rw [Contents.cycle_keeps done (wired.halted_stays fun raised => stays (first.halt raised))]
        exact running

end Table
end Variant
end Microprogram

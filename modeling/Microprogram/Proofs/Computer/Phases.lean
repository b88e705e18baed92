import Microprogram.Proofs.Computer.Contents
import Microprogram.Proofs.Sorted.Set

/-! Each phase looks only at its own lines. Two sets that agree on the lines of a phase
do the same in it, and a set without such lines does nothing in it. The lines of the
step counter concern the driver and no phase of the contents. -/
namespace Microprogram

namespace Layout

/-- Two sets have the same lines of a phase, those of the step counter aside. -/
def SameIn (hw : Layout) (phase : Phase) (lines others : Asserted) : Prop :=
  ∀ line, hw.controller.counter.contains line = false → hw.hardware.phaseOf line = some phase →
    (line ∈ lines ↔ line ∈ others)

/-- A set has no line of a phase, those of the step counter aside. -/
def SilentIn (hw : Layout) (phase : Phase) (lines : Asserted) : Prop :=
  ∀ line ∈ lines, hw.controller.counter.contains line = false →
    hw.hardware.phaseOf line ≠ some phase

variable {hw : Layout}

theorem SilentIn.same {phase : Phase} {lines : Asserted} (silent : hw.SilentIn phase lines) :
    hw.SameIn phase lines ∅ := by
  intro line apart phased
  simp only [SortedSet.not_mem_empty,iff_false]
  intro member
  exact silent line member apart phased

private theorem Wired.apart_of_action (wired : hw.Wired) {line : ControlId} {action : ControlAction}
    (acts : hw.hardware.actionOf line = some action) (other : action ≠ .process) :
    hw.controller.counter.contains line = false := by
  rw [← Bool.not_eq_true]
  intro inside
  rw [wired.counter_line line inside,Option.some.injEq] at acts
  exact other acts.symm

theorem SameIn.write (wired : hw.Wired) {lines others : Asserted} (same : hw.SameIn .write lines others)
    (tap : Tap) (member : tap ∈ hw.taps) : lines.contains tap.write = others.contains tap.write := by
  have acts := wired.write_line tap member
  exact SortedSet.contains_congr
    (same _ (wired.apart_of_action acts (by simp)) (Registry.phaseOf_of_action acts))

theorem SameIn.read (wired : hw.Wired) {lines others : Asserted} (same : hw.SameIn .read lines others)
    (tap : Tap) (member : tap ∈ hw.taps) : lines.contains tap.read = others.contains tap.read := by
  have acts := wired.read_line tap member
  exact SortedSet.contains_congr
    (same _ (wired.apart_of_action acts (by simp)) (Registry.phaseOf_of_action acts))

theorem SameIn.process (wired : hw.Wired) {lines others : Asserted}
    (same : hw.SameIn .process lines others) (line : ControlId) (member : line ∈ hw.processLines) :
    lines.contains line = others.contains line :=
  SortedSet.contains_congr (same line (wired.process_apart line member)
    (Registry.phaseOf_of_action (wired.process_line line member)))

theorem SameIn.latch (wired : hw.Wired) {lines others : Asserted} (same : hw.SameIn .clear lines others) :
    lines.contains hw.statusRegister.latch = others.contains hw.statusRegister.latch :=
  SortedSet.contains_congr (same _ (wired.apart_of_action wired.latch_line (by simp))
    (Registry.phaseOf_of_action wired.latch_line))

end Layout

namespace RegisterLines

theorem count_congr {ω : Type} [OfNat ω 0] [OfNat ω 1] [Add ω] [Sub ω] (lines : RegisterLines)
    {asserted others : Asserted} (value : ω)
    (same : ∀ line ∈ Layout.counterLines lines, asserted.contains line = others.contains line) :
    lines.count asserted value = lines.count others value := by
  have any (control : Option ControlId) (inside : ∀ line ∈ control, line ∈ Layout.counterLines lines) :
      control.any asserted.contains = control.any others.contains := by
    cases control with
    | none => rfl
    | some line => exact same line (inside line rfl)
  unfold count
  rw [any lines.reset,any lines.increment,any lines.decrement]
  all_goals
    intro line member
    simp [Layout.counterLines,Option.mem_def.mp member]

theorem count_empty {ω : Type} [OfNat ω 0] [OfNat ω 1] [Add ω] [Sub ω] (lines : RegisterLines)
    (value : ω) : lines.count ∅ value = value := by
  have none (control : Option ControlId) : control.any (∅ : Asserted).contains = false := by
    cases control <;> rfl
  unfold count
  rw [none,none,none]
  rfl

end RegisterLines

namespace Contents
variable {hw : Layout}

private theorem foldlM_congr {ε α β : Type} {step other : α → β → Except ε α} {items : List β}
    (same : ∀ item ∈ items, ∀ a, step a item = other a item) (a : α) :
    items.foldlM step a = items.foldlM other a := by
  induction items generalizing a with
  | nil => rfl
  | cons item rest ih =>
    obtain ⟨first,later⟩ := List.forall_mem_cons.mp same
    rw [List.foldlM_cons,List.foldlM_cons,first]
    exact bind_congr (ih later)

theorem outlets_taps (s : Contents) : (s.outlets hw).map Outlet.tap = hw.taps := rfl

theorem drive_congr (wired : hw.Wired) {lines others : Asserted} (same : hw.SameIn .write lines others)
    (s : Contents) : s.drive hw lines = s.drive hw others := by
  refine foldlM_congr (fun outlet member driven => ?_) ∅
  have tapped : outlet.tap ∈ hw.taps := s.outlets_taps ▸ List.mem_map_of_mem member
  unfold Outlet.offer
  rw [same.write wired outlet.tap tapped]

theorem load_congr (wired : hw.Wired) {lines others : Asserted} (same : hw.SameIn .read lines others)
    (driven : Driven) (s : Contents) : s.load hw lines driven = s.load hw others driven := by
  have senses : ∀ tap ∈ hw.taps, ∀ reader, tap.sense reader hw.hardware lines driven =
      tap.sense reader hw.hardware others driven := by
    intro tap member reader
    unfold Tap.sense
    rw [same.read wired tap member]
  have registers (r : RegisterLines) (member : r.tap ∈ hw.taps) :
      r.sense hw.hardware lines driven = r.sense hw.hardware others driven :=
    senses r.tap member r.path
  unfold load
  rw [registers hw.controller.opcode,registers hw.a,registers hw.x,registers hw.y,
    registers hw.alu.lhs,registers hw.alu.rhs,registers hw.alu.result,senses hw.statusRegister.tap,
    registers hw.pc,registers hw.buffer,registers hw.high,registers hw.low,
    senses hw.memory.tap,registers hw.memory.address]
  all_goals simp [Layout.taps]

theorem process_congr (wired : hw.Wired) {lines others : Asserted}
    (same : hw.SameIn .process lines others) (number : Nat) (s : Contents) :
    s.process hw number lines = s.process hw number others := by
  have agree := same.process wired
  have counts {ω : Type} [OfNat ω 0] [OfNat ω 1] [Add ω] [Sub ω] (r : RegisterLines) (value : ω)
      (member : ∀ line ∈ Layout.counterLines r, line ∈ hw.processLines) :
      r.count lines value = r.count others value :=
    r.count_congr value fun line inside => agree line (member line inside)
  have operates : (s.aluUnit hw).operate lines s.lines = (s.aluUnit hw).operate others s.lines := by
    have counted : (s.aluUnit hw).count lines = (s.aluUnit hw).count others := by
      unfold AluUnit.count Register.count aluUnit
      dsimp only
      rw [counts hw.alu.lhs,counts hw.alu.rhs,counts hw.alu.result]
      all_goals simp +contextual [Layout.processLines]
    have selected : ((s.aluUnit hw).count others).selected lines =
        ((s.aluUnit hw).count others).selected others := by
      refine List.filter_congr fun op member => agree (hw.alu.control op) ?_
      simp only [Layout.processLines,List.mem_append,List.mem_map]
      exact .inl (.inl (.inl (.inl (.inr ⟨op,member,rfl⟩))))
    unfold AluUnit.operate
    rw [counted]
    dsimp only
    rw [selected]
  have raise : lines.contains hw.statusRegister.setCarry =
      others.contains hw.statusRegister.setCarry := agree _ (by simp [Layout.processLines])
  have clear : lines.contains hw.statusRegister.clearCarry =
      others.contains hw.statusRegister.clearCarry := agree _ (by simp [Layout.processLines])
  unfold process
  rw [agree hw.root.crash,agree hw.root.halt,operates,(s.statusUnit hw).adjusted_congr raise clear,
    (s.statusUnit hw).adjustments_congr raise clear,counts hw.a,counts hw.x,
    counts hw.y,counts hw.alu.lhs,counts hw.alu.rhs,counts hw.pc,counts hw.buffer,
    counts hw.memory.address]
  all_goals simp +contextual [Layout.processLines]

theorem settle_congr (wired : hw.Wired) {lines others : Asserted} (same : hw.SameIn .clear lines others)
    (s : Contents) : s.settle hw lines = s.settle hw others := by
  unfold settle
  rw [same.latch wired]

theorem drive_silent (wired : hw.Wired) {lines : Asserted} (silent : hw.SilentIn .write lines)
    (s : Contents) : s.drive hw lines = .ok ∅ := by
  rw [drive_congr wired silent.same]
  rfl

theorem load_silent (wired : hw.Wired) {lines : Asserted} (silent : hw.SilentIn .read lines)
    (driven : Driven) (s : Contents) : s.load hw lines driven = .ok s := by
  rw [load_congr wired silent.same]
  rfl

theorem process_silent (wired : hw.Wired) {lines : Asserted} (silent : hw.SilentIn .process lines)
    (number : Nat) (s : Contents) : s.process hw number lines = .ok s := by
  rw [process_congr wired silent.same]
  have result : ((s.aluUnit hw).count ∅).result.value = s.result :=
    hw.alu.result.count_empty s.result
  change Except.ok _ = _
  simp only [RegisterLines.count_empty,result]
  rfl

theorem settle_silent (wired : hw.Wired) {lines : Asserted} (silent : hw.SilentIn .clear lines)
    (s : Contents) : s.settle hw lines = s := by
  rw [settle_congr wired silent.same]
  rfl

end Contents
end Microprogram

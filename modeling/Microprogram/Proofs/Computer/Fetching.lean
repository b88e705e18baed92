import Microprogram.Proofs.Computer.Selection

/-! Instructions as they run. A table fetches an opcode in its first two steps, whatever
opcode is left from before, and then follows the variant that applies to the new one. -/
namespace Microprogram

namespace Follows
variable {hw : Layout} {table : ControlTable} {ends : UInt8 → Contents → Prop}

theorem with_play {sets : List ControlSet} {step : UInt8} {s : Contents}
    (follows : Follows hw table ends sets step s) :
    Follows hw table (fun step t => ends step t ∧ s.play hw sets = .ok t) sets step s := by
  induction sets generalizing step s with
  | nil => exact ⟨follows,rfl⟩
  | cons lines rest ih =>
    obtain ⟨chosen,declared,running,goes⟩ := follows
    refine ⟨chosen,declared,running,fun number t done => ?_⟩
    obtain ⟨counted,later⟩ := goes number t done
    refine ⟨counted,(ih later).imp fun step u reached => ⟨reached.1,?_⟩⟩
    rw [Contents.play_cons_ok done]
    exact reached.2

end Follows

def Catalog.Knows (catalog : Catalog) (opcode : UInt8) : Prop :=
  ∃ d ∈ catalog.descriptors, d.opcode = opcode

theorem Program.Dispatches.applying {program : Program} {catalog : Catalog}
    (dispatches : program.Dispatches catalog) {opcode : UInt8} (known : catalog.Knows opcode)
    (status : StatusId → Bool) : ∃ variant ∈ program, variant.Answers opcode status := by
  obtain ⟨d,member,of⟩ := known
  obtain ⟨variant,inside,same,holds⟩ := dispatches.total d member status
  exact ⟨variant,inside,same ▸ of,holds⟩

theorem Driver.choose_unknown {program : Program} {catalog : Catalog} {table : ControlTable}
    (lowered : ControlTable.lower program = .ok table) (dispatches : program.Dispatches catalog)
    {opcode : UInt8} (unknown : ¬catalog.Knows opcode) (step : UInt8) (lines : SortedSet StatusId) :
    (byTable table step).choose opcode lines = .error (.missingEntry opcode step) := by
  have absent : table.lookup opcode step lines.contains = none :=
    ControlTable.lookup_unknown lowered
      (fun variant member same => unknown ⟨_,dispatches.known variant member,same⟩) step
  simp only [choose]
  rw [absent]

/-- A table made from a program that fetches in two given steps and then keeps to the
variant that applies. -/
structure Executes (hw : Layout) (catalog : Catalog) (program : Program) (table : ControlTable)
    (first second : Step) : Prop where
  lowered : ControlTable.lower program = .ok table
  dispatches : program.Dispatches catalog
  distinct : catalog.Distinct
  sound : ∀ variant ∈ program, ∀ step ∈ variant.steps, BusSound hw.hardware step.controls
  ordered : ∀ variant ∈ program, Variant.InSequence hw.controller.counter variant.steps
  gates : ∀ variant ∈ program, variant.GatesFlags hw
  begins : ∀ variant ∈ program, ∃ rest, variant.steps = first :: second :: rest ∧ rest ≠ [] ∧
    ∀ step ∈ rest, hw.Calm (variant.guard ≠ ∅) step.controls
  address : hw.controller.opcode.tap.read ∉ first.controls
  running : ∀ step ∈ [first,second], hw.root.halt ∉ step.controls

namespace Executes
variable {hw : Layout} {catalog : Catalog} {program : Program} {table : ControlTable}
  {first second : Step}
  (wired : hw.Wired) (executes : Executes hw catalog program table first second) {s t : Contents}
include executes

theorem applying (known : catalog.Knows s.opcode) :
    ∃ variant ∈ program, variant.Answers s.opcode s.lines.contains :=
  executes.dispatches.applying known _

theorem knows_of_answers {variant : Variant} (member : variant ∈ program)
    (answers : variant.Answers s.opcode s.lines.contains) : catalog.Knows s.opcode :=
  ⟨_,executes.dispatches.known variant member,answers.opcode⟩

theorem choose_unknown (unknown : ¬catalog.Knows s.opcode) (step : UInt8) :
    (Driver.byTable table step).choose s.opcode s.lines = .error (.missingEntry s.opcode step) :=
  Driver.choose_unknown executes.lowered executes.dispatches unknown step s.lines

theorem counts (known : catalog.Knows s.opcode) :
    (hw.controller.counter.increment ∈ first.controls ∧ hw.controller.counter.reset ∉ first.controls) ∧
      hw.controller.counter.increment ∈ second.controls ∧
        hw.controller.counter.reset ∉ second.controls := by
  obtain ⟨variant,member,_⟩ := executes.applying known
  obtain ⟨rest,whole,more,_⟩ := executes.begins variant member
  have ordered := whole ▸ executes.ordered variant member
  obtain ⟨one,ordered⟩ := (Variant.inSequence_cons (by simp)).mp ordered
  obtain ⟨two,_⟩ := (Variant.inSequence_cons more).mp ordered
  exact ⟨one,two⟩

theorem declared (known : catalog.Knows s.opcode) :
    ∀ step ∈ [first,second], ∀ line ∈ step.controls, line.index < hw.hardware.controls.size := by
  obtain ⟨variant,member,_⟩ := executes.applying known
  obtain ⟨rest,whole,_⟩ := executes.begins variant member
  intro step inside line raised
  have listed : step ∈ variant.steps := by
    rw [whole]
    exact List.mem_append_left rest inside
  obtain ⟨action,acts⟩ := (executes.sound variant member step listed).declared line raised
  exact Registry.control_declared acts

include wired

theorem follows_fetch (known : catalog.Knows s.opcode) (running : hw.root.halted ∉ s.lines) :
    Follows hw table (fun step t => step = 2 ∧ hw.root.halted ∉ t.lines)
      [first.controls,second.controls] 0 s := by
  obtain ⟨⟨increments,stays⟩,counts,remains⟩ := executes.counts known
  have declared := executes.declared known
  have keeps (step : Step) (inside : step ∈ [first,second]) {number : Nat} {s t : Contents}
      (done : s.cycle hw number step.controls = .ok t) (running : hw.root.halted ∉ s.lines) :
      hw.root.halted ∉ t.lines := by
    rw [Contents.cycle_keeps done (wired.halted_stays (executes.running step inside))]
    exact running
  obtain ⟨variant,member,answers⟩ := executes.applying known
  obtain ⟨rest,whole,_⟩ := executes.begins variant member
  refine ⟨Variant.choose_step executes.lowered executes.dispatches executes.distinct member answers
    [] whole,declared first (by simp),running,fun number t done => ?_⟩
  rw [Layout.stepAfter_counts increments stays]
  refine ⟨fun _ => by decide,?_⟩
  have same := Contents.cycle_opcode done executes.address
  obtain ⟨variant,member,answers⟩ := executes.applying (s := t) (same ▸ known)
  obtain ⟨rest,whole,_⟩ := executes.begins variant member
  have still := keeps first (by simp) done running
  refine ⟨Variant.choose_step executes.lowered executes.dispatches executes.distinct member answers
    [first] whole,declared second (by simp),still,fun number u done => ?_⟩
  rw [Layout.stepAfter_counts counts remains]
  exact ⟨fun more => absurd rfl more,rfl,keeps second (by simp) done still⟩

/-- The table follows a whole variant when it applies to the opcode that is fetched. -/
theorem follows_variant (known : catalog.Knows s.opcode) (running : hw.root.halted ∉ s.lines)
    (fetched : s.play hw [first.controls,second.controls] = .ok t) {variant : Variant}
    (member : variant ∈ program) (answers : variant.Answers t.opcode t.lines.contains) :
    Follows hw table (fun step u => step = 0 ∧ variant.Answers u.opcode u.lines.contains)
      (variant.steps.map Step.controls) 0 s := by
  obtain ⟨rest,whole,more,calm⟩ := executes.begins variant member
  rw [whole]
  change Follows hw table _ ([first.controls,second.controls] ++ rest.map Step.controls) 0 s
  refine Follows.append ?_ (by simp)
  refine (executes.follows_fetch wired known running).with_play.imp ?_
  rintro step u ⟨⟨rfl,still⟩,played⟩
  obtain rfl := Except.ok.inj (fetched.symm.trans played)
  refine ⟨fun _ => by decide,?_⟩
  exact Variant.follows_steps wired executes.lowered executes.dispatches executes.distinct member
    (executes.gates variant member) (executes.sound variant member) (executes.ordered variant member)
    [first,second] whole more calm still answers

end Executes
end Microprogram

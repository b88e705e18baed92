import Microprogram.Proofs.Computer.Tabulation
import Microprogram.Proofs.Microcode.FetchStage

/-! Ticks inside a variant. The statuses are looked up anew in each of them, so that it is
the guard, and not the choice made first, that keeps a computer to the steps of a variant. -/
namespace Microprogram

namespace Variant

def afterFetch (variant : Variant) : List Step := variant.steps.drop variant.fetchStage.length

def HoldsAt (variant : Variant) (c : Computer) : Prop :=
  variant.guard.holds c.machine.signals.statuses.contains = true

/-- No step after the fetch stage, apart from the last, makes a part post a status of the guard. -/
def Steady (hw : Layout) (variant : Variant) : Prop :=
  ∀ step ∈ variant.afterFetch.dropLast, ∀ status value,
    variant.guard.get? status = some value → ¬hw.Alters step.controls status

theorem afterFetch_not_nil {variant : Variant} : variant.afterFetch ≠ [] ↔ variant.GoesOn := by
  rw [variant.goesOn_iff,afterFetch,Ne,List.drop_eq_nil_iff,Nat.not_le]

end Variant

namespace Computer

/-- The control sets that are asserted from a computer on, while something is kept and the
step counter is not reset. A tick that fails is tried again. -/
inductive Asserts (kept : Computer → Prop) (first : Computer) : List ControlSet → Computer → Prop
  | start (holds : kept first) : Asserts kept first [] first
  | tick {sets : List ControlSet} {c after : Computer} {lines : ControlSet}
      (before : Asserts kept first sets c) (asserted : c.asserted = .ok lines)
      (stays : c.layout.controller.counter.reset ∉ lines) (done : c.tick = .done after)
      (holds : kept after) :
      Asserts kept first (sets ++ [lines]) after
  | retry {sets : List ControlSet} {c after : Computer} {fault : Fault}
      (before : Asserts kept first sets c) (stopped : c.tick = .stopped fault after)
      (holds : kept after) : Asserts kept first sets after

theorem Asserts.holds {kept : Computer → Prop} {first last : Computer} {sets : List ControlSet}
    (asserts : first.Asserts kept sets last) : kept last := by
  cases asserts <;> assumption

/-- Up to the next reset of the step counter, the control sets asserted are those of the
steps: each tick asserts the next of them, and the last of them is the one that resets. -/
def RunsOut (kept : Computer → Prop) (c : Computer) (steps : List Step) : Prop :=
  ∀ sets last, c.Asserts kept sets last → ∃ lines, last.asserted = .ok lines ∧
    sets ++ [lines] <+: steps.map Step.controls ∧
    (c.layout.controller.counter.reset ∈ lines ↔ sets ++ [lines] = steps.map Step.controls)

theorem RunsOut.not_error {kept : Computer → Prop} {c : Computer} {steps : List Step}
    (runs : c.RunsOut kept steps) {sets : List ControlSet} {last : Computer}
    (asserts : c.Asserts kept sets last) {fault : Fault} : last.asserted ≠ .error fault := by
  obtain ⟨lines,asserted,_⟩ := runs sets last asserts
  simp [asserted]

/-- A tick asserts the step, at the place of the step counter, of the one variant that
applies then. It is missing an entry exactly if that variant has no such step. -/
def Selects (c : Computer) (program : Program) (catalog : Catalog) : Prop :=
  ∃ s place, c.contents? = some s ∧ c.stepCounter? = some place ∧
    (∀ opcode step, (∃ after, c.tick = .stopped (.missingEntry opcode step) after) ↔
      c.asserted = .error (.missingEntry opcode step)) ∧
    (catalog.Knows s.opcode → ∃ variant,
      (∀ other, (other ∈ program ∧ other.Answers s.opcode s.lines.contains) ↔ other = variant) ∧
        c.asserted = match variant.steps[place.toNat]? with
          | some step => .ok step.controls
          | none => .error (.missingEntry s.opcode place))

end Computer

/-- A table made from a program that dispatches, and whose variants all fetch for some ticks
and go on from there without another opcode. -/
structure Interprets (hw : Layout) (catalog : Catalog) (program : Program) (table : ControlTable)
    (ticks : Nat) : Prop where
  lowered : ControlTable.lower program = .ok table
  dispatches : program.Dispatches catalog
  distinct : catalog.Distinct
  sound : ∀ variant ∈ program, ∀ step ∈ variant.steps, BusSound hw.hardware step.controls
  ordered : ∀ variant ∈ program, Variant.InSequence hw.controller.counter variant.steps
  fetch : ∀ variant ∈ program, variant.fetchStage.length = ticks
  more : ∀ variant ∈ program, variant.GoesOn
  opcode : ∀ variant ∈ program, ∀ step ∈ variant.afterFetch,
    hw.controller.opcode.tap.read ∉ step.controls

namespace Interprets
variable {hw : Layout} {catalog : Catalog} {program : Program} {table : ControlTable} {ticks : Nat}
  (interprets : Interprets hw catalog program table ticks) {variant : Variant}
include interprets

theorem tabulates : Tabulates hw catalog program table :=
  ⟨interprets.lowered,interprets.dispatches,interprets.distinct,interprets.sound,interprets.ordered⟩

theorem later (member : variant ∈ program) {place : UInt8} {step : Step}
    (found : variant.steps[place.toNat]? = some step) (fetched : ticks ≤ place.toNat) :
    variant.afterFetch[place.toNat - ticks]? = some step := by
  rw [Variant.afterFetch,interprets.fetch variant member,List.getElem?_drop,
    Nat.add_sub_cancel' fetched]
  exact found

theorem length (member : variant ∈ program) :
    variant.steps.length = ticks + variant.afterFetch.length := by
  have goes := variant.goesOn_iff.mp (interprets.more variant member)
  have fetch := interprets.fetch variant member
  rw [Variant.afterFetch,List.length_drop]
  omega

theorem ordered_later (member : variant ∈ program) :
    Variant.InSequence hw.controller.counter variant.afterFetch := by
  have whole : variant.steps = variant.fetchStage ++ variant.afterFetch :=
    (List.prefix_iff_eq_append.mp (List.takeWhile_prefix _)).symm
  exact (whole ▸ interprets.ordered variant member).append
    (Variant.afterFetch_not_nil.mpr (interprets.more variant member))

theorem place (member : variant ∈ program) {n : Nat} (low : n < variant.afterFetch.length) :
    (UInt8.ofNat (variant.fetchStage.length + n)).toNat = ticks + n := by
  have short := ControlTable.fits_of_lower interprets.lowered variant member
  have whole := interprets.length member
  have fetch := interprets.fetch variant member
  rw [UInt8.toNat_ofNat_of_lt' (show _ < 256 by omega),fetch]

end Interprets

/-- A moment past the fetch stage of a variant, of which the given sets have been asserted. -/
structure Moment.Within (table : ControlTable) (variant : Variant) (sets : List ControlSet)
    (m : Moment) : Prop where
  driver : m.driver = .byTable table (.ofNat (variant.fetchStage.length + sets.length))
  opcode : variant.descriptor.opcode = m.contents.opcode
  passed : (variant.afterFetch.map Step.controls).take sets.length = sets
  more : sets.length < variant.afterFetch.length

theorem Moment.Within.extend {table : ControlTable} {variant : Variant} {sets : List ControlSet}
    {m : Moment} (within : m.Within table variant sets) {step : Step}
    (next : variant.afterFetch[sets.length]? = some step) :
    sets ++ [step.controls] = (variant.afterFetch.map Step.controls).take (sets.length + 1) := by
  rw [List.take_add_one,within.passed,List.getElem?_map,next]
  rfl

namespace Interprets
variable {hw : Layout} {catalog : Catalog} {program : Program} {table : ControlTable} {ticks : Nat}
  (interprets : Interprets hw catalog program table ticks) {variant : Variant}
  (wired : hw.Wired) {config : Config} {saved : UInt16} (member : variant ∈ program)
include interprets member

section Within
variable {sets : List ControlSet} {m : Moment} (within : m.Within table variant sets)
include within

theorem within_asserted (holds : variant.guard.holds m.contents.lines.contains = true) :
    ∃ step, variant.afterFetch[sets.length]? = some step ∧
      (m.computer hw config saved).asserted = .ok step.controls := by
  obtain ⟨driver,number,s⟩ := m
  obtain rfl : driver = _ := within.driver
  obtain ⟨step,found⟩ : ∃ step, variant.afterFetch[sets.length]? = some step :=
    ⟨_,List.getElem?_eq_getElem within.more⟩
  refine ⟨step,found,?_⟩
  rw [Variant.afterFetch,List.getElem?_drop,interprets.fetch variant member] at found
  rw [interprets.tabulates.asserted config saved member ⟨within.opcode,holds⟩,
    interprets.place member within.more,found]

theorem within_tick {after : Moment} {step : Step}
    (next : variant.afterFetch[sets.length]? = some step)
    (asserted : (m.computer hw config saved).asserted = .ok step.controls)
    (stays : hw.controller.counter.reset ∉ step.controls) (stepped : m.next hw = .ok after) :
    after.Within table variant (sets ++ [step.controls]) ∧ step ∈ variant.afterFetch.dropLast ∧
      m.contents.cycle hw m.cycle step.controls = .ok after.contents := by
  obtain ⟨driver,number,s⟩ := m
  obtain rfl : driver = _ := within.driver
  have place := interprets.place member within.more
  have found : variant.steps[(UInt8.ofNat (variant.fetchStage.length + sets.length)).toNat]? =
      some step := by
    rw [Variant.afterFetch,List.getElem?_drop,interprets.fetch variant member] at next
    rw [place,next]
  obtain ⟨more,moves⟩ := interprets.tabulates.advance member found stays
  have whole := interprets.length member
  obtain ⟨_,_,other,_,also,cycled,driven⟩ := interprets.tabulates.tick_done config saved stepped
  have same : other.controls = step.controls := Except.ok.inj (also.symm.trans asserted)
  rw [same] at cycled driven
  have longer : sets.length + 1 < variant.afterFetch.length := by omega
  refine ⟨⟨?_,?_,?_,?_⟩,?_,cycled⟩
  · rw [driven,List.length_append,List.length_singleton]
    refine congrArg (Driver.byTable table) (UInt8.toNat_inj.mp ?_)
    rw [moves,place,interprets.place member longer,Nat.add_assoc]
  · rw [Contents.cycle_opcode cycled
      (interprets.opcode variant member step (List.mem_of_getElem? next))]
    exact within.opcode
  · rw [List.length_append,List.length_singleton,within.extend next]
  · rw [List.length_append,List.length_singleton]
    exact longer
  · refine @List.mem_of_getElem? _ _ sets.length _ ?_
    rw [List.getElem?_dropLast,if_pos (by omega),next]

end Within

section Entered
variable {first : Moment} (within : first.Within table variant [])
include wired within

theorem asserts_within {sets : List ControlSet} {last : Computer}
    (asserts : (first.computer hw config saved).Asserts variant.HoldsAt sets last) :
    ∃ (m : Moment) (after : UInt16), last = m.computer hw config after ∧
      m.Within table variant sets := by
  -- On the ticks: the variant applies before each of them, so that its next step is asserted.
  induction asserts with
  | start holds => exact ⟨first,saved,rfl,within⟩
  | tick before asserted stays done holds ih =>
    obtain ⟨m,address,rfl,inside⟩ := ih
    obtain ⟨step,next,same⟩ := interprets.within_asserted member inside before.holds
    obtain rfl := Except.ok.inj (same.symm.trans asserted)
    obtain ⟨after,stepped,rfl⟩ := (Moment.tick_done wired).mp done
    exact ⟨after,_,rfl,(interprets.within_tick member inside next asserted stays stepped).1⟩
  | retry before stopped holds ih =>
    obtain ⟨m,address,rfl,inside⟩ := ih
    obtain ⟨_,rfl⟩ := (Moment.tick_stopped wired).mp stopped
    exact ⟨m,_,rfl,inside⟩

theorem runsOut : (first.computer hw config saved).RunsOut variant.HoldsAt variant.afterFetch := by
  intro sets last asserts
  obtain ⟨m,after,rfl,inside⟩ := interprets.asserts_within wired member within asserts
  obtain ⟨step,next,asserted⟩ : ∃ step, variant.afterFetch[sets.length]? = some step ∧
      (m.computer hw config after).asserted = .ok step.controls :=
    interprets.within_asserted member inside asserts.holds
  have ordered := interprets.ordered_later member
  have low := inside.more
  refine ⟨step.controls,asserted,?_⟩
  rw [inside.extend next]
  refine ⟨List.take_prefix _ _,fun resets => ?_,fun whole => ?_⟩
  · refine List.take_of_length_le (Nat.le_of_not_lt fun more => ?_)
    rw [List.length_map] at more
    exact (ordered.counts next more).2 resets
  · have lengths := congrArg List.length whole
    rw [List.length_take,List.length_map] at lengths
    exact (ordered.resets next (by omega)).1

theorem asserts_steady (steady : variant.Steady hw) {sets : List ControlSet} {last : Computer}
    (asserts : (first.computer hw config saved).Asserts (fun _ => True) sets last)
    (holds : variant.HoldsAt (first.computer hw config saved)) :
    (first.computer hw config saved).Asserts variant.HoldsAt sets last := by
  induction asserts with
  | start _ => exact .start holds
  | tick before asserted stays done _ ih =>
    obtain ⟨m,address,rfl,inside⟩ := interprets.asserts_within wired member within ih
    obtain ⟨step,next,same⟩ := interprets.within_asserted member inside ih.holds
    obtain rfl := Except.ok.inj (same.symm.trans asserted)
    obtain ⟨after,stepped,rfl⟩ := (Moment.tick_done wired).mp done
    obtain ⟨_,among,cycled⟩ := interprets.within_tick member inside next asserted stays stepped
    refine .tick ih asserted stays done (Guard.holds_iff.mpr fun status value given => ?_)
    rw [← Guard.holds_iff.mp ih.holds status value given]
    exact SortedSet.contains_congr (Contents.cycle_unaltered cycled (steady step among status value given))
  | retry before stopped _ ih =>
    obtain ⟨m,address,rfl,inside⟩ := interprets.asserts_within wired member within ih
    obtain ⟨_,rfl⟩ := (Moment.tick_stopped wired).mp stopped
    exact .retry ih stopped ih.holds

end Entered
end Interprets
end Microprogram

import Microprogram.Proofs.Computer.Tabulation
import Microprogram.Proofs.ControlTable.Sequencing

/-! The step counter. While a variant applies, the counter goes through the steps of it and
begins anew after the last, and under no circumstances is it counted past its last number. -/
namespace Microprogram

namespace Computer

/-- The variant applies in the tick to come. -/
def Obeys (c : Computer) (variant : Variant) : Prop :=
  ∃ s, c.contents? = some s ∧ variant.Answers s.opcode s.lines.contains

/-- Computers one tick apart, during whose first ticks the variant applies. -/
structure Stays (run : Nat → Computer) (variant : Variant) (ticks : Nat) : Prop where
  obeys : ∀ n < ticks, (run n).Obeys variant
  done : ∀ n < ticks, (run n).tick = .done (run (n + 1))

/-- From a place on, the ticks assert the steps of a variant over and over. -/
structure Rotates (run : Nat → Computer) (variant : Variant) (place ticks : Nat) : Prop where
  counter : ∀ n ≤ ticks, ∃ step, (run n).stepCounter? = some step ∧
    step.toNat = (place + n) % variant.steps.length
  asserted : ∀ n < ticks, ∃ step, variant.steps[(place + n) % variant.steps.length]? = some step ∧
    (run n).asserted = .ok step.controls

/-- A tick takes the step counter to zero or to the number greater by one, and a tick that fails
leaves it. -/
structure Counts (c : Computer) : Prop where
  done : ∀ after, c.tick = .done after → ∃ lines step next, c.asserted = .ok lines ∧
    c.stepCounter? = some step ∧ after.stepCounter? = some next ∧
    (c.layout.controller.counter.reset ∈ lines ∧ c.layout.controller.counter.increment ∉ lines ∧
        next = 0 ∨
      c.layout.controller.counter.increment ∈ lines ∧ c.layout.controller.counter.reset ∉ lines ∧
        next.toNat = step.toNat + 1)
  stopped : ∀ fault after, c.tick = .stopped fault after → after.stepCounter? = c.stepCounter?

end Computer

namespace Tabulates
variable {hw : Layout} {catalog : Catalog} {program : Program} {table : ControlTable}
  (tabulates : Tabulates hw catalog program table)
include tabulates

/-- A tick in which the variant applies asserts its step at the place of the step counter, and
moves on to the place of the next, which after the last step is that of the first. -/
theorem obeying_next (config : Config) (saved : UInt16) {variant : Variant}
    (member : variant ∈ program) {m next : Moment} {place : UInt8} (driven : m.driver = .byTable table place)
    (answers : variant.Answers m.contents.opcode m.contents.lines.contains)
    (stepped : m.next hw = .ok next) :
    ∃ step moved, variant.steps[place.toNat]? = some step ∧
      (m.computer hw config saved).asserted = .ok step.controls ∧
      next.driver = .byTable table moved ∧ moved.toNat = (place.toNat + 1) % variant.steps.length := by
  obtain ⟨driver,number,s⟩ := m
  obtain rfl : driver = _ := driven
  obtain ⟨_,_,taken,_,asserted,_,moved⟩ := tabulates.tick_done config saved stepped
  have applies : (Moment.computer hw config saved ⟨.byTable table place,number,s⟩).asserted = _ :=
    tabulates.asserted config saved member answers
  cases found : variant.steps[place.toNat]? with
  | none =>
    rw [found,asserted] at applies
    cases applies
  | some step =>
    rw [found,asserted,Except.ok.injEq] at applies
    rw [applies] at asserted moved
    refine ⟨step,_,rfl,asserted,moved,?_⟩
    by_cases resets : hw.controller.counter.reset ∈ step.controls
    · obtain ⟨last,_,zero⟩ := tabulates.reset member found resets
      rw [zero,last,Nat.mod_self]
      rfl
    · obtain ⟨more,moves⟩ := tabulates.advance member found resets
      rw [moves,Nat.mod_eq_of_lt more]

variable (wired : hw.Wired) {config : Config}
include wired

theorem counts {m : Moment} {saved : UInt16} (driven : ∃ place, m.driver = .byTable table place) :
    (m.computer hw config saved).Counts := by
  obtain ⟨driver,number,s⟩ := m
  obtain ⟨place,rfl⟩ := driven
  constructor
  · intro after ticked
    obtain ⟨next,stepped,rfl⟩ := (Moment.tick_done wired).mp ticked
    obtain ⟨variant,member,step,found,asserted,_,moved⟩ := tabulates.tick_done config saved stepped
    obtain ⟨driver,later,t⟩ := next
    obtain rfl : driver = _ := moved
    refine ⟨_,_,_,asserted,Moment.step_computer wired _ _ _ _ _ _,
      Moment.step_computer wired _ _ _ _ _ _,?_⟩
    by_cases resets : hw.controller.counter.reset ∈ step.controls
    · obtain ⟨_,idle,zero⟩ := tabulates.reset member found resets
      exact .inl ⟨resets,idle,zero⟩
    · obtain ⟨more,moves⟩ := tabulates.advance member found resets
      exact .inr ⟨((tabulates.ordered variant member).counts found more).1,resets,moves⟩
  · intro fault after ticked
    obtain ⟨_,rfl⟩ := (Moment.tick_stopped wired).mp ticked
    rw [Moment.step_computer wired,Moment.step_computer wired]

theorem rotates {variant : Variant} (member : variant ∈ program) {run : Nat → Computer} {ticks : Nat}
    (stays : Computer.Stays run variant ticks) {m : Moment} {saved : UInt16} {place : UInt8}
    (driven : m.driver = .byTable table place) (start : run 0 = m.computer hw config saved)
    (low : place.toNat < variant.steps.length) :
    Computer.Rotates run variant place.toNat ticks := by
  have obeying {n : Nat} (within : n < ticks) {m : Moment} {saved : UInt16}
      (here : run n = m.computer hw config saved) :
      variant.Answers m.contents.opcode m.contents.lines.contains ∧
        ∃ next, m.next hw = .ok next ∧ run (n + 1) = next.computer hw config m.contents.address := by
    obtain ⟨s,contents,answers⟩ := stays.obeys n within
    have ticked := stays.done n within
    rw [here,Moment.contents_computer wired,Option.some.injEq] at contents
    rw [here,Moment.tick_done wired] at ticked
    exact ⟨contents ▸ answers,ticked⟩
  -- the invariant of the run: the counter stands at its place in the round
  have reaches (n : Nat) (within : n ≤ ticks) : ∃ (m : Moment) (saved : UInt16) (moved : UInt8),
      run n = m.computer hw config saved ∧ m.driver = .byTable table moved ∧
        moved.toNat = (place.toNat + n) % variant.steps.length := by
    induction n with
    | zero => exact ⟨m,saved,place,start,driven,(Nat.mod_eq_of_lt low).symm⟩
    | succ n ih =>
      obtain ⟨m,saved,moved,here,driven,counted⟩ := ih (Nat.le_of_succ_le within)
      obtain ⟨answers,next,stepped,there⟩ := obeying within here
      obtain ⟨_,later,_,_,drives,follows⟩ :=
        tabulates.obeying_next config saved member driven answers stepped
      refine ⟨next,_,later,there,drives,?_⟩
      rw [follows,counted,Nat.mod_add_mod,Nat.add_assoc]
  constructor
  · intro n within
    obtain ⟨⟨driver,number,s⟩,saved,moved,here,driven,counted⟩ := reaches n within
    obtain rfl : driver = _ := driven
    exact ⟨moved,here ▸ Moment.step_computer wired _ _ _ _ _ _,counted⟩
  · intro n within
    obtain ⟨m,saved,moved,here,driven,counted⟩ := reaches n (Nat.le_of_lt within)
    obtain ⟨answers,next,stepped,_⟩ := obeying within here
    obtain ⟨step,_,found,asserted,_⟩ :=
      tabulates.obeying_next config saved member driven answers stepped
    exact ⟨step,counted ▸ found,here ▸ asserted⟩

end Tabulates

/-- In a compiled table the entries of a variant take the step counter through its steps. On the
computer they do so over and over while the variant applies, and whatever happens, the counter
is never counted up from its last number. -/
theorem Compiler.steps_in_sequence {compiler : Compiler} {drafts : List Draft} {table : ControlTable}
    (compiled : compiler.compile drafts = .ok table) :
    ∃ program, compiler.compileProgram drafts = .ok program ∧
      (∀ entry ∈ table.entries, ∃ variant ∈ program,
        entry ∈ table.entriesUnder variant.descriptor variant.guard) ∧
      (∀ variant ∈ program, ControlTable.Sequences compiler.counter variant
        (table.entriesUnder variant.descriptor variant.guard)) ∧
      ∀ hw descriptors, Layout.build = .ok hw → Catalog.ofList descriptors = .ok compiler.catalog →
        compiler = Computer.compiler hw compiler.catalog → ∀ (bytes : List UInt8) (config : Config),
        config.validate = .ok () → config.admits bytes.length = .ok () →
        ∃ start, Computer.withTable hw table bytes config = .ok start ∧
          ∀ c, Computer.Reachable start c → c.Counts ∧
            ∀ variant ∈ program, ∀ run place ticks, run 0 = c → c.stepCounter? = some place →
              place.toNat < variant.steps.length → Computer.Stays run variant ticks →
              Computer.Rotates run variant place.toNat ticks := by
  obtain ⟨program,ended,covers,sequences⟩ := compiled_sequences compiled
  refine ⟨program,ended,covers,sequences,?_⟩
  intro hw descriptors built cataloged same bytes config valid fits
  have wired := Layout.build_wired built
  obtain ⟨also,again,lowered⟩ := compile_ok.mp compiled
  obtain rfl := Except.ok.inj (ended.symm.trans again)
  obtain ⟨plain,_,accepts,merges⟩ := compileProgram_ok.mp ended
  rw [same] at accepts merges
  have tabulates := Tabulates.of_compile wired cataloged accepts merges lowered
  refine ⟨_,Computer.withTable_ok built table valid fits,fun c reachable => ?_⟩
  obtain ⟨m,saved,rfl,reached⟩ := Moment.reachable_moment wired reachable
  obtain ⟨place,driven⟩ := reached.table ⟨0,rfl⟩
  refine ⟨tabulates.counts wired ⟨place,driven⟩,?_⟩
  intro variant member run counter ticks start shown low stays
  obtain ⟨driver,number,s⟩ := m
  obtain rfl : driver = _ := driven
  rw [Moment.step_computer wired,Option.some.injEq] at shown
  subst shown
  exact tabulates.rotates wired member stays rfl start low

namespace Computer

theorem after_run {hw : Layout} (wired : hw.Wired) (config : Config) (saved : UInt16) {m last : Moment}
    {ticks : Nat} (ran : m.run hw ticks = .ok last) :
    ∃ address, (m.computer hw config saved).after ticks = last.computer hw config address := by
  induction ticks generalizing last with
  | zero =>
    cases ran
    exact ⟨saved,rfl⟩
  | succ ticks ih =>
    rw [Moment.run_succ,except_bind_ok] at ran
    obtain ⟨before,ran,stepped⟩ := ran
    obtain ⟨address,reached⟩ := ih ran
    rw [after,reached,(Moment.tick_done wired).mpr ⟨last,stepped,rfl⟩]
    exact ⟨_,rfl⟩

theorem stays_after {hw : Layout} (wired : hw.Wired) (config : Config) (saved : UInt16) {m : Moment}
    {variant : Variant} {ticks : Nat} (runs : ∀ n ≤ ticks, ∃ t, m.run hw n = .ok t ∧
      variant.Answers t.contents.opcode t.contents.lines.contains) :
    Stays (m.computer hw config saved).after variant ticks := by
  constructor
  · intro n within
    obtain ⟨t,ran,answers⟩ := runs n (Nat.le_of_lt within)
    obtain ⟨address,reached⟩ := after_run wired config saved ran
    rw [reached]
    exact ⟨t.contents,Moment.contents_computer wired _ _ _,answers⟩
  · intro n within
    obtain ⟨last,ran,_⟩ := runs (n + 1) within
    rw [Moment.run_succ,except_bind_ok] at ran
    obtain ⟨t,ran,stepped⟩ := ran
    obtain ⟨address,reached⟩ := after_run wired config saved ran
    rw [after,reached,(Moment.tick_done wired).mpr ⟨last,stepped,rfl⟩]
    rfl

def turningDescriptors : List Descriptor := [⟨0,"nop",.none,""⟩]

def turningDrafts : List Draft := [.ofEdits ⟨0,"nop",.none,""⟩
  (increment Layout.standard.x ++ .nextStage :: increment Layout.standard.y)]

theorem turning_runs : ∃ catalog table program, Catalog.ofList turningDescriptors = .ok catalog ∧
    (compiler .standard catalog).compile turningDrafts = .ok table ∧
    (compiler .standard catalog).compileProgram turningDrafts = .ok program ∧
    (∃ variant ∈ program, variant.steps.length = 2 ∧ variant.descriptor.opcode = 0 ∧
      variant.guard = ∅) ∧
    ∀ n < 4, ∃ m, Moment.run .standard n (.initial (.byTable table 0) [0] oneByte) = .ok m ∧
      m.contents.opcode = 0 := by
  have ran : ∃ catalog ∈ (Catalog.ofList turningDescriptors).toOption,
      ∃ table ∈ ((compiler .standard catalog).compile turningDrafts).toOption,
        ∃ program ∈ ((compiler .standard catalog).compileProgram turningDrafts).toOption,
          (∃ variant ∈ program.toList, variant.steps.length = 2 ∧
            variant.descriptor.opcode = 0 ∧ variant.guard = ∅) ∧
          ∀ n < 4, ∃ m ∈ (Moment.run .standard n
            (.initial (.byTable table 0) [0] oneByte)).toOption, m.contents.opcode = 0 := by
    decide +kernel
  simp only [except_mem_toOption] at ran
  obtain ⟨catalog,cataloged,table,compiled,program,ended,facts⟩ := ran
  exact ⟨catalog,table,program,cataloged,compiled,ended,facts⟩

/-- An instruction without gates goes round through its two steps. -/
theorem turning_rotates : ∃ catalog table program start variant,
    Catalog.ofList turningDescriptors = .ok catalog ∧
    (compiler .standard catalog).compile turningDrafts = .ok table ∧
    (compiler .standard catalog).compileProgram turningDrafts = .ok program ∧
    withTable .standard table [0] oneByte = .ok start ∧ start.stepCounter? = some 0 ∧
    variant ∈ program ∧ variant.steps.length = 2 ∧
    ControlTable.Sequences Layout.standard.controller.counter variant
      (table.entriesUnder variant.descriptor variant.guard) ∧
    Stays start.after variant 3 ∧ Rotates start.after variant 0 3 ∧ start.Counts := by
  obtain ⟨catalog,table,program,cataloged,compiled,ended,⟨variant,member,two,opcode,free⟩,runs⟩ :=
    turning_runs
  have wired := Layout.build_wired Layout.build_eq
  have valid : oneByte.validate = .ok () := by decide +kernel
  have fits : oneByte.admits [(0 : UInt8)].length = .ok () := by decide
  have made := withTable_ok Layout.build_eq table valid fits
  obtain ⟨also,again,_,sequences,assembles⟩ := Compiler.steps_in_sequence compiled
  obtain rfl := Except.ok.inj (ended.symm.trans again)
  obtain ⟨start,assembled,kept⟩ := assembles .standard turningDescriptors Layout.build_eq cataloged rfl
    [0] oneByte valid fits
  obtain rfl := Except.ok.inj (made.symm.trans assembled)
  have stays : Stays _ variant 3 := stays_after wired oneByte 0 fun n within => by
    obtain ⟨m,ran,shown⟩ := runs n (Nat.lt_succ_of_le within)
    refine ⟨m,ran,opcode.trans shown.symm,?_⟩
    rw [free]
    rfl
  obtain ⟨counts,rotates⟩ := kept _ .start
  have begins := Moment.step_computer wired oneByte 0 table 0 0 (Contents.initial [0] oneByte)
  exact ⟨catalog,table,program,_,variant,cataloged,compiled,ended,made,begins,member,two,
    sequences variant member,stays,
    rotates variant member _ 0 3 rfl begins (by rw [two]; decide) stays,counts⟩

end Computer
end Microprogram

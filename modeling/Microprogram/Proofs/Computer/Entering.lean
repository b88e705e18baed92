import Microprogram.Proofs.Computer.Execution
import Microprogram.Proofs.Computer.Steadiness
import Microprogram.Proofs.ControlTable.FetchStage

/-! Entering a variant. The variant that is selected after the fetch stage runs to its end
as long as its guard is kept. It is left for a sibling, which may be shorter, when its own
steps change a status of the guard. -/
namespace Microprogram

namespace Computer

/-- The fetch stage is over, and the variant applies. -/
def Enters (c : Computer) (variant : Variant) : Prop :=
  c.stepCounter? = some (.ofNat variant.fetchStage.length) ∧
    ∃ s, c.contents? = some s ∧ variant.Answers s.opcode s.lines.contains

/-- Since the variant was entered there has been no reset, and its guard, of which its own
steps post a status, has not been kept. -/
def HasLeft (c : Computer) (variant : Variant) (start : Computer) : Prop :=
  ∃ before sets, Reachable start before ∧ before.Enters variant ∧
    before.Asserts (fun _ => True) sets c ∧ ¬before.Asserts variant.HoldsAt sets c ∧
      ¬variant.Steady c.layout

end Computer

/-- The ticks that led to a computer since the fetch stage, after which it held this opcode. -/
def Moment.Since (hw : Layout) (config : Config) (table : ControlTable) (ticks : Nat)
    (start : Computer) (opcode : UInt8) (c : Computer) : Prop :=
  ∃ (m : Moment) (saved : UInt16) (sets : List ControlSet),
    Computer.Reachable start (m.computer hw config saved) ∧
      m.driver = .byTable table (.ofNat ticks) ∧ m.contents.opcode = opcode ∧
      (m.computer hw config saved).Asserts (fun _ => True) sets c

namespace Interprets
variable {hw : Layout} {catalog : Catalog} {program : Program} {table : ControlTable} {ticks : Nat}
  (interprets : Interprets hw catalog program table ticks) (wired : hw.Wired) {config : Config}
include interprets wired

/-- Past its fetch stage, an instruction has been run without a reset since the end of it. -/
theorem reachable_since {start : Moment} {saved : UInt16} (first : start.driver = .byTable table 0)
    {c : Computer} (reached : Computer.Reachable (start.computer hw config saved) c) :
    ∃ (m : Moment) (after : UInt16) (place : UInt8), c = m.computer hw config after ∧
      m.driver = .byTable table place ∧ (ticks ≤ place.toNat →
        Moment.Since hw config table ticks (start.computer hw config saved) m.contents.opcode c) := by
  have here {m : Moment} {after : UInt16} {place : UInt8} (driven : m.driver = .byTable table place)
      (reached : Computer.Reachable (start.computer hw config saved) (m.computer hw config after))
      (same : place.toNat = ticks) : Moment.Since hw config table ticks
        (start.computer hw config saved) m.contents.opcode (m.computer hw config after) := by
    refine ⟨m,after,[],reached,?_,rfl,.start trivial⟩
    rw [driven,← same,UInt8.ofNat_toNat]
  -- The run since then begins where the step counter reaches the end of the fetch stage, and
  -- each tick past it goes on with that run, unless it resets the counter.
  induction reached with
  | start => exact ⟨start,saved,0,rfl,first,fun low => here first .start (Nat.le_zero.mp low).symm⟩
  | tick before ih =>
    obtain ⟨⟨driver,number,s⟩,address,place,rfl,driven,since⟩ := ih
    obtain rfl : driver = _ := driven
    have reached := Computer.Reachable.tick before
    cases ended : (Moment.computer hw config address ⟨.byTable table place,number,s⟩).tick with
    | stopped fault after =>
      obtain ⟨_,rfl⟩ := (Moment.tick_stopped wired).mp ended
      refine ⟨_,_,place,rfl,rfl,fun fetched => ?_⟩
      obtain ⟨m,saved,sets,earlier,entered,same,asserts⟩ := since fetched
      exact ⟨m,saved,sets,earlier,entered,same,.retry asserts ended trivial⟩
    | done after =>
      rw [ended] at reached
      obtain ⟨next,stepped,rfl⟩ := (Moment.tick_done wired).mp ended
      obtain ⟨variant,member,step,found,asserted,cycled,moved⟩ :=
        interprets.tabulates.tick_done config address stepped
      refine ⟨next,_,_,rfl,moved,fun fetched => ?_⟩
      by_cases resets : hw.controller.counter.reset ∈ step.controls
      · have zero : hw.stepAfter step.controls place = 0 := if_pos ((SortedSet.contains_iff _ _).mpr resets)
        rw [zero] at fetched moved
        exact here moved reached (Nat.le_zero.mp fetched).symm
      · have moves := (interprets.tabulates.advance member found resets).2
        rcases Nat.lt_or_ge place.toNat ticks with early | later
        · exact here moved reached (by omega)
        · obtain ⟨m,saved,sets,earlier,entered,same,asserts⟩ := since later
          have unread := interprets.opcode variant member step
            (List.mem_of_getElem? (interprets.later member found later))
          refine ⟨m,saved,_,earlier,entered,?_,.tick asserts asserted resets ended trivial⟩
          rw [same,Contents.cycle_opcode cycled unread]

section Enters
variable {m : Moment} {place : UInt8} (driven : m.driver = .byTable table place) {variant : Variant}
  (member : variant ∈ program) {saved : UInt16}
include driven member

theorem within_of_enters (enters : (m.computer hw config saved).Enters variant) :
    m.Within table variant [] ∧ variant.HoldsAt (m.computer hw config saved) := by
  obtain ⟨driver,number,s⟩ := m
  obtain rfl : driver = _ := driven
  obtain ⟨counter,t,contents,answers⟩ := enters
  rw [Moment.step_computer wired,Option.some.injEq] at counter
  rw [Moment.contents_computer wired,Option.some.injEq] at contents
  subst counter contents
  have more := Variant.afterFetch_not_nil.mpr (interprets.more variant member)
  exact ⟨⟨rfl,answers.opcode,rfl,List.length_pos_of_ne_nil more⟩,answers.guard⟩

theorem enters_runsOut (enters : (m.computer hw config saved).Enters variant) :
    (m.computer hw config saved).RunsOut variant.HoldsAt variant.afterFetch := by
  obtain ⟨within,_⟩ := interprets.within_of_enters wired driven member enters
  exact interprets.runsOut wired member within

theorem enters_steady (steady : variant.Steady hw)
    (enters : (m.computer hw config saved).Enters variant) :
    (m.computer hw config saved).RunsOut (fun _ => True) variant.afterFetch := by
  obtain ⟨within,holds⟩ := interprets.within_of_enters wired driven member enters
  intro sets last asserts
  exact interprets.runsOut wired member within sets last
    (interprets.asserts_steady wired member within steady asserts holds)

end Enters

theorem selects {start : Moment} {saved : UInt16} (first : start.driver = .byTable table 0) {c : Computer}
    (reached : Computer.Reachable (start.computer hw config saved) c) : c.Selects program catalog := by
  obtain ⟨⟨driver,number,s⟩,address,place,rfl,driven,_⟩ := interprets.reachable_since wired first reached
  obtain rfl : driver = _ := driven
  refine ⟨s,place,Moment.contents_computer wired _ _ _,Moment.step_computer wired _ _ _ _ _ _,
    interprets.tabulates.tick_missing config address wired place number s,fun known => ?_⟩
  obtain ⟨variant,member,answers⟩ := interprets.dispatches.applying known s.lines.contains
  refine ⟨variant,fun other => ⟨?_,?_⟩,interprets.tabulates.asserted config address member answers⟩
  · rintro ⟨inside,applies⟩
    exact interprets.dispatches.unique interprets.distinct inside member applies answers
  · rintro rfl
    exact ⟨member,answers⟩

theorem missing_left {start : Moment} {saved : UInt16} (first : start.driver = .byTable table 0)
    {c : Computer} (reached : Computer.Reachable (start.computer hw config saved) c)
    {opcode step : UInt8} {after : Computer} (ended : c.tick = .stopped (.missingEntry opcode step) after)
    (known : catalog.Knows opcode) :
    ∃ variant ∈ program, c.HasLeft variant (start.computer hw config saved) := by
  obtain ⟨⟨driver,number,s⟩,address,place,rfl,driven,since⟩ := interprets.reachable_since wired first reached
  obtain rfl : driver = _ := driven
  have missing :=
    (interprets.tabulates.tick_missing config address wired place number s opcode step).mp ⟨_,ended⟩
  by_cases holds : catalog.Knows s.opcode
  · obtain ⟨variant,member,answers⟩ := interprets.dispatches.applying holds s.lines.contains
    have taken := (interprets.tabulates.asserted config address member answers).symm.trans missing
    cases found : variant.steps[place.toNat]? with
    | some step =>
      rw [found] at taken
      cases taken
    | none =>
      have whole := interprets.length member
      have short := List.getElem?_eq_none_iff.mp found
      obtain ⟨⟨driver,earlier,t⟩,saved,sets,before,entered,same,asserts⟩ := since (by omega)
      obtain rfl : driver = _ := entered
      obtain ⟨other,inside,applies⟩ :=
        interprets.dispatches.applying (same.symm ▸ holds) t.lines.contains
      have enters : Computer.Enters
          (Moment.computer hw config saved ⟨.byTable table (.ofNat ticks),earlier,t⟩) other :=
        ⟨by rw [Moment.step_computer wired,interprets.fetch other inside],t,
          Moment.contents_computer wired _ _ _,applies⟩
      have runs := interprets.enters_runsOut wired rfl inside enters
      refine ⟨other,inside,_,sets,before,enters,asserts,fun kept => ?_,fun steady => ?_⟩
      · exact runs.not_error kept missing
      · exact (interprets.enters_steady wired rfl inside steady enters).not_error asserts missing
  · rw [Moment.asserted_computer] at missing
    dsimp only at missing
    rw [Driver.choose_unknown interprets.lowered interprets.dispatches holds] at missing
    cases missing
    exact absurd known holds

end Interprets

namespace Computer
variable {hw : Layout}

theorem begins_of_steps {variant : Variant} {later : List Step}
    (whole : variant.steps = fetchSteps .standard ++ later) (more : later ≠ [])
    (staged : ∀ step ∈ later, step.stage ≠ 0) :
    variant.fetchStage = fetchSteps .standard ∧ variant.GoesOn := by
  obtain ⟨next,others,rfl⟩ := List.exists_cons_of_ne_nil more
  have beyond := staged next List.mem_cons_self
  have fetches : ∀ step ∈ fetchSteps .standard, decide (step.stage = 0) = true := by decide
  constructor
  · rw [Variant.fetchStage,whole,List.takeWhile_append_of_pos fetches,
      List.takeWhile_cons_of_neg (by simpa using beyond),List.append_nil]
  · refine ⟨next,?_,decide_eq_false beyond⟩
    simp [whole]

theorem compiled_fetchStage {variant joined : Variant}
    (begins : variant.fetchStage = fetchSteps .standard) (goes : variant.GoesOn)
    (merges : (variant.sequenced Layout.standard.controller.counter).merged Layout.standard.hardware
      Layout.standard.controller.counter = .ok joined) :
    joined.fetchStage =
      [counted Layout.standard (fetchAddress Layout.standard),mergedFetch Layout.standard] := by
  have merged := Variant.merged_fetchStage merges
  rw [Variant.sequenced_fetchStage,if_pos goes,begins] at merged
  exact Except.ok.inj (merged.symm.trans mergedSteps_fetch)

theorem FetchesFirst.compiled {variant joined : Variant} {later : List Step}
    (first : FetchesFirst hw variant later) (wired : hw.Wired) (standard : hw = Layout.standard)
    (merges : (variant.sequenced hw.controller.counter).merged hw.hardware hw.controller.counter =
      .ok joined) :
    joined.fetchStage = [counted hw (fetchAddress hw),mergedFetch hw] ∧ joined.GoesOn ∧
      ∀ step ∈ joined.afterFetch, hw.controller.opcode.tap.read ∉ step.controls := by
  obtain ⟨rest,whole,shortens⟩ := first.merged_steps standard (Program.merged_steps merges).2.2
  subst standard
  obtain ⟨begins,goes⟩ := begins_of_steps first.begins first.more first.staged
  have fetch := compiled_fetchStage begins goes merges
  have later : joined.afterFetch = rest := by
    rw [Variant.afterFetch,fetch,whole]
    rfl
  refine ⟨fetch,(Variant.merged_goesOn merges).mpr goes,?_⟩
  rw [later]
  refine Variant.mergedSteps_forall (fun step other _ left right => ?_) shortens
    (first.sequenced_unread wired)
  rw [Step.mem_merge]
  rintro (⟨inside,_⟩ | inside)
  · exact left inside
  · exact right inside

theorem interprets_of_compile (built : Layout.build = .ok hw) {descriptors : List Descriptor}
    {catalog : Catalog} (cataloged : Catalog.ofList descriptors = .ok catalog) {drafts : List Draft}
    (first : ∀ draft ∈ drafts, ∃ later, FetchesFirst hw draft.variant later) {plain program : Program}
    {table : ControlTable} (made : Program.ofDrafts hw.hardware drafts = .ok plain)
    (accepts : (compiler hw catalog).Accepts plain)
    (merges : (plain.sequenced hw.controller.counter).merged hw.hardware hw.controller.counter =
      .ok program) (lowered : ControlTable.lower program = .ok table) :
    Interprets hw catalog program table 2 := by
  have wired := Layout.build_wired built
  have standard : hw = Layout.standard :=
    (Except.ok.inj (Layout.build_eq.symm.trans built)).symm
  have compiled {variant : Variant} (member : variant ∈ program) :
      variant.fetchStage = [counted hw (fetchAddress hw),mergedFetch hw] ∧ variant.GoesOn ∧
        ∀ step ∈ variant.afterFetch, hw.controller.opcode.tap.read ∉ step.controls := by
    obtain ⟨ordered,given,inside,joins⟩ := Compiler.compiled_variant accepts merges member
    obtain ⟨draft,listed,rfl⟩ := (Program.mem_ofDrafts made).mp inside
    obtain ⟨later,fetches⟩ := first draft listed
    exact fetches.compiled wired standard joins
  have tabulates := Tabulates.of_compile wired cataloged accepts merges lowered
  refine ⟨lowered,tabulates.dispatches,tabulates.distinct,tabulates.sound,tabulates.ordered,?_,?_,?_⟩
  · intro variant member
    rw [(compiled member).1]
    rfl
  · exact fun variant member => (compiled member).2.1
  · exact fun variant member => (compiled member).2.2

/-- In every tick the table is read anew: a tick asserts the step of the one variant that
applies then. So the variant that is entered after the fetch stage runs to its end while its
guard is kept, as it always is if its steps post nothing of it, and an entry for an instruction
of the catalog is missing only where the guard has not been kept. -/
theorem entered_runs_out (built : Layout.build = .ok hw) {descriptors : List Descriptor}
    {catalog : Catalog} (cataloged : Catalog.ofList descriptors = .ok catalog) {drafts : List Draft}
    (first : ∀ draft ∈ drafts, ∃ later, FetchesFirst hw draft.variant later) {table : ControlTable}
    (compiled : (compiler hw catalog).compile drafts = .ok table) {bytes : List UInt8}
    {config : Config} (valid : config.validate = .ok ())
    (fits : config.admits bytes.length = .ok ()) :
    ∃ program start, (compiler hw catalog).compileProgram drafts = .ok program ∧
      withTable hw table bytes config = .ok start ∧ ∀ c, Reachable start c →
        c.Selects program catalog ∧
        (∀ variant ∈ program, c.Enters variant →
          c.RunsOut variant.HoldsAt variant.afterFetch ∧
          (variant.Steady hw → c.RunsOut (fun _ => True) variant.afterFetch)) ∧
        ∀ opcode step after, c.tick = .stopped (.missingEntry opcode step) after →
          catalog.Knows opcode → ∃ variant ∈ program, c.HasLeft variant start := by
  have wired := Layout.build_wired built
  obtain ⟨program,ended,lowered⟩ := Compiler.compile_ok.mp compiled
  obtain ⟨plain,made,accepts,merges⟩ := Compiler.compileProgram_ok.mp ended
  have interprets := interprets_of_compile built cataloged first made accepts merges lowered
  refine ⟨program,_,ended,withTable_ok built table valid fits,fun c reachable => ?_⟩
  obtain ⟨m,saved,place,rfl,driven,_⟩ := interprets.reachable_since wired rfl reachable
  refine ⟨interprets.selects wired rfl reachable,fun variant member enters => ⟨?_,fun steady => ?_⟩,?_⟩
  · exact interprets.enters_runsOut wired driven member enters
  · exact interprets.enters_steady wired driven member steady enters
  · intro opcode step after stopped known
    exact interprets.missing_left wired rfl reachable stopped known

def switchingDescriptors : List Descriptor := [⟨0,"bcc",.none,""⟩]

/-- A branch that goes on after it has set the carry, although it is for when the carry is
clear, and its sibling, which ends at once. -/
def switchingEdits : List (List Edit) := [
  [.gate Layout.standard.statusRegister.flags.carry false,
    .raise Layout.standard.statusRegister.setCarry,.nextStage] ++ increment Layout.standard.x,
  [.gate Layout.standard.statusRegister.flags.carry true] ++ increment Layout.standard.y]

def switchingDrafts : List Draft := switchingEdits.map fun edits =>
  .ofEdits ⟨0,"bcc",.none,""⟩ (fetch .standard ++ edits)

theorem switching_fetches : ∀ draft ∈ switchingDrafts,
    ∃ later, FetchesFirst .standard draft.variant later := by
  have edits : ∀ edits ∈ switchingEdits, edits.filterMap Edit.controls? ≠ [] ∧
      ∀ lines ∈ edits.filterMap Edit.controls?,
        lines.contains Layout.standard.controller.opcode.tap.read = false := by decide +kernel
  refine List.forall_mem_map.mpr fun changes member => ?_
  obtain ⟨more,unread⟩ := edits changes member
  exact fetchesFirst_of_edits _ more fun lines inside =>
    (SortedSet.contains_eq_false _ _).mp (unread lines inside)

theorem switching_runs_out : ∃ catalog table program start,
    Catalog.ofList switchingDescriptors = .ok catalog ∧
      (compiler .standard catalog).compile switchingDrafts = .ok table ∧
      (compiler .standard catalog).compileProgram switchingDrafts = .ok program ∧
      withTable .standard table [0] {} = .ok start ∧ ∀ c, Reachable start c →
        c.Selects program catalog ∧
        (∀ variant ∈ program, c.Enters variant →
          c.RunsOut variant.HoldsAt variant.afterFetch ∧
          (variant.Steady .standard → c.RunsOut (fun _ => True) variant.afterFetch)) ∧
        ∀ opcode step after, c.tick = .stopped (.missingEntry opcode step) after →
          catalog.Knows opcode → ∃ variant ∈ program, c.HasLeft variant start := by
  obtain ⟨catalog,table,cataloged,compiled⟩ :=
    @Compiler.compiles_of_isOk switchingDrafts (compiler .standard) switchingDescriptors
      (by decide +kernel)
  have valid : ({} : Config).validate = .ok () := by decide +kernel
  obtain ⟨program,start,ended,made,runs⟩ := entered_runs_out Layout.build_eq cataloged
    switching_fetches compiled valid (show ({} : Config).admits [(0 : UInt8)].length = .ok () by decide)
  exact ⟨catalog,table,program,start,cataloged,compiled,ended,made,runs⟩

theorem switching_stops : ∃ catalog table m,
    Catalog.ofList switchingDescriptors = .ok catalog ∧ catalog.Knows 0 ∧
      (compiler .standard catalog).compile switchingDrafts = .ok table ∧
      Moment.run .standard 3 (.initial (.byTable table 0) [0] oneByte) = .ok m ∧
      m.next .standard = .error (.missingEntry 0 3) := by
  have ran : ∃ catalog ∈ (Catalog.ofList switchingDescriptors).toOption,
      catalog.contains ⟨0,"bcc",.none,""⟩ = true ∧
        ∃ table ∈ ((compiler .standard catalog).compile switchingDrafts).toOption,
          ∃ m ∈ (Moment.run .standard 3 (.initial (.byTable table 0) [0] oneByte)).toOption,
            (m.next .standard).map (fun _ => ()) = .error (.missingEntry 0 3) := by decide +kernel
  simp only [except_mem_toOption] at ran
  obtain ⟨catalog,cataloged,known,table,compiled,m,ran,stops⟩ := ran
  refine ⟨catalog,table,m,cataloged,⟨_,(SortedSet.contains_iff _ _).mp known,rfl⟩,compiled,ran,?_⟩
  exact except_map_error.mp stops

/-- The branch is left for its sibling as soon as it has set the carry, and the sibling has
no step there. -/
theorem switching_leaves : ∃ catalog table program start,
    Catalog.ofList switchingDescriptors = .ok catalog ∧ catalog.Knows 0 ∧
      (∀ draft ∈ switchingDrafts, ∃ later, FetchesFirst .standard draft.variant later) ∧
      (compiler .standard catalog).compile switchingDrafts = .ok table ∧
      (compiler .standard catalog).compileProgram switchingDrafts = .ok program ∧
      withTable .standard table [0] oneByte = .ok start ∧
      (∃ c after, Reachable start c ∧ c.tick = .stopped (.missingEntry 0 3) after) ∧
      ∃ c, Reachable start c ∧ ∃ variant ∈ program, c.Enters variant ∧
        ¬c.RunsOut (fun _ => True) variant.afterFetch := by
  obtain ⟨catalog,table,m,cataloged,known,compiled,ran,stops⟩ := switching_stops
  obtain ⟨program,ended,lowered⟩ := Compiler.compile_ok.mp compiled
  obtain ⟨plain,made,accepts,merges⟩ := Compiler.compileProgram_ok.mp ended
  have wired := Layout.build_wired Layout.build_eq
  have interprets := interprets_of_compile Layout.build_eq cataloged switching_fetches made accepts
    merges lowered
  have valid : oneByte.validate = .ok () := by decide +kernel
  have assembled := withTable_ok Layout.build_eq table valid
    (show oneByte.admits [(0 : UInt8)].length = .ok () by decide)
  obtain ⟨address,reached⟩ := (Moment.Reaches.start.run ran).reachable wired oneByte 0
  have ticked : (m.computer .standard oneByte address).tick = .stopped (.missingEntry 0 3) _ :=
    (Moment.tick_stopped wired).mpr ⟨stops,rfl⟩
  obtain ⟨variant,member,before,sets,earlier,enters,asserts,_⟩ :=
    interprets.missing_left wired rfl reached ticked known
  refine ⟨catalog,table,program,_,cataloged,known,switching_fetches,compiled,ended,assembled,
    ⟨_,_,reached,ticked⟩,before,earlier,variant,member,enters,fun runs => ?_⟩
  obtain ⟨_,_,_,_,missing,_⟩ := interprets.selects wired rfl reached
  exact runs.not_error asserts ((missing 0 3).mp ⟨_,ticked⟩)

end Computer
end Microprogram

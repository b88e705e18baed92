import Microprogram.Proofs.Computer.Boundaries
import Microprogram.Proofs.Computer.Counting
import Microprogram.Proofs.Computer.Entering
import Microprogram.Proofs.Computer.MemoryMap

/-! From power-on to the first opcode. The opcode register starts at zero, and a table fetches
only by the rows of the opcode in that register. So the first fetch is carried out if the
catalog has an instruction with that opcode, and fails in its first tick if it has none. -/
namespace Microprogram

namespace Tabulates
variable {hw : Layout} {catalog : Catalog} {program : Program} {table : ControlTable}
  (tabulates : Tabulates hw catalog program table) {place : UInt8} {step : Step}
include tabulates

theorem next_shared (shared : ∀ variant ∈ program, variant.steps[place.toNat]? = some step)
    {s : Contents} (known : catalog.Knows s.opcode) (number : Nat) :
    Moment.next hw ⟨.byTable table place,number,s⟩ = s.cycle hw number step.controls >>= fun t =>
      pure ⟨.byTable table (hw.stepAfter step.controls place),number + 1,t⟩ := by
  obtain ⟨variant,member,answers⟩ := tabulates.dispatches.applying known s.lines.contains
  have chosen := Variant.choose_place tabulates.lowered tabulates.dispatches tabulates.distinct member
    answers place
  rw [shared variant member] at chosen
  have declared := tabulates.declared member (shared variant member)
  exact Moment.next_of_choice (m := ⟨.byTable table place,number,s⟩) chosen declared

end Tabulates

namespace Computer

/-- So many ticks are carried out, one at each place of the step counter, and then the opcode
register holds this opcode. -/
structure Fetches (start : Computer) (ticks : Nat) (opcode : UInt8) : Prop where
  runs : ∀ n < ticks, (start.after n).stepCounter? = some (.ofNat n) ∧
    ∃ next, (start.after n).tick = .done next
  holds : ∃ s, (start.after ticks).contents? = some s ∧ s.opcode = opcode

def addressed (s : Contents) : Contents := { s with address := s.pc }

theorem cycle_fetchAddress (number : Nat) (s : Contents) :
    s.cycle Layout.standard number (counted Layout.standard (fetchAddress Layout.standard)).controls =
      .ok (addressed s) := rfl

section Fetch
variable {catalog : Catalog} {program : Program} {table : ControlTable}
  (tabulates : Tabulates .standard catalog program table)
  (begins : ∀ variant ∈ program, variant.fetchStage =
    [counted Layout.standard (fetchAddress Layout.standard),mergedFetch Layout.standard])
include tabulates begins

theorem next_fetches {s : Contents} (known : catalog.Knows s.opcode) {opcode : UInt8}
    (reads : MemoryMap.read s.regions s.pc = .ok opcode) (number : Nat) :
    Moment.next .standard ⟨.byTable table 0,number,s⟩ =
      .ok ⟨.byTable table 1,number + 1,addressed s⟩ ∧
    Moment.next .standard ⟨.byTable table 1,number + 1,addressed s⟩ =
      .ok ⟨.byTable table 2,number + 2,fetched opcode s⟩ := by
  have shared {place : Nat} (early : place < 2) : ∀ variant ∈ program, variant.steps[place]? =
      [counted Layout.standard (fetchAddress Layout.standard),mergedFetch Layout.standard][place]? := by
    intro variant member
    rw [← begins variant member,variant.fetchStage_getElem?]
    rw [begins variant member]
    exact early
  have first : ∀ variant ∈ program, variant.steps[(0 : UInt8).toNat]? =
      some (counted Layout.standard (fetchAddress Layout.standard)) := shared (by decide)
  have second : ∀ variant ∈ program, variant.steps[(1 : UInt8).toNat]? =
      some (mergedFetch Layout.standard) := shared (by decide)
  have still : catalog.Knows (addressed s).opcode := known
  have played := (Contents.play_cons_ok (cycle_fetchAddress number s) _).symm.trans
    (play_mergedFetch reads)
  rw [Contents.play_cons,except_bind_ok] at played
  obtain ⟨t,cycled,ended⟩ := played
  cases ended
  have read := Contents.cycle_number (except_mapError_ok.mp cycled) (number + 1)
  constructor
  · rw [tabulates.next_shared first known,cycle_fetchAddress]
    rfl
  · rw [tabulates.next_shared second still,read]
    rfl

theorem fetches_next {s : Contents} (known : catalog.Knows s.opcode) {opcode : UInt8}
    (reads : MemoryMap.read s.regions s.pc = .ok opcode) (config : Config) (saved : UInt16) (number : Nat) :
    (Moment.computer .standard config saved ⟨.byTable table 0,number,s⟩).Fetches 2 opcode := by
  have wired := Layout.standard_wired
  obtain ⟨first,second⟩ := next_fetches tabulates begins known reads number
  have ran : Moment.run .standard 1 ⟨.byTable table 0,number,s⟩ =
      .ok ⟨.byTable table 1,number + 1,addressed s⟩ := by
    rw [Moment.run,first]
    rfl
  have ended : Moment.run .standard 2 ⟨.byTable table 0,number,s⟩ =
      .ok ⟨.byTable table 2,number + 2,fetched opcode s⟩ := by
    rw [Moment.run_succ,ran]
    exact second
  obtain ⟨address,reached⟩ := after_run wired config saved ran
  obtain ⟨last,arrived⟩ := after_run wired config saved ended
  constructor
  · intro n early
    obtain rfl | rfl : n = 0 ∨ n = 1 := by omega
    · exact ⟨Moment.step_computer wired _ _ _ _ _ _,_,(Moment.tick_done wired).mpr ⟨_,first,rfl⟩⟩
    · rw [reached]
      exact ⟨Moment.step_computer wired _ _ _ _ _ _,_,(Moment.tick_done wired).mpr ⟨_,second,rfl⟩⟩
  · rw [arrived]
    exact ⟨_,Moment.contents_computer wired _ _ _,rfl⟩

end Fetch

theorem begins_of_edits (d : Descriptor) {changes : List Edit}
    (more : changes.filterMap Edit.controls? ≠ []) :
    (Draft.ofEdits d (fetch .standard ++ changes)).variant.fetchStage = fetchSteps .standard ∧
      (Draft.ofEdits d (fetch .standard ++ changes)).variant.GoesOn := by
  obtain ⟨later,whole,controls,staged⟩ := steps_after_fetch d changes
  apply begins_of_steps whole ?_ staged
  rintro rfl
  exact more controls.symm

theorem next_unknown {hw : Layout} {catalog : Catalog} {program : Program} {table : ControlTable}
    (tabulates : Tabulates hw catalog program table) {s : Contents} (unknown : ¬catalog.Knows s.opcode)
    (place : UInt8) (number : Nat) : Moment.next hw ⟨.byTable table place,number,s⟩ =
      .error (.missingEntry s.opcode place) := by
  have chosen := Driver.choose_unknown tabulates.lowered tabulates.dispatches unknown place s.lines
  unfold Moment.next
  dsimp only
  rw [chosen]
  rfl

/-- Of a computer at power-on: the two ticks of the fetch stage lead to the byte at the entry
point if there is an instruction with opcode zero, and the first one fails if there is none. -/
theorem first_fetch {hw : Layout} (built : Layout.build = .ok hw) {descriptors : List Descriptor}
    {catalog : Catalog} (cataloged : Catalog.ofList descriptors = .ok catalog) {drafts : List Draft}
    (begins : ∀ draft ∈ drafts, draft.variant.fetchStage = fetchSteps hw ∧ draft.variant.GoesOn)
    {table : ControlTable} (compiled : (compiler hw catalog).compile drafts = .ok table)
    {bytes : List UInt8} {config : Config} (valid : config.validate = .ok ())
    (fits : config.admits bytes.length = .ok ()) :
    ∃ program start, (compiler hw catalog).compileProgram drafts = .ok program ∧
      withTable hw table bytes config = .ok start ∧
      (∀ variant ∈ program, variant.fetchStage.length = 2) ∧
      (catalog.Knows 0 →
        start.Fetches 2 (bytes.getD (config.entryPoint.toNat - config.romBase.toNat) 0)) ∧
      (¬catalog.Knows 0 → ∃ after, start.tick = .stopped (.missingEntry 0 0) after) := by
  have wired := Layout.build_wired built
  obtain ⟨program,ended,lowered⟩ := Compiler.compile_ok.mp compiled
  obtain ⟨plain,made,accepts,merges⟩ := Compiler.compileProgram_ok.mp ended
  have tabulates := Tabulates.of_compile wired cataloged accepts merges lowered
  have assembled := withTable_ok built table valid fits
  obtain rfl : hw = Layout.standard := (Except.ok.inj (Layout.build_eq.symm.trans built)).symm
  have fetch : ∀ variant ∈ program, variant.fetchStage =
      [counted Layout.standard (fetchAddress Layout.standard),mergedFetch Layout.standard] := by
    intro variant member
    obtain ⟨_,first,given,joins⟩ := Compiler.compiled_variant accepts merges member
    obtain ⟨draft,listed,rfl⟩ := (Program.mem_ofDrafts made).mp given
    exact compiled_fetchStage (begins draft listed).1 (begins draft listed).2 joins
  refine ⟨program,_,ended,assembled,?_,?_,?_⟩
  · intro variant member
    rw [fetch variant member]
    rfl
  · intro known
    exact fetches_next tabulates fetch known (Config.read_entryPoint valid fits) config 0 0
  · intro unknown
    exact ⟨_,(Moment.tick_stopped wired).mpr ⟨next_unknown tabulates unknown 0 0,rfl⟩⟩

def idle (opcode : UInt8) : Descriptor := ⟨opcode,"nop",.none,""⟩

def idleDrafts (opcode : UInt8) : List Draft :=
  [.ofEdits (idle opcode) (fetch .standard ++ [.step [] []])]

theorem idle_begins (opcode : UInt8) : ∀ draft ∈ idleDrafts opcode,
    draft.variant.fetchStage = fetchSteps .standard ∧ draft.variant.GoesOn := by
  intro draft member
  obtain rfl := List.mem_singleton.mp member
  exact begins_of_edits _ (by simp [Edit.controls?])

theorem idle_first_fetch : ∃ catalog table program start, Catalog.ofList [idle 0] = .ok catalog ∧
    (compiler .standard catalog).compile (idleDrafts 0) = .ok table ∧
    (compiler .standard catalog).compileProgram (idleDrafts 0) = .ok program ∧
    withTable .standard table [0xaa] oneByte = .ok start ∧ catalog.Knows 0 ∧
    (∀ variant ∈ program, variant.fetchStage.length = 2) ∧ start.Fetches 2 0xaa := by
  obtain ⟨catalog,table,cataloged,compiled⟩ :=
    @Compiler.compiles_of_isOk (idleDrafts 0) (compiler .standard) [idle 0] (by decide +kernel)
  have listed : (Catalog.ofList [idle 0]).map (fun catalog => catalog.contains (idle 0)) = .ok true := by
    decide +kernel
  rw [cataloged] at listed
  have known : catalog.Knows 0 := ⟨idle 0,(SortedSet.contains_iff _ _).mp (Except.ok.inj listed),rfl⟩
  have valid : oneByte.validate = .ok () := by decide +kernel
  obtain ⟨program,start,ended,made,length,fetches,_⟩ := first_fetch Layout.build_eq cataloged
    (idle_begins 0) compiled valid (show oneByte.admits [(0xaa : UInt8)].length = .ok () by decide)
  exact ⟨catalog,table,program,start,cataloged,compiled,ended,made,known,length,fetches known⟩

/-- With the one instruction under another opcode, the computer fails in its first tick. -/
theorem idle_never_fetches : ∃ catalog table start, Catalog.ofList [idle 1] = .ok catalog ∧
    catalog.toList = [idle 1] ∧
    (∀ draft ∈ idleDrafts 1, draft.variant.fetchStage = fetchSteps .standard ∧ draft.variant.GoesOn) ∧
    (compiler .standard catalog).compile (idleDrafts 1) = .ok table ∧
    withTable .standard table [0xaa] oneByte = .ok start ∧
    ∃ after, start.tick = .stopped (.missingEntry 0 0) after := by
  have wired := Layout.build_wired Layout.build_eq
  obtain ⟨catalog,table,cataloged,compiled⟩ :=
    @Compiler.compiles_of_isOk (idleDrafts 1) (compiler .standard) [idle 1] (by decide +kernel)
  obtain ⟨program,ended,lowered⟩ := Compiler.compile_ok.mp compiled
  obtain ⟨plain,_,accepts,merges⟩ := Compiler.compileProgram_ok.mp ended
  have tabulates := Tabulates.of_compile wired cataloged accepts merges lowered
  have single : (Catalog.ofList [idle 1]).map Catalog.toList = .ok [idle 1] := by decide +kernel
  rw [cataloged] at single
  have only : catalog.toList = [idle 1] := Except.ok.inj single
  have unknown : ¬catalog.Knows 0 := by
    intro known
    obtain ⟨d,member,zero⟩ := known
    have listed : d ∈ catalog.toList := (SortedSet.mem_toList _ _).mpr member
    rw [only,List.mem_singleton] at listed
    subst listed
    cases zero
  have valid : oneByte.validate = .ok () := by decide +kernel
  have assembled := withTable_ok Layout.build_eq table valid
    (show oneByte.admits [(0xaa : UInt8)].length = .ok () by decide)
  exact ⟨catalog,table,_,cataloged,only,idle_begins 1,compiled,assembled,
    _,(Moment.tick_stopped wired).mpr ⟨next_unknown tabulates unknown 0 0,rfl⟩⟩

end Computer
end Microprogram

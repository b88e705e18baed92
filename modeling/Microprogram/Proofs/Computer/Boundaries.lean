import Microprogram.Proofs.Computer.Execution
import Microprogram.Proofs.Computer.Mapping
import Microprogram.Proofs.Computer.Recipes
import Microprogram.Proofs.Computer.Rest

/-! From the start of an instruction to the start of the next. At every start the opcode
from before is in the catalog, the status lines show the status register and memory is in
its place, and from there the compiled table carries out the edits of one recipe. -/
namespace Microprogram

namespace Executes
variable {hw : Layout} {catalog : Catalog} {program : Program} {table : ControlTable}
  {first second : Step}

theorem choose_ok (executes : Executes hw catalog program table first second) {step : UInt8}
    {s : Contents} {lines : ControlSet}
    (chosen : (Driver.byTable table step).choose s.opcode s.lines = .ok lines) :
    catalog.Knows s.opcode ∧ ∃ variant ∈ program, ∃ place, variant.steps[step.toNat]? = some place ∧
      place.controls = lines := by
  by_cases known : catalog.Knows s.opcode
  · refine ⟨known,?_⟩
    obtain ⟨variant,member,answers⟩ := executes.applying known
    have selected := ControlTable.lookup_step executes.lowered executes.dispatches executes.distinct
      member answers step
    simp only [Driver.choose] at chosen
    cases found : table.lookup s.opcode step s.lines.contains with
    | none =>
      rw [found] at chosen
      cases chosen
    | some entry =>
      rw [found] at chosen selected
      cases chosen
      exact ⟨variant,member,Option.map_eq_some_iff.mp selected.symm⟩
  · rw [executes.choose_unknown known] at chosen
    cases chosen

/-- A cycle of a table that executes a program. Where the step counter comes to zero the
opcode is one of the catalog. -/
theorem next_ok (executes : Executes hw catalog program table first second) {step : UInt8}
    {number : Nat} {s : Contents} {after : Moment}
    (stepped : Moment.next hw ⟨.byTable table step,number,s⟩ = .ok after) :
    ∃ (lines : ControlSet) (t : Contents), s.cycle hw number lines = .ok t ∧
      after = ⟨.byTable table (hw.stepAfter lines step),number + 1,t⟩ ∧
        (hw.stepAfter lines step = 0 → catalog.Knows t.opcode) := by
  obtain ⟨lines,chosen,_⟩ := except_bind_ok.mp stepped
  obtain ⟨known,variant,member,place,found,rfl⟩ := executes.choose_ok (s := s) chosen
  have declared : ∀ line ∈ place.controls, line.index < hw.hardware.controls.size := by
    intro line inside
    obtain ⟨action,acts⟩ :=
      (executes.sound variant member place (List.mem_of_getElem? found)).declared line inside
    exact Registry.control_declared acts
  rw [Moment.next_of_choice (m := ⟨.byTable table step,number,s⟩) chosen declared] at stepped
  obtain ⟨t,done,ended⟩ := except_bind_ok.mp stepped
  cases ended
  refine ⟨place.controls,t,done,rfl,fun zero => ?_⟩
  have short := ControlTable.fits_of_lower executes.lowered variant member
  obtain ⟨front,back,whole,length⟩ : ∃ front back, variant.steps = front ++ place :: back ∧
      front.length = step.toNat := by
    obtain ⟨bound,rfl⟩ := List.getElem?_eq_some_iff.mp found
    refine ⟨variant.steps.take step.toNat,variant.steps.drop (step.toNat + 1),?_,?_⟩
    · rw [← List.drop_eq_getElem_cons,List.take_append_drop]
    · exact List.length_take_of_le (Nat.le_of_lt bound)
  have ordered := (whole ▸ executes.ordered variant member).append (List.cons_ne_nil place back)
  cases back with
  | nil =>
    -- The last step is one of those behind the fetch stage, which keep the opcode.
    obtain ⟨rest,begins,some,calm⟩ := executes.begins variant member
    obtain ⟨third,rest,rfl⟩ := List.exists_cons_of_ne_nil some
    have last : (third :: rest).getLast? = Option.some place := by
      have ends : (first :: second :: third :: rest).getLast? = Option.some place := by
        rw [← begins,whole]
        simp
      rwa [List.getLast?_cons_cons,List.getLast?_cons_cons] at ends
    rw [Contents.cycle_opcode done (calm place (List.mem_of_getLast? last)).opcode]
    exact known
  | cons next later =>
    obtain ⟨⟨counts,stays⟩,_⟩ := (Variant.inSequence_cons (by simp)).mp ordered
    rw [Layout.stepAfter_counts counts stays,← UInt8.toNat_inj,UInt8.toNat_add] at zero
    rw [whole,List.length_append,List.length_cons,List.length_cons,length] at short
    have one : (1 : UInt8).toNat = 1 := rfl
    have none : (0 : UInt8).toNat = 0 := rfl
    omega

end Executes

namespace Contents
variable {hw : Layout} (wired : hw.Wired)
include wired

private theorem play_withControl (step : Step) {control : ControlId}
    (counts : hw.controller.counter.contains control = true) (rest : List ControlSet) (s : Contents) :
    s.play hw ((step.withControl control).controls :: rest) = s.play hw (step.controls :: rest) := by
  rw [play_cons,play_cons,cycle_counterless wired]
  intro line apart
  rw [Variant.mem_withControl,or_iff_right_iff_imp]
  rintro rfl
  rw [counts] at apart
  cases apart

theorem play_counted (front : List Step) (rest : List ControlSet) (s : Contents) :
    s.play hw ((front.map (Step.withControl · hw.controller.counter.increment)).map Step.controls ++
      rest) = s.play hw (front.map Step.controls ++ rest) := by
  induction front generalizing s with
  | nil => rfl
  | cons step front ih =>
    refine (play_withControl wired step (by simp [StepCounter.contains]) _ s).trans ?_
    rw [List.map_cons,List.cons_append,play_cons,play_cons]
    exact bind_congr ih

theorem play_sequencedSteps (steps : List Step) (s : Contents) :
    s.play hw ((Variant.sequencedSteps hw.controller.counter steps).map Step.controls) =
      s.play hw (steps.map Step.controls) := by
  rcases List.eq_nil_or_concat steps with rfl | ⟨front,last,rfl⟩
  · rfl
  · rw [List.concat_eq_append,Variant.sequencedSteps_append front (by simp),List.map_append,List.map_append,
      play_counted wired,play_append,play_append]
    exact bind_congr fun t => play_withControl wired last (by simp [StepCounter.contains]) [] t

end Contents

namespace Computer

def fetched (opcode : UInt8) (s : Contents) : Contents :=
  { s with opcode, address := s.pc, pc := s.pc + 1 }

theorem perform_fetch {s : Contents} {opcode : UInt8} (reads : MemoryMap.read s.regions s.pc = .ok opcode) :
    s.perform (fetch Layout.standard) = .ok (fetched opcode s) := by
  unfold fetch
  rw [Contents.perform_append,show s.perform (readMemoryAtPc Layout.standard
    Layout.standard.controller.opcode.tap) = _ from Contents.perform_readMemoryAtPc .opcode rfl s,
    Contents.byteAt,reads]
  change Except.ok (fetched opcode.toUInt16.toUInt8 s) = _
  rw [UInt8.toUInt8_toUInt16]

theorem fetchSteps_sound : ∀ step ∈ (fetchSteps Layout.standard).map (counted Layout.standard),
    BusSound Layout.standard.hardware step.controls := by
  have checked : ∀ step ∈ (fetchSteps Layout.standard).map (counted Layout.standard),
      step.checkBuses Layout.standard.hardware "" 0 = .ok () := by decide +kernel
  intro step member
  exact Step.checkBuses_sound (checked step member)

theorem play_mergedFetch {s : Contents} {opcode : UInt8}
    (reads : MemoryMap.read s.regions s.pc = .ok opcode) :
    s.play Layout.standard [(counted Layout.standard (fetchAddress Layout.standard)).controls,
      (mergedFetch Layout.standard).controls] = .ok (fetched opcode s) := by
  have wired := Layout.standard_wired
  refine (Variant.play_mergedSteps wired mergedSteps_fetch fetchSteps_sound s).trans ?_
  refine (Contents.play_counted wired (fetchSteps Layout.standard) [] s).trans ?_
  exact perform_fetch reads

theorem play_sequencedDraft {s : Contents} {opcode : UInt8}
    (reads : MemoryMap.read s.regions s.pc = .ok opcode) (d : Descriptor) (edits : List Edit) :
    s.play Layout.standard (((Draft.ofEdits d (fetch Layout.standard ++ edits)).variant.sequenced
      Layout.standard.controller.counter).steps.map Step.controls) =
        (fetched opcode s).perform edits := by
  have controls : (Draft.ofEdits d (fetch Layout.standard ++ edits)).variant.steps.map Step.controls =
      (fetch Layout.standard ++ edits).filterMap Edit.controls? := Draft.ofEdits_controls _ _
  refine (Contents.play_sequencedSteps Layout.standard_wired _ s).trans ?_
  rw [controls]
  refine (Contents.perform_append _ _ s).trans ?_
  rw [perform_fetch reads]
  rfl

theorem draft_ok {hw : Layout} {catalog : Catalog} {recipe : Recipe} {made : Draft}
    (drafted : draft hw catalog recipe = .ok made) :
    ∃ d ∈ catalog.descriptors, d.name = recipe.name ∧ d.mode = recipe.mode ∧
      made = Draft.ofEdits d (fetch hw ++ recipe.edits) := by
  obtain ⟨d,required,ended⟩ := except_bind_ok.mp drafted
  cases ended
  unfold Catalog.require at required
  split at required
  next found =>
    cases required
    have matching := List.find?_some found
    rw [Bool.and_eq_true,decide_eq_true_iff,decide_eq_true_iff] at matching
    exact ⟨d,List.mem_of_find?_eq_some found,matching.1,matching.2,rfl⟩
  next => cases required

namespace Design

theorem knows_initial {design : Design} (built : build = .ok design) : design.catalog.Knows 0 := by
  obtain ⟨_,listed,_⟩ := build_ok built
  exact ⟨_,((Catalog.ofList_indexes listed).members _).mpr List.mem_cons_self,rfl⟩

/-- What holds between any two cycles of the compiled table. -/
structure Settled (design : Design) (config : Config) (table : ControlTable) (m : Moment) : Prop where
  boundary : ∃ step, m.driver = .byTable table step ∧ (step = 0 → design.catalog.Knows m.contents.opcode)
  shown : m.contents.Shown design.layout
  places : config.Places m.contents.regions

variable {design : Design} {plain joined : Program} {split merged : ControlTable}
  (compiles : design.Compiles plain joined split merged)
include compiles

theorem settled (built : build = .ok design) {program : List UInt8} {config : Config}
    (fits : config.admits program.length = .ok ()) {m : Moment}
    (reached : (Moment.initial (.byTable merged 0) program config).Reaches design.layout m) :
    design.Settled config merged m := by
  refine reached.keeps (design.Settled config merged) ⟨⟨0,rfl,fun _ => knows_initial built⟩,
    Contents.shown_initial _ _ _,Config.places_initial fits⟩ ?_
  rintro ⟨driver,number,s⟩ after ⟨⟨step,rfl,_⟩,shown,places⟩ stepped
  obtain ⟨lines,t,done,rfl,knows⟩ := compiles.executes_merged.next_ok stepped
  exact ⟨⟨_,rfl,knows⟩,Contents.cycle_shown compiles.wired done shown,Contents.cycle_places done places⟩

theorem drafted {recipe : Recipe} (listed : recipe ∈ recipes design.layout) :
    ∃ d ∈ design.catalog.descriptors, d.name = recipe.name ∧ d.mode = recipe.mode ∧
      (Draft.ofEdits d (fetch design.layout ++ recipe.edits)).variant ∈ plain := by
  obtain ⟨made,member,drafts⟩ := (except_mapM_ok compiles.drafts).1 recipe listed
  obtain ⟨d,among,name,mode,rfl⟩ := draft_ok drafts
  exact ⟨d,among,name,mode,(compiles.members _).mpr ⟨_,member,rfl⟩⟩

/-- From the start of an instruction the compiled table carries out the edits of a recipe
for the opcode at the program counter. -/
theorem follows_recipe {s : Contents} {d : Descriptor} (known : design.catalog.Knows s.opcode)
    (running : design.layout.root.halted ∉ s.lines) (member : d ∈ design.catalog.descriptors)
    (reads : MemoryMap.read s.regions s.pc = .ok d.opcode) :
    ∃ recipe ∈ recipes design.layout, d.name = recipe.name ∧ d.mode = recipe.mode ∧
      (Draft.ofEdits d (fetch design.layout ++ recipe.edits)).guard.holds s.lines.contains = true ∧
        ∃ sets, sets ≠ [] ∧ Follows design.layout merged (fun step _ => step = 0) sets 0 s ∧
          s.play design.layout sets = (fetched d.opcode s).perform recipe.edits := by
  have wired := compiles.wired
  have executes := compiles.executes_merged
  have standard := compiles.standard
  have begins : s.play design.layout [(counted design.layout (fetchAddress design.layout)).controls,
      (mergedFetch design.layout).controls] = .ok (fetched d.opcode s) := by
    rw [standard]
    exact play_mergedFetch reads
  obtain ⟨variant,inside,answers⟩ := executes.applying (s := fetched d.opcode s) ⟨d,member,rfl⟩
  obtain ⟨plainly,source,later,regular,descriptor,guard,merges⟩ := compiles.merges inside
  obtain ⟨made,drafted,rfl⟩ := (compiles.members plainly).mp source
  obtain ⟨recipe,listed,drafts⟩ := (except_mapM_ok compiles.drafts).2 made drafted
  obtain ⟨other,among,name,mode,rfl⟩ := draft_ok drafts
  have named : variant.descriptor = other := descriptor.trans (Draft.ofEdits_descriptor _ _)
  obtain rfl := compiles.distinct other among d member (named ▸ answers.opcode)
  have holds : variant.guard = (Draft.ofEdits other (fetch design.layout ++ recipe.edits)).guard := guard
  refine ⟨recipe,listed,name,mode,holds ▸ answers.guard,_,?_,
    (executes.follows_variant wired known running begins inside answers).imp fun _ _ ends => ends.1,?_⟩
  · obtain ⟨rest,whole,_⟩ := executes.begins variant inside
    rw [whole]
    simp
  · rw [Variant.play_mergedSteps wired merges (compiles.sound source),standard]
    exact play_sequencedDraft reads other recipe.edits

end Design
end Computer
end Microprogram

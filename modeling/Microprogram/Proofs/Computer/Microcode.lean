import Microprogram.Computer.Microcode
import Microprogram.Proofs.Computer.Selection
import Microprogram.Proofs.Microcode.Drafts

/-! What there is to know of the microcode of the computer: the checks accept it, and
each of its variants fetches first and then stays selected to its end. -/
namespace Microprogram.Computer

def fetchAddress (hw : Layout) : Step :=
  .ofLists 0 [hw.pc.tap.write,hw.memory.address.tap.read] [hw.pc.tap.bus,hw.memory.address.tap.bus]

def fetchOpcode (hw : Layout) : Step :=
  .ofLists 0 [hw.memory.tap.write,hw.controller.opcode.tap.read]
    [hw.memory.tap.bus,hw.controller.opcode.tap.bus]

def fetchNext (hw : Layout) : Step := .ofLists 0 hw.pc.increment.toList []

def fetchSteps (hw : Layout) : List Step := [fetchAddress hw,fetchOpcode hw,fetchNext hw]

/-- A variant that begins with the fetch stage and goes on after it without another opcode. -/
structure FetchesFirst (hw : Layout) (variant : Variant) (later : List Step) : Prop where
  begins : variant.steps = fetchSteps hw ++ later
  more : later ≠ []
  staged : ∀ step ∈ later, step.stage ≠ 0
  opcode : ∀ step ∈ later, hw.controller.opcode.tap.read ∉ step.controls

theorem steps_after_fetch (d : Descriptor) (changes : List Edit) :
    ∃ later, (Draft.ofEdits d (fetch .standard ++ changes)).steps = fetchSteps .standard ++ later ∧
      later.map Step.controls = changes.filterMap Edit.controls? ∧ ∀ step ∈ later, step.stage ≠ 0 := by
  obtain ⟨later,steps,controls,staged⟩ := (Draft.ofEdits d (fetch .standard)).edits_steps changes
  refine ⟨later,?_,controls,?_⟩
  · rw [Draft.ofEdits,Draft.edits,List.foldl_append]
    exact steps
  · intro step member
    have beyond : (1 : UInt8) ≤ step.stage := staged step member
    rintro same
    exact absurd (same ▸ beyond) (by decide)

theorem fetchesFirst_of_edits (d : Descriptor) {changes : List Edit}
    (more : changes.filterMap Edit.controls? ≠ [])
    (unread : ∀ lines ∈ changes.filterMap Edit.controls?,
      Layout.standard.controller.opcode.tap.read ∉ lines) :
    ∃ later, FetchesFirst .standard (Draft.ofEdits d (fetch .standard ++ changes)).variant later := by
  obtain ⟨later,whole,controls,staged⟩ := steps_after_fetch d changes
  refine ⟨later,whole,?_,staged,?_⟩
  · rintro rfl
    exact more controls.symm
  · intro step member
    exact unread step.controls (controls ▸ List.mem_map_of_mem member)

/-- A variant that begins with the fetch stage and stays selected in its later steps. -/
structure Regular (hw : Layout) (variant : Variant) (later : List Step) : Prop where
  begins : variant.steps = fetchSteps hw ++ later
  more : later ≠ []
  short : variant.steps.length ≤ 256
  staged : ∀ step ∈ later, step.stage ≠ 0
  opcode : ∀ step ∈ later, hw.controller.opcode.tap.read ∉ step.controls
  status : variant.guard ≠ ∅ → ∀ step ∈ later, ∀ line ∈ hw.statusControls, line ∉ step.controls
  halt : ∀ step ∈ later.dropLast, hw.root.halt ∉ step.controls
  gates : variant.GatesFlags hw

theorem Regular.first {hw : Layout} {variant : Variant} {later : List Step}
    (regular : Regular hw variant later) : FetchesFirst hw variant later :=
  ⟨regular.begins,regular.more,regular.staged,regular.opcode⟩

def isRegular (hw : Layout) (variant : Variant) : Bool :=
  let later := variant.steps.drop 3
  variant.steps.take 3 = fetchSteps hw && later ≠ [] && variant.steps.length ≤ 256 &&
  later.all (fun step => step.stage ≠ 0 && !step.contains hw.controller.opcode.tap.read) &&
  (variant.guard = ∅ || later.all fun step => hw.statusControls.all fun line => !step.contains line) &&
  later.dropLast.all (fun step => !step.contains hw.root.halt) &&
  variant.guard.toList.all fun pair => pair.1 ∈ hw.statusRegister.flags.all

theorem regular_of_check {hw : Layout} {variant : Variant} (checked : isRegular hw variant = true) :
    Regular hw variant (variant.steps.drop 3) := by
  simp only [isRegular,Bool.and_eq_true,Bool.or_eq_true,List.all_eq_true,decide_eq_true_eq,
    Bool.not_eq_true',← Bool.not_eq_true,Step.contains_iff] at checked
  obtain ⟨⟨⟨⟨⟨⟨begins,more⟩,short⟩,stays⟩,status⟩,halt⟩,gates⟩ := checked
  refine ⟨?_,more,short,fun step inside => (stays step inside).1,
    fun step inside => (stays step inside).2,fun gated => status.resolve_left gated,halt,?_⟩
  · rw [← begins,List.take_append_drop]
  · intro line value given
    exact gates (line,value) ((SortedMap.get?_eq_some _ _ _).mp given)

def accepted (hw : Layout) : Bool :=
  match Computer.catalog with
  | .error _ => false
  | .ok catalog =>
    match Computer.drafts hw catalog with
    | .error _ => false
    | .ok drafts =>
      ((Computer.compiler hw catalog).program drafts >>=
        (Computer.compiler hw catalog).runPasses (Pass.pipeline.erase .merging)).isOk &&
      drafts.all fun draft => isRegular hw draft.variant

theorem standard_accepted : accepted Layout.standard = true := by decide +kernel

end Microprogram.Computer

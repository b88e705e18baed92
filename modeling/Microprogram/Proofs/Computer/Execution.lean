import Microprogram.Proofs.Computer.Fetching
import Microprogram.Proofs.Computer.Tables

/-! Both tables execute the microcode. They fetch alike, in three cycles and in two, and
after that each follows the later steps of one variant. -/
namespace Microprogram.Computer

def counted (hw : Layout) (step : Step) : Step := step.withControl hw.controller.counter.increment

def mergedFetch (hw : Layout) : Step :=
  (counted hw (fetchOpcode hw)).merge hw.controller.counter (counted hw (fetchNext hw))

theorem mergedSteps_fetch :
    Variant.mergedSteps Layout.standard.hardware Layout.standard.controller.counter
      ((fetchSteps Layout.standard).map (counted Layout.standard)) =
        .ok [counted Layout.standard (fetchAddress Layout.standard),mergedFetch Layout.standard] := rfl

private theorem fetch_quiet : ∀ step ∈ [fetchAddress Layout.standard,fetchNext Layout.standard],
    Layout.standard.controller.opcode.tap.read ∉ (counted Layout.standard step).controls := by
  simp only [List.forall_mem_cons,← SortedSet.contains_eq_false]
  decide

private theorem fetch_running : ∀ step ∈ [counted Layout.standard (fetchAddress Layout.standard),
    counted Layout.standard (fetchOpcode Layout.standard),
    counted Layout.standard (fetchNext Layout.standard),mergedFetch Layout.standard],
      Layout.standard.root.halt ∉ step.controls := by
  simp only [List.forall_mem_cons,← SortedSet.contains_eq_false]
  decide

private theorem fetch_status : ∀ line ∈ Layout.standard.statusControls,
    line ∉ (counted Layout.standard (fetchNext Layout.standard)).controls := by
  simp only [← SortedSet.contains_eq_false]
  decide

namespace FetchesFirst
variable {hw : Layout} {variant : Variant} {later : List Step} (first : FetchesFirst hw variant later)
include first

theorem sequenced_steps : (variant.sequenced hw.controller.counter).steps =
    (fetchSteps hw).map (counted hw) ++ Variant.sequencedSteps hw.controller.counter later := by
  change Variant.sequencedSteps hw.controller.counter variant.steps = _
  rw [first.begins,Variant.sequencedSteps_append _ first.more]
  rfl

theorem sequenced_staged : ∀ step ∈ Variant.sequencedSteps hw.controller.counter later,
    step.stage ≠ 0 := by
  intro step member
  rcases Variant.mem_sequencedSteps member with ⟨early,inside,rfl⟩ | ⟨last,inside,rfl⟩
  · exact first.staged early (List.dropLast_subset _ inside)
  · exact first.staged last inside

theorem sequenced_unread (wired : hw.Wired) :
    ∀ step ∈ Variant.sequencedSteps hw.controller.counter later,
      hw.controller.opcode.tap.read ∉ step.controls := by
  have apart := wired.calm_apart (List.mem_cons_self (a := hw.controller.opcode.tap.read))
  simp only [StepCounter.contains,Bool.or_eq_false_iff,decide_eq_false_iff_not] at apart
  intro step member
  rcases Variant.mem_sequencedSteps member with ⟨early,inside,rfl⟩ | ⟨last,inside,rfl⟩
  · rw [Variant.mem_withControl]
    exact fun raised => raised.elim apart.1 (first.opcode early (List.dropLast_subset _ inside))
  · rw [Variant.mem_withControl]
    exact fun raised => raised.elim apart.2 (first.opcode last inside)

theorem merged_steps (standard : hw = Layout.standard) {merged : List Step}
    (joined : Variant.mergedSteps hw.hardware hw.controller.counter
      (variant.sequenced hw.controller.counter).steps = .ok merged) :
    ∃ rest, merged = counted hw (fetchAddress hw) :: mergedFetch hw :: rest ∧
      Variant.mergedSteps hw.hardware hw.controller.counter
        (Variant.sequencedSteps hw.controller.counter later) = .ok rest := by
  subst standard
  have staged : ∀ step ∈ (fetchSteps .standard).map (counted .standard), step.stage = 0 := by decide
  have apart : ∀ step ∈ (fetchSteps .standard).map (counted .standard),
      ∀ next ∈ (Variant.sequencedSteps Layout.standard.controller.counter later).head?,
        step.stage ≠ next.stage := by
    intro step member next found
    rw [staged step member]
    exact (first.sequenced_staged next (List.mem_of_mem_head? found)).symm
  rw [first.sequenced_steps,Variant.mergedSteps_append (by simp [fetchSteps]) apart,
    mergedSteps_fetch] at joined
  rw [except_ok_bind] at joined
  obtain ⟨rest,merges,ended⟩ := except_bind_ok.mp joined
  cases ended
  exact ⟨rest,rfl,merges⟩

theorem merged_length (standard : hw = Layout.standard) {merged : List Step}
    (joined : Variant.mergedSteps hw.hardware hw.controller.counter
      (variant.sequenced hw.controller.counter).steps = .ok merged) :
    2 < merged.length ∧ merged.length < (variant.sequenced hw.controller.counter).steps.length := by
  obtain ⟨rest,rfl,merges⟩ := first.merged_steps standard joined
  have shorter := Variant.mergedSteps_length merges
  have more := List.length_pos_of_ne_nil
    (Variant.mergedSteps_not_nil (Variant.sequencedSteps_not_nil first.more) merges)
  rw [first.sequenced_steps]
  simp only [List.length_cons,List.length_append,List.length_map,fetchSteps,List.length_nil]
  omega

end FetchesFirst

namespace Regular
variable {hw : Layout} {variant : Variant} {later : List Step} (regular : Regular hw variant later)
include regular

theorem calm (wired : hw.Wired) : ∀ step ∈ Variant.sequencedSteps hw.controller.counter later,
    hw.Calm (variant.guard ≠ ∅) step.controls := by
  have apart (line : ControlId)
      (member : line ∈ hw.controller.opcode.tap.read :: hw.root.halt :: hw.statusControls) :
      line ≠ hw.controller.counter.increment ∧ line ≠ hw.controller.counter.reset := by
    simpa [StepCounter.contains] using wired.calm_apart member
  have control (line : ControlId) (member : line ∈ hw.statusControls) :=
    apart line (List.mem_cons_of_mem _ (List.mem_cons_of_mem _ member))
  have halt := apart hw.root.halt (by simp)
  intro step member
  have unread := regular.first.sequenced_unread wired step member
  rcases Variant.mem_sequencedSteps member with ⟨first,inside,rfl⟩ | ⟨last,inside,rfl⟩
  · have listed := List.dropLast_subset _ inside
    refine ⟨unread,?_,fun gated line among => ?_⟩ <;> rw [Variant.mem_withControl]
    · exact fun raised => (raised.elim halt.1 (regular.halt first inside)).elim
    · exact fun raised => raised.elim (control line among).1
        (regular.status gated first listed line among)
  · refine ⟨unread,?_,fun gated line among => ?_⟩ <;> rw [Variant.mem_withControl]
    · exact fun _ => (Variant.mem_withControl _ _ _).mpr (.inl rfl)
    · exact fun raised => raised.elim (control line among).2
        (regular.status gated last inside line among)

end Regular

namespace Design.Compiles
variable {design : Design} {plain joined : Program} {split merged : ControlTable}
  (compiles : design.Compiles plain joined split merged)
include compiles

theorem wired : design.layout.Wired := Layout.build_wired compiles.layout

theorem standard : design.layout = Layout.standard := by
  have declared := compiles.layout
  rw [Layout.build_eq] at declared
  exact (Except.ok.inj declared).symm

theorem sound {variant : Variant} (member : variant ∈ plain) :
    ∀ step ∈ (variant.sequenced design.layout.controller.counter).steps,
      BusSound design.layout.hardware step.controls :=
  Variant.sequencedSteps_sound compiles.wired.counter_line
    (Program.checkBusUse_sound compiles.accepts.busUse variant member)

theorem next_calm (gated : Prop) :
    design.layout.Calm gated (counted design.layout (fetchNext design.layout)).controls := by
  rw [compiles.standard]
  refine ⟨fetch_quiet _ (by simp),fun raised => ?_,fun _ => fetch_status⟩
  exact absurd raised (fetch_running _ (by simp))

theorem executes_split : Executes design.layout design.catalog
    (plain.sequenced design.layout.controller.counter) split
      (counted design.layout (fetchAddress design.layout))
      (counted design.layout (fetchOpcode design.layout)) where
  lowered := compiles.split
  dispatches := compiles.accepts.dispatches
  distinct := compiles.distinct
  sound := by
    intro variant member
    obtain ⟨first,inside,rfl⟩ := Program.mem_sequenced.mp member
    exact compiles.sound inside
  ordered _ := compiles.accepts.inSequence
  gates := by
    intro variant member
    obtain ⟨first,inside,rfl⟩ := Program.mem_sequenced.mp member
    obtain ⟨later,regular⟩ := compiles.regular first inside
    exact regular.gates
  begins := by
    intro variant member
    obtain ⟨first,inside,rfl⟩ := Program.mem_sequenced.mp member
    obtain ⟨later,regular⟩ := compiles.regular first inside
    refine ⟨_,regular.first.sequenced_steps,by simp,List.forall_mem_cons.mpr ⟨?_,?_⟩⟩
    · exact compiles.next_calm _
    · exact regular.calm compiles.wired
  address := by
    rw [compiles.standard]
    exact fetch_quiet _ (by simp)
  running := by
    rw [compiles.standard]
    intro step member
    rcases List.mem_pair.mp member with rfl | rfl <;> exact fetch_running _ (by simp)

theorem fetch_sound {opcode : UInt8} (known : design.catalog.Knows opcode) :
    ∀ step ∈ (fetchSteps design.layout).map (counted design.layout),
      BusSound design.layout.hardware step.controls := by
  obtain ⟨d,listed,_⟩ := known
  obtain ⟨variant,member,_⟩ := compiles.executes_split.dispatches.total d listed fun _ => false
  obtain ⟨first,inside,rfl⟩ := Program.mem_sequenced.mp member
  obtain ⟨later,regular⟩ := compiles.regular first inside
  intro step fetches
  refine compiles.sound inside step ?_
  rw [regular.first.sequenced_steps]
  exact List.mem_append_left _ fetches

theorem merges {variant : Variant} (member : variant ∈ joined) : ∃ first ∈ plain, ∃ later,
    Regular design.layout first later ∧ variant.descriptor = first.descriptor ∧
      variant.guard = first.guard ∧
      Variant.mergedSteps design.layout.hardware design.layout.controller.counter
        (first.sequenced design.layout.controller.counter).steps = .ok variant.steps := by
  obtain ⟨sequenced,ordered,done⟩ := (Program.mem_merged compiles.joins).mp member
  obtain ⟨first,inside,rfl⟩ := Program.mem_sequenced.mp ordered
  obtain ⟨later,regular⟩ := compiles.regular first inside
  obtain ⟨descriptor,guard,steps⟩ := Program.merged_steps done
  exact ⟨first,inside,later,regular,descriptor,guard,steps⟩

theorem executes_merged : Executes design.layout design.catalog joined merged
    (counted design.layout (fetchAddress design.layout)) (mergedFetch design.layout) where
  lowered := compiles.merged
  dispatches := compiles.accepts.dispatches.merged compiles.joins
  distinct := compiles.distinct
  sound := by
    intro variant member
    obtain ⟨first,inside,later,_,_,_,steps⟩ := compiles.merges member
    exact Variant.mergedSteps_sound compiles.wired.counter_line steps (compiles.sound inside)
  ordered := by
    intro variant member
    obtain ⟨first,inside,later,_,_,_,steps⟩ := compiles.merges member
    exact Variant.mergedSteps_inSequence steps
      (compiles.accepts.inSequence (Program.mem_sequenced.mpr ⟨first,inside,rfl⟩))
  gates := by
    intro variant member
    obtain ⟨first,_,later,regular,_,guard,_⟩ := compiles.merges member
    exact fun status value given => regular.gates status value (guard ▸ given)
  begins := by
    intro variant member
    obtain ⟨first,_,later,regular,_,guard,steps⟩ := compiles.merges member
    obtain ⟨rest,whole,merges⟩ := regular.first.merged_steps compiles.standard steps
    refine ⟨rest,whole,?_,?_⟩
    · exact Variant.mergedSteps_not_nil (Variant.sequencedSteps_not_nil regular.more) merges
    · rw [guard]
      exact Variant.mergedSteps_forall (fun _ _ _ left right => left.merge compiles.wired right) merges
        (regular.calm compiles.wired)
  address := by
    rw [compiles.standard]
    exact fetch_quiet _ (by simp)
  running := by
    rw [compiles.standard]
    intro step member
    rcases List.mem_pair.mp member with rfl | rfl <;> exact fetch_running _ (by simp)

end Design.Compiles
end Microprogram.Computer

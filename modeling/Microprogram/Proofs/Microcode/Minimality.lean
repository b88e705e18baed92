import Mathlib.Data.List.Chain
import Mathlib.Order.Bounds.Defs
import Microprogram.Proofs.Microcode.Compiled
import Microprogram.Proofs.Microcode.Grouping

/-! Merging makes as few steps as can be made, and cannot make fewer of what it made. A step
that is not taken in by the ones before it would not fit in their cycle, however the steps
after it are cut. -/
namespace Microprogram

namespace Step
variable {hw : Registry} {counter : StepCounter}

theorem mergeable_declared {step next : Step} {joins : Bool} (staged : step.stage = next.stage)
    (checked : mergeable hw counter step next = .ok joins) :
    (∀ line ∈ step.controls, counter.contains line = false → ∃ action, hw.actionOf line = some action) ∧
      ∀ line ∈ next.controls, counter.contains line = false →
        ∃ action, hw.actionOf line = some action := by
  unfold mergeable at checked
  rw [if_neg (not_not.mpr staged)] at checked
  obtain ⟨before,ranged,checked⟩ := except_bind_ok.mp checked
  obtain ⟨after,followed,_⟩ := except_bind_ok.mp checked
  exact ⟨phases_declared ranged,phases_declared followed⟩

theorem mergeable_total_of_counts
    (counts : ∀ line, counter.contains line = true → hw.actionOf line = some .process) {step next : Step}
    (left : ∀ line ∈ step.controls, counter.contains line = false → ∃ action, hw.actionOf line = some action)
    (right : ∀ line ∈ next.controls, counter.contains line = false →
      ∃ action, hw.actionOf line = some action) :
    ∃ joins, mergeable hw counter step next = .ok joins := by
  have declared {step : Step} (acts : ∀ line ∈ step.controls, counter.contains line = false →
      ∃ action, hw.actionOf line = some action) :
      ∀ line ∈ step.controls, ∃ action, hw.actionOf line = some action := by
    intro line member
    cases counted : counter.contains line with
    | true => exact ⟨_,counts line counted⟩
    | false => exact acts line member counted
  exact mergeable_total (declared left) (declared right)

/-- Steps that can be made in one cycle. Those that do nothing but drive the step counter
are passed over where phases are compared. -/
structure OneCycle (hw : Registry) (counter : StepCounter) (steps : List Step) : Prop where
  staged : ∀ step ∈ steps, ∀ other ∈ steps, step.stage = other.stage
  ascends : (steps.filter (busy counter)).IsChain fun step other =>
    Precedes hw counter step.controls other.controls
  /-- No bus has two writers. -/
  single : ∀ step ∈ steps, ∀ other ∈ steps, ∀ line ∈ step.controls, ∀ also ∈ other.controls,
    ∀ bus, hw.actionOf line = some (.write bus) → hw.actionOf also = some (.write bus) → line = also

/-- The first step is done before the second one begins, and the second one does something. -/
def LeadsTo (hw : Registry) (counter : StepCounter) (step other : Step) : Prop :=
  Precedes hw counter step.controls other.controls ∧
    ∃ line ∈ other.controls, counter.contains line = false ∧ ∃ phase, hw.phaseOf line = some phase

theorem LeadsTo.trans {step middle other : Step} (first : LeadsTo hw counter step middle)
    (second : LeadsTo hw counter middle other) : LeadsTo hw counter step other := by
  refine ⟨?_,second.2⟩
  obtain ⟨between,among,aloof,phase,phased⟩ := first.2
  intro line member also inside apart aside p q early late
  have before := first.1 line member between among apart aloof p phase early phased
  have after := second.1 between among also inside aloof aside phase q phased late
  omega

theorem pairwise_precedes {steps : List Step}
    (declared : ∀ step ∈ steps, ∀ line ∈ step.controls, counter.contains line = false →
      ∃ action, hw.actionOf line = some action)
    (ascends : (steps.filter (busy counter)).IsChain fun step other =>
      Precedes hw counter step.controls other.controls) :
    steps.Pairwise fun step other => Precedes hw counter step.controls other.controls := by
  have chain : (steps.filter (busy counter)).IsChain (LeadsTo hw counter) := by
    refine ascends.imp_of_mem_imp fun step other _ found before => ⟨before,?_⟩
    obtain ⟨member,busy⟩ := List.mem_filter.mp found
    obtain ⟨line,inside,apart⟩ := busy_iff.mp busy
    obtain ⟨action,acts⟩ := declared other member line inside apart
    exact ⟨line,inside,apart,_,Registry.phaseOf_of_action acts⟩
  have trans : IsTrans Step (LeadsTo hw counter) := ⟨fun _ _ _ => LeadsTo.trans⟩
  have ordered := List.pairwise_filter.mp (List.isChain_iff_pairwise.mp chain)
  refine ordered.imp fun {step other} before => ?_
  intro line member also inside apart aside
  have precedes := (before (busy_iff.mpr ⟨line,member,apart⟩) (busy_iff.mpr ⟨also,inside,aside⟩)).1
  exact precedes line member also inside apart aside

namespace OneCycle
variable {steps : List Step}

theorem of_infix {others : List Step} (fits : OneCycle hw counter steps) (part : others <:+: steps) :
    OneCycle hw counter others where
  staged step member other inside := fits.staged step (part.subset member) other (part.subset inside)
  ascends := fits.ascends.infix (part.filter _)
  single step member other inside := fits.single step (part.subset member) other (part.subset inside)

/-- A step that fits behind a block in one cycle joins it, whatever comes after it. -/
theorem joins (counts : ∀ line, counter.contains line = true → hw.actionOf line = some .process)
    {block : Block} {next : Step} {rest : List Step} {joins : Bool}
    (fits : OneCycle hw counter (block.steps ++ next :: rest))
    (checked : mergeable hw counter (block.joined counter) next = .ok joins) : joins = true := by
  have front : block.steps ++ [next] <:+: block.steps ++ next :: rest :=
    (List.prefix_append_right_inj _).mpr (List.prefix_append [next] rest) |>.isInfix
  have both := fits.of_infix front
  have staged : (block.joined counter).stage = next.stage := by
    rw [Block.joined_stage]
    exact both.staged _ (by simp [Block.steps]) _ (by simp)
  obtain ⟨left,right⟩ := mergeable_declared staged checked
  have ordered := pairwise_precedes (List.forall_mem_append.mpr ⟨fun step member line inside apart =>
    left line ((Block.mem_joined apart).mpr ⟨step,member,inside⟩) apart,
    List.forall_mem_singleton.mpr right⟩) both.ascends
  have before := (List.pairwise_append.mp ordered).2.2
  have writer {line : ControlId} {bus : BusId} (writes : hw.actionOf line = some (.write bus))
      (member : line ∈ (block.joined counter).controls.union next.controls) :
      ∃ step ∈ block.steps ++ [next], line ∈ step.controls := by
    have apart := StepCounter.not_contains_of_action counts writes (by simp)
    rw [SortedSet.mem_union,Block.mem_joined apart] at member
    simpa [or_and_right,exists_or] using member
  refine (mergeable_iff checked).mpr ⟨staged,?_,fun _ _ => ?_⟩
  · intro line member other inside apart
    obtain ⟨step,among,raised⟩ := (Block.mem_joined apart).mp member
    exact before step among next (List.mem_singleton_self next) line raised other inside apart
  · intro line member other inside bus writes also
    obtain ⟨step,among,raised⟩ := writer writes member
    obtain ⟨later,within,given⟩ := writer also inside
    exact both.single step among later within line raised other given bus writes also

end OneCycle

/-- A way to cut steps into parts that can each be made in one cycle. -/
structure Cut (hw : Registry) (counter : StepCounter) (steps : List Step)
    (parts : List (List Step)) : Prop where
  whole : parts.flatten = steps
  fits : ∀ part ∈ parts, OneCycle hw counter part

theorem Cut.uncons {next : Step} {rest : List Step} {parts : List (List Step)}
    (cut : Cut hw counter (next :: rest) parts) : ∃ part others,
      others.length < parts.length ∧ OneCycle hw counter (next :: part) ∧
        Cut hw counter rest (part :: others) := by
  obtain ⟨whole,fits⟩ := cut
  induction parts with
  | nil => cases whole
  | cons first parts ih =>
    obtain ⟨fit,others⟩ := List.forall_mem_cons.mp fits
    cases first with
    | nil =>
      obtain ⟨part,later,fewer,found⟩ := ih whole others
      exact ⟨part,later,Nat.lt_succ_of_lt fewer,found⟩
    | cons step part =>
      obtain ⟨rfl,remains⟩ := List.cons.inj whole
      have shorter : part <:+: step :: part := (List.suffix_cons step part).isInfix
      exact ⟨part,parts,Nat.lt_succ_self _,fit,remains,
        List.forall_mem_cons.mpr ⟨fit.of_infix shorter,others⟩⟩

/-- A step that was refused stays refused with what it took in. -/
theorem refused_merge (counts : ∀ line, counter.contains line = true → hw.actionOf line = some .process)
    {before current next : Step} (refused : mergeable hw counter before current = .ok false)
    (joined : mergeable hw counter current next = .ok true) :
    mergeable hw counter before (current.merge counter next) = .ok false := by
  by_cases staged : before.stage = current.stage
  · have kept {line : ControlId} (apart : counter.contains line = false)
        (member : line ∈ current.controls) : line ∈ (current.merge counter next).controls :=
      (mem_merge_of_not_contains apart).mpr (.inl member)
    obtain ⟨joins,checked⟩ : ∃ joins,
        mergeable hw counter before (current.merge counter next) = .ok joins := by
      obtain ⟨left,middle⟩ := mergeable_declared staged refused
      obtain ⟨_,right⟩ := mergeable_declared (mergeable_precedes joined).1 joined
      refine mergeable_total_of_counts counts left fun line member apart => ?_
      rcases (mem_merge_of_not_contains apart).mp member with inside | inside
      · exact middle line inside apart
      · exact right line inside apart
    cases joins with
    | false => exact checked
    | true =>
      -- What joins now would have joined before.
      obtain ⟨_,precedes,single⟩ := (mergeable_iff checked).mp rfl
      refine absurd ((mergeable_iff refused).mpr ⟨staged,?_,fun first second => ?_⟩) Bool.false_ne_true
      · intro line member other inside aloof aside
        exact precedes line member other (kept aside inside) aloof aside
      · obtain ⟨acting,raised,apart⟩ := busy_iff.mp second
        refine (single first (busy_iff.mpr ⟨acting,kept apart raised,apart⟩)).of_writes ?_
        intro line member bus writes
        have apart := StepCounter.not_contains_of_action counts writes (by simp)
        rw [SortedSet.mem_union] at member ⊢
        exact member.imp_right (kept apart)
  · exact if_pos staged

/-- None of the steps takes in the one after it. -/
def Settled (hw : Registry) (counter : StepCounter) (steps : List Step) : Prop :=
  steps.IsChain fun step next => mergeable hw counter step next = .ok false

theorem absorb_settled (counts : ∀ line, counter.contains line = true → hw.actionOf line = some .process)
    {current : Step} {rest merged : List Step} (absorbed : current.absorb hw counter rest = .ok merged) :
    Settled hw counter merged ∧ ∀ before, mergeable hw counter before current = .ok false →
      Settled hw counter (before :: merged) := by
  refine absorb_induction (motive := fun current _ merged =>
    Settled hw counter merged ∧ ∀ before, mergeable hw counter before current = .ok false →
      Settled hw counter (before :: merged)) ?_ ?_ ?_ absorbed
  · exact fun current => ⟨.singleton _,fun before refused => .cons_cons refused (.singleton _)⟩
  · intro current next rest merged joined ih
    exact ⟨ih.1,fun before refused => ih.2 before (refused_merge counts refused joined)⟩
  · intro current next rest merged refused ih
    have settled := ih.2 current refused
    exact ⟨settled,fun before also => .cons_cons also settled⟩

theorem Settled.absorb {current : Step} {rest : List Step}
    (settled : Settled hw counter (current :: rest)) :
    current.absorb hw counter rest = .ok (current :: rest) := by
  induction rest generalizing current with
  | nil => rfl
  | cons next rest ih =>
    obtain ⟨refused,later⟩ := List.isChain_cons_cons.mp settled
    unfold Step.absorb
    rw [refused,except_ok_bind,if_neg Bool.false_ne_true,ih later]
    rfl

end Step

namespace Block
variable {hw : Registry} {counter : StepCounter}

/-- A block and the steps after it come to no more than this many cycles: every cut of the steps
has at most one part less, and a cut whose first part goes on with the block has as many. -/
structure Fewest (hw : Registry) (counter : StepCounter) (block : Block) (rest : List Step)
    (count : Nat) : Prop where
  apart : ∀ parts, Step.Cut hw counter rest parts → count ≤ parts.length + 1
  onward : ∀ part others, Step.Cut hw counter rest (part :: others) →
    Step.OneCycle hw counter (block.steps ++ part) → count ≤ others.length + 1

namespace Fewest
variable {block : Block} {next : Step} {rest : List Step} {count : Nat}

theorem of_cons (apart : ∀ parts, Step.Cut hw counter (next :: rest) parts → count ≤ parts.length + 1)
    (onward : ∀ part others, Step.Cut hw counter rest (part :: others) →
      Step.OneCycle hw counter (block.steps ++ next :: part) → count ≤ others.length + 1) :
    Fewest hw counter block (next :: rest) count := by
  refine ⟨apart,fun part others cut fits => ?_⟩
  obtain ⟨whole,each⟩ := cut
  obtain ⟨_,later⟩ := List.forall_mem_cons.mp each
  cases part with
  | nil => exact apart others ⟨whole,later⟩
  | cons step part =>
    obtain ⟨rfl,remains⟩ := List.cons.inj whole
    have shorter : part <:+: block.steps ++ step :: part :=
      ((List.suffix_cons step part).trans (List.suffix_append _ _)).isInfix
    exact onward part others
      ⟨remains,List.forall_mem_cons.mpr ⟨fits.of_infix shorter,later⟩⟩ fits

theorem join (fewest : Fewest hw counter (block.add next) rest count) :
    Fewest hw counter block (next :: rest) count := by
  refine of_cons (fun parts cut => ?_) (fun part others cut fits => ?_)
  · obtain ⟨part,others,fewer,_,shorter⟩ := cut.uncons
    have bound := fewest.apart _ shorter
    rw [List.length_cons] at bound
    omega
  · refine fewest.onward part others cut ?_
    rwa [steps_add,List.append_assoc]

theorem keep (counts : ∀ line, counter.contains line = true → hw.actionOf line = some .process)
    (refused : Step.mergeable hw counter (block.joined counter) next = .ok false)
    (fewest : Fewest hw counter ⟨next,[]⟩ rest count) :
    Fewest hw counter block (next :: rest) (count + 1) := by
  refine of_cons (fun parts cut => ?_) (fun part others _ fits => ?_)
  · obtain ⟨part,others,fewer,fits,shorter⟩ := cut.uncons
    have bound := fewest.onward part others shorter fits
    omega
  · exact absurd (fits.joins counts refused) Bool.false_ne_true

end Fewest

theorem absorb_fewest (counts : ∀ line, counter.contains line = true → hw.actionOf line = some .process)
    {block : Block} {rest : List Step} {blocks : List Block}
    (absorbed : block.absorb hw counter rest = .ok blocks) :
    Fewest hw counter block rest blocks.length := by
  refine absorb_induction
    (motive := fun block rest blocks => Fewest hw counter block rest blocks.length) ?_ ?_ ?_ absorbed
  · exact fun block => ⟨fun parts _ => Nat.le_add_left _ _,fun _ others _ _ => Nat.le_add_left _ _⟩
  · exact fun block next rest blocks _ fewest => fewest.join
  · exact fun block next rest blocks refused fewest => fewest.keep counts refused

theorem Grown.oneCycle (counts : ∀ line, counter.contains line = true → hw.actionOf line = some .process)
    {block : Block} (grown : block.Grown hw counter)
    (sound : ∀ step ∈ block.steps, SingleWriter hw step.controls) :
    Step.OneCycle hw counter block.steps where
  staged step member other inside :=
    (grown.staged step member).trans (grown.staged other inside).symm
  ascends := (grown.ascends.sublist List.filter_sublist).isChain
  single := by
    intro step member other inside line raised also given bus writes shared
    have apart := StepCounter.not_contains_of_action counts writes (by simp)
    have aside := StepCounter.not_contains_of_action counts shared (by simp)
    have busy : step ∈ block.steps.filter (Step.busy counter) :=
      List.mem_filter.mpr ⟨member,Step.busy_iff.mpr ⟨line,raised,apart⟩⟩
    have active : other ∈ block.steps.filter (Step.busy counter) :=
      List.mem_filter.mpr ⟨inside,Step.busy_iff.mpr ⟨also,given,aside⟩⟩
    by_cases several : 2 ≤ block.steps.countP (Step.busy counter)
    · refine grown.single counts several line ?_ also ?_ bus writes shared
      · exact (mem_joined apart).mpr ⟨step,member,raised⟩
      · exact (mem_joined aside).mpr ⟨other,inside,given⟩
    · -- Only one step does something, and that one keeps to one writer.
      rw [List.countP_eq_length_filter] at several
      have some := List.length_pos_of_mem busy
      obtain ⟨only,alone⟩ := List.length_eq_one_iff.mp (Nat.le_antisymm (by omega) some)
      rw [alone,List.mem_singleton] at busy active
      rw [active,← busy] at given
      exact sound step member line raised also given bus writes shared

end Block

namespace Variant
variable {hw : Registry} {counter : StepCounter}

/-- Merging cuts a list of steps into as few parts as possible. -/
theorem mergedBlocks_least (counts : ∀ line, counter.contains line = true → hw.actionOf line = some .process)
    {steps : List Step} {blocks : List Block} (cut : mergedBlocks hw counter steps = .ok blocks)
    (sound : ∀ step ∈ steps, SingleWriter hw step.controls) :
    IsLeast {count | ∃ parts, Step.Cut hw counter steps parts ∧ parts.length = count} blocks.length := by
  have whole := mergedBlocks_steps cut
  constructor
  · refine ⟨blocks.map Block.steps,⟨?_,?_⟩,List.length_map _⟩
    · rw [← whole,List.flatMap_def]
    · rw [List.forall_mem_map]
      intro block among
      refine (mergedBlocks_grown cut block among).oneCycle counts fun step member => ?_
      exact sound step (whole ▸ List.mem_flatMap.mpr ⟨block,among,member⟩)
  · rintro _ ⟨parts,each,rfl⟩
    cases steps with
    | nil =>
      cases cut
      exact Nat.zero_le _
    | cons step rest =>
      obtain ⟨part,others,fewer,fits,shorter⟩ := each.uncons
      have bound := (Block.absorb_fewest counts cut).onward part others shorter fits
      omega

theorem mergedSteps_settled (counts : ∀ line, counter.contains line = true → hw.actionOf line = some .process)
    {steps merged : List Step} (joins : mergedSteps hw counter steps = .ok merged) :
    mergedSteps hw counter merged = .ok merged := by
  cases steps with
  | nil =>
    cases joins
    rfl
  | cons step rest =>
    have settled := (Step.absorb_settled counts joins).1
    cases merged with
    | nil => rfl
    | cons first others => exact settled.absorb

theorem merged_settled (counts : ∀ line, counter.contains line = true → hw.actionOf line = some .process)
    {variant joined : Variant} (merges : variant.merged hw counter = .ok joined) :
    joined.merged hw counter = .ok joined :=
  merged_of_steps (mergedSteps_settled counts (Program.merged_steps merges).2.2)

/-- Merging makes as few steps as can be made of those of a variant, and leaves alone what it
has made. -/
theorem merging_least (counts : ∀ line, counter.contains line = true → hw.actionOf line = some .process) :
    (∀ variant : Variant,
      (∀ step ∈ variant.steps, ∀ line ∈ step.controls, ∃ action, hw.actionOf line = some action) →
        ∃ joined, variant.merged hw counter = .ok joined) ∧
    (∀ variant joined : Variant, (∀ step ∈ variant.steps, SingleWriter hw step.controls) →
      variant.merged hw counter = .ok joined →
        IsLeast {count | ∃ parts, Step.Cut hw counter variant.steps parts ∧ parts.length = count}
          joined.steps.length) ∧
    (∀ variant joined : Variant, variant.merged hw counter = .ok joined →
      joined.merged hw counter = .ok joined) ∧
    ∀ program joined : Program, program.merged hw counter = .ok joined →
      joined.merged hw counter = .ok joined := by
  refine ⟨fun variant => merged_total,fun variant joined sound merges => ?_,
    fun variant joined => merged_settled counts,fun program joined merges => ?_⟩
  · obtain ⟨blocks,cut,made⟩ := mergedSteps_ok.mp (Program.merged_steps merges).2.2
    rw [← made,List.length_map]
    exact mergedBlocks_least counts cut sound
  · have each : ∀ variant ∈ joined.toList, variant.merged hw counter = .ok (id variant) := by
      intro variant member
      obtain ⟨plain,_,merges⟩ := (Program.mem_merged merges).mp member
      exact merged_settled counts merges
    unfold Program.merged
    rw [except_mapM_map each,List.map_id]
    exact congrArg Except.ok (SortedSet.insertAll_toList joined)

theorem countTwice_least : ∃ joined,
    countTwice.merged Layout.standard.hardware Layout.standard.controller.counter = .ok joined ∧
      IsLeast {count | ∃ parts, Step.Cut Layout.standard.hardware Layout.standard.controller.counter
        countTwice.steps parts ∧ parts.length = count} joined.steps.length ∧
      joined.merged Layout.standard.hardware Layout.standard.controller.counter = .ok joined := by
  have single : ∀ step ∈ countTwice.steps,
      (step.controls.toList.filterMap (Step.written? Layout.standard.hardware)).Nodup := by
    decide +kernel
  obtain ⟨total,least,again,_⟩ := merging_least Layout.standard_wired.counter_line
  obtain ⟨joined,merges⟩ := total countTwice countTwice_declared
  refine ⟨joined,merges,least countTwice joined (fun step member => ?_) merges,again _ _ merges⟩
  exact Step.nodup_written.mp (single step member)

end Variant
end Microprogram

import Mathlib.Data.List.Pairwise
import Microprogram.Microcode.Merging
import Microprogram.Microcode.Sequencing
import Microprogram.Proofs.Microcode.BusUse

/-! What merging keeps. A step that joins the one before it acts in later phases only,
so that a merged step still shares its buses, and the step counter is driven as before. -/
namespace Microprogram

namespace Phase

theorem earlier_rank (p q : Phase) : (p.earlier q).rank = min p.rank q.rank := by
  unfold earlier
  split <;> omega

theorem later_rank (p q : Phase) : (p.later q).rank = max p.rank q.rank := by
  unfold later
  split <;> omega

end Phase

theorem StepCounter.not_contains_of_action {hw : Registry} {counter : StepCounter}
    (counts : ∀ line, counter.contains line = true → hw.actionOf line = some .process)
    {line : ControlId} {action : ControlAction} (acts : hw.actionOf line = some action)
    (other : action ≠ .process) : counter.contains line = false := by
  rw [← Bool.not_eq_true]
  intro counted
  rw [counts line counted,Option.some.injEq] at acts
  exact other acts.symm

def SingleWriter (hw : Registry) (lines : ControlSet) : Prop :=
  ∀ line ∈ lines, ∀ other ∈ lines, ∀ bus, hw.actionOf line = some (.write bus) →
    hw.actionOf other = some (.write bus) → line = other

theorem SingleWriter.of_writes {hw : Registry} {lines others : ControlSet}
    (single : SingleWriter hw lines)
    (writers : ∀ line ∈ others, ∀ bus, hw.actionOf line = some (.write bus) → line ∈ lines) :
    SingleWriter hw others :=
  fun line member other inside bus writes also =>
    single line (writers line member bus writes) other (writers other inside bus also) bus writes also

namespace Step
variable {hw : Registry} {counter : StepCounter}

/-- Every line of the first set is acted on before every line of the second, those of
the step counter aside. -/
def Precedes (hw : Registry) (counter : StepCounter) (lines others : ControlSet) : Prop :=
  ∀ line ∈ lines, ∀ other ∈ others, counter.contains line = false → counter.contains other = false →
    ∀ p q, hw.phaseOf line = some p → hw.phaseOf other = some q → p.rank < q.rank

theorem phases_total {lines : List ControlId}
    (declared : ∀ line ∈ lines, ∃ action, hw.actionOf line = some action) :
    ∃ range, phases hw counter lines = .ok range := by
  induction lines with
  | nil => exact ⟨_,rfl⟩
  | cons line rest ih =>
    obtain ⟨⟨action,acts⟩,others⟩ := List.forall_mem_cons.mp declared
    obtain ⟨range,ranged⟩ := ih others
    obtain ⟨decl,found,_⟩ := (hw.actionOf_eq_some line action).mp acts
    unfold phases
    rw [ranged,Registry.stepControl_ok.mpr found]
    split
    · exact ⟨_,rfl⟩
    · cases range <;> exact ⟨_,rfl⟩

theorem phases_range {lines : List ControlId} {range : Option (Phase × Phase)}
    (ranged : phases hw counter lines = .ok range) :
    ∀ line ∈ lines, counter.contains line = false → ∀ p, hw.phaseOf line = some p →
      ∃ first last, range = some (first,last) ∧ first.rank ≤ p.rank ∧ p.rank ≤ last.rank := by
  induction lines generalizing range with
  | nil => simp
  | cons line rest ih =>
    unfold phases at ranged
    split at ranged
    next inside =>
      rintro other member apart
      rcases List.mem_cons.mp member with rfl | later
      · rw [inside] at apart
        contradiction
      · exact ih ranged other later apart
    next outside =>
      obtain ⟨decl,found,ranged⟩ := except_bind_ok.mp ranged
      obtain ⟨others,ranged,ended⟩ := except_bind_ok.mp ranged
      have acts := Registry.phaseOf_of_action
        (Registry.actionOf_of_declared (Registry.stepControl_ok.mp found))
      intro other member apart p phased
      rcases List.mem_cons.mp member with rfl | later
      · rw [acts,Option.some.injEq] at phased
        subst phased
        cases others with
        | none =>
          cases ended
          exact ⟨_,_,rfl,Nat.le_refl _,Nat.le_refl _⟩
        | some pair =>
          cases ended
          refine ⟨_,_,rfl,?_,?_⟩
          · rw [Phase.earlier_rank]; omega
          · rw [Phase.later_rank]; omega
      · obtain ⟨first,last,rfl,low,high⟩ := ih ranged other later apart p phased
        cases ended
        refine ⟨_,_,rfl,?_,?_⟩
        · rw [Phase.earlier_rank]; omega
        · rw [Phase.later_rank]; omega

theorem writesTwice_total {lines : List ControlId} (written : SortedSet BusId)
    (declared : ∀ line ∈ lines, ∃ action, hw.actionOf line = some action) :
    ∃ twice, writesTwice hw written lines = .ok twice := by
  induction lines generalizing written with
  | nil => exact ⟨_,rfl⟩
  | cons line rest ih =>
    obtain ⟨⟨action,acts⟩,others⟩ := List.forall_mem_cons.mp declared
    obtain ⟨decl,found,rfl⟩ := (hw.actionOf_eq_some line action).mp acts
    unfold writesTwice
    rw [Registry.stepControl_ok.mpr found,except_ok_bind]
    split
    · split
      · exact ⟨_,rfl⟩
      · exact ih _ others
    · exact ih _ others

theorem mergeable_total {step next : Step}
    (left : ∀ line ∈ step.controls, ∃ action, hw.actionOf line = some action)
    (right : ∀ line ∈ next.controls, ∃ action, hw.actionOf line = some action) :
    ∃ joins, mergeable hw counter step next = .ok joins := by
  obtain ⟨before,ranged⟩ := phases_total left
  obtain ⟨after,followed⟩ := phases_total right
  obtain ⟨twice,wrote⟩ := writesTwice_total
    ∅ (by
      intro line member
      rcases (SortedSet.mem_union _ _ _).mp member with inside | inside
      · exact left line inside
      · exact right line inside)
  unfold mergeable
  rw [ranged,followed,wrote]
  split
  · exact ⟨_,rfl⟩
  · rcases before with _ | ⟨_,last⟩ <;> rcases after with _ | ⟨first,_⟩
    · exact ⟨_,rfl⟩
    · exact ⟨_,rfl⟩
    · exact ⟨_,rfl⟩
    · change ∃ joins, (if first.rank ≤ last.rank then _ else _) = _
      split <;> exact ⟨_,rfl⟩

def busy (counter : StepCounter) (step : Step) : Bool :=
  step.controls.toList.any fun line => !counter.contains line

theorem busy_iff {step : Step} :
    step.busy counter = true ↔ ∃ line ∈ step.controls, counter.contains line = false := by
  simp [busy]

theorem phases_declared {lines : List ControlId} {range : Option (Phase × Phase)}
    (ranged : phases hw counter lines = .ok range) :
    ∀ line ∈ lines, counter.contains line = false → ∃ action, hw.actionOf line = some action := by
  induction lines generalizing range with
  | nil => simp
  | cons line rest ih =>
    unfold phases at ranged
    split at ranged
    next inside =>
      refine List.forall_mem_cons.mpr ⟨fun apart => ?_,ih ranged⟩
      rw [inside] at apart
      contradiction
    next outside =>
      obtain ⟨decl,found,ranged⟩ := except_bind_ok.mp ranged
      obtain ⟨others,ranged,_⟩ := except_bind_ok.mp ranged
      refine List.forall_mem_cons.mpr ⟨fun _ => ?_,ih ranged⟩
      exact ⟨_,Registry.actionOf_of_declared (Registry.stepControl_ok.mp found)⟩

theorem phases_attained {lines : List ControlId} {first last : Phase}
    (ranged : phases hw counter lines = .ok (some (first,last))) :
    ∀ phase ∈ [first,last], ∃ line ∈ lines, counter.contains line = false ∧
      hw.phaseOf line = some phase := by
  induction lines generalizing first last with
  | nil => cases ranged
  | cons line rest ih =>
    unfold phases at ranged
    split at ranged
    next inside =>
      intro phase bound
      obtain ⟨other,later,found⟩ := ih ranged phase bound
      exact ⟨other,List.mem_cons_of_mem _ later,found⟩
    next outside =>
      obtain ⟨decl,found,remains⟩ := except_bind_ok.mp ranged
      obtain ⟨others,followed,ended⟩ := except_bind_ok.mp remains
      have here : ∃ other ∈ line :: rest, counter.contains other = false ∧
          hw.phaseOf other = some decl.action.phase :=
        ⟨line,List.mem_cons_self,eq_false_of_ne_true outside,Registry.phaseOf_of_action
          (Registry.actionOf_of_declared (Registry.stepControl_ok.mp found))⟩
      cases others with
      | none =>
        cases ended
        simpa using here
      | some pair =>
        cases ended
        have later : ∀ phase ∈ [pair.1,pair.2], ∃ other ∈ line :: rest,
            counter.contains other = false ∧ hw.phaseOf other = some phase := by
          intro phase bound
          obtain ⟨other,member,found⟩ := ih followed phase bound
          exact ⟨other,List.mem_cons_of_mem _ member,found⟩
        simp only [List.forall_mem_cons,List.not_mem_nil,false_implies,implies_true,and_true] at later ⊢
        unfold Phase.earlier Phase.later
        constructor
        · split
          · exact here
          · exact later.1
        · split
          · exact later.2
          · exact here

theorem writesTwice_ok {written : SortedSet BusId} {lines : List ControlId} {twice : Bool}
    (wrote : writesTwice hw written lines = .ok twice) :
    twice = false ↔ (lines.filterMap (written? hw)).Nodup ∧
      ∀ bus ∈ lines.filterMap (written? hw), bus ∉ written := by
  induction lines generalizing written with
  | nil =>
    cases wrote
    simp
  | cons line rest ih =>
    obtain ⟨decl,found,wrote⟩ := except_bind_ok.mp wrote
    have acts := Registry.actionOf_of_declared (Registry.stepControl_ok.mp found)
    split at wrote
    next bus writes =>
      rw [writes] at acts
      rw [List.filterMap_cons_some (written?_eq_some.mpr acts),List.nodup_cons,List.forall_mem_cons,
        ← SortedSet.contains_eq_false]
      split at wrote
      next known =>
        cases wrote
        simp [known]
      next fresh =>
        rw [ih wrote,eq_false_of_ne_true fresh]
        simp only [SortedSet.mem_insert,not_or]
        grind
    next other =>
      have none : written? hw line = none := by
        rw [Option.eq_none_iff_forall_ne_some]
        intro bus writes
        rw [written?_eq_some,acts,Option.some.injEq] at writes
        exact other bus writes
      rw [List.filterMap_cons_none none]
      exact ih wrote

theorem nodup_written {lines : ControlSet} :
    (lines.toList.filterMap (written? hw)).Nodup ↔ SingleWriter hw lines := by
  unfold List.Nodup
  rw [List.pairwise_filterMap]
  simp only [written?_eq_some]
  constructor
  · intro apart line member other inside bus writes also
    by_contra different
    have symmetric : Std.Symm fun left right : ControlId => ∀ bus,
        hw.actionOf left = some (.write bus) → ∀ shared,
          hw.actionOf right = some (.write shared) → bus ≠ shared :=
      ⟨fun left right separate bus writes shared also =>
        (separate shared also bus writes).symm⟩
    exact apart.forall member inside different bus writes bus also rfl
  · intro single
    refine List.Pairwise.imp_of_mem ?_ lines.nodup
    rintro line other member inside different bus writes _ also rfl
    exact different (single line member other inside bus writes also)

/-- Two steps join exactly if they are of one stage, the first acts before the second, and
together they write no bus twice, which is looked at only where both do something. -/
theorem mergeable_iff {step next : Step} {joins : Bool}
    (checked : mergeable hw counter step next = .ok joins) :
    joins = true ↔ step.stage = next.stage ∧ Precedes hw counter step.controls next.controls ∧
      (step.busy counter = true → next.busy counter = true →
        SingleWriter hw (step.controls.union next.controls)) := by
  unfold mergeable at checked
  split at checked
  next apart =>
    cases checked
    simp [apart]
  next staged =>
    obtain ⟨before,ranged,checked⟩ := except_bind_ok.mp checked
    obtain ⟨after,followed,checked⟩ := except_bind_ok.mp checked
    have same : step.stage = next.stage := Decidable.of_not_not staged
    -- Where one of the steps does nothing, no line of it has a phase to compare.
    have idle {step : Step} (none : phases hw counter step.controls.toList = .ok none) :
        step.busy counter = false := by
      rw [← Bool.not_eq_true,busy_iff]
      rintro ⟨line,member,apart⟩
      obtain ⟨action,acts⟩ := phases_declared none line member apart
      obtain ⟨first,last,ended,_⟩ := phases_range none line member apart _
        (Registry.phaseOf_of_action acts)
      cases ended
    rcases before with _ | ⟨_,last⟩
    · cases checked
      have none := idle ranged
      refine iff_of_true rfl ⟨same,?_,fun some => by simp [none] at some⟩
      intro line member _ _ apart
      exact absurd (busy_iff.mpr ⟨line,member,apart⟩) (by simp [none])
    · rcases after with _ | ⟨first,_⟩
      · cases checked
        have none := idle followed
        refine iff_of_true rfl ⟨same,?_,fun _ some => by simp [none] at some⟩
        intro _ _ other inside _ apart
        exact absurd (busy_iff.mpr ⟨other,inside,apart⟩) (by simp [none])
      · obtain ⟨late,among,apart,phased⟩ := phases_attained ranged last (by simp)
        obtain ⟨early,within,aside,also⟩ := phases_attained followed first (by simp)
        change (if first.rank ≤ last.rank then _ else _) = _ at checked
        split at checked
        next overlap =>
          cases checked
          refine iff_of_false Bool.false_ne_true ?_
          rintro ⟨_,before,_⟩
          have strict := before late among early within apart aside _ _ phased also
          omega
        next strict =>
          obtain ⟨twice,wrote,ended⟩ := except_bind_ok.mp checked
          cases ended
          have once := writesTwice_ok wrote
          simp only [SortedSet.not_mem_empty,not_false_eq_true,implies_true,and_true,
            nodup_written] at once
          rw [Bool.not_eq_true',once]
          constructor
          · intro single
            refine ⟨same,?_,fun _ _ => single⟩
            intro line member other inside aloof aside p q phased also
            obtain ⟨_,_,bounded,_,high⟩ := phases_range ranged line member aloof p phased
            obtain ⟨_,_,within,low,_⟩ := phases_range followed other inside aside q also
            cases bounded
            cases within
            omega
          · rintro ⟨_,_,single⟩
            exact single (busy_iff.mpr ⟨late,among,apart⟩) (busy_iff.mpr ⟨early,within,aside⟩)

theorem mergeable_precedes {step next : Step} (joins : mergeable hw counter step next = .ok true) :
    step.stage = next.stage ∧ Precedes hw counter step.controls next.controls := by
  obtain ⟨staged,before,_⟩ := (mergeable_iff joins).mp rfl
  exact ⟨staged,before⟩

theorem mem_merge (step next : Step) (line : ControlId) :
    line ∈ (step.merge counter next).controls ↔
      line ∈ step.controls ∧ line ≠ counter.increment ∨ line ∈ next.controls := by
  simp only [merge,union,withoutControl,SortedSet.mem_union,SortedSet.mem_erase]

theorem mem_merge_of_not_contains {step next : Step} {line : ControlId}
    (apart : counter.contains line = false) :
    line ∈ (step.merge counter next).controls ↔ line ∈ step.controls ∨ line ∈ next.controls := by
  have other : line ≠ counter.increment := by
    rintro rfl
    simp [StepCounter.contains] at apart
  simp [mem_merge,other]

/-- Of two steps that act one after the other, the later one uses no bus or the earlier
one does nothing but drive the step counter. -/
theorem Precedes.buses {lines others : ControlSet} (before : Precedes hw counter lines others)
    (counts : ∀ line, counter.contains line = true → hw.actionOf line = some .process)
    (sound : BusSound hw lines) :
    (∀ other ∈ others, ∀ bus, ¬(hw.actionOf other = some (.write bus) ∨
      hw.actionOf other = some (.read bus))) ∨ ∀ line ∈ lines, counter.contains line = true := by
  refine or_iff_not_imp_left.mpr ?_
  intro uses
  simp only [not_forall,not_not] at uses
  obtain ⟨other,inside,bus,uses⟩ := uses
  have aside : counter.contains other = false := by
    rcases uses with writes | reads
    · exact StepCounter.not_contains_of_action counts writes (by simp)
    · exact StepCounter.not_contains_of_action counts reads (by simp)
  -- The later step acts by the read phase, so the earlier one can only write, but a
  -- step that writes a bus also reads it.
  obtain ⟨q,also,low⟩ : ∃ q, hw.phaseOf other = some q ∧ q.rank ≤ 2 := by
    rcases uses with writes | reads
    · exact ⟨.write,Registry.phaseOf_of_action writes,by decide⟩
    · exact ⟨.read,Registry.phaseOf_of_action reads,by decide⟩
  intro line member
  rw [← Bool.not_eq_false]
  intro apart
  obtain ⟨action,acts⟩ := sound.declared line member
  have strict := before line member other inside apart aside _ _
    (Registry.phaseOf_of_action acts) also
  cases action with
  | write shared =>
    obtain ⟨reader,read,reads⟩ := sound.taken line member shared acts
    have apart := StepCounter.not_contains_of_action counts reads (by simp)
    have strict := before reader read other inside apart aside _ _
      (Registry.phaseOf_of_action reads) also
    change 2 < q.rank at strict
    omega
  | read shared =>
    change 2 < q.rank at strict
    omega
  | process =>
    change 3 < q.rank at strict
    omega
  | clear =>
    change 4 < q.rank at strict
    omega

section Merging
variable (counts : ∀ line, counter.contains line = true → hw.actionOf line = some .process)
include counts

theorem merge_sound {step next : Step} (left : BusSound hw step.controls)
    (right : BusSound hw next.controls) (joins : mergeable hw counter step next = .ok true) :
    BusSound hw (step.merge counter next).controls := by
  have declared : ∀ line ∈ (step.merge counter next).controls,
      ∃ action, hw.actionOf line = some action := by
    intro line member
    rcases (mem_merge step next line).mp member with ⟨inside,_⟩ | inside
    · exact left.declared line inside
    · exact right.declared line inside
  have increments : hw.actionOf counter.increment = some .process :=
    counts counter.increment (by simp [StepCounter.contains])
  rcases (mergeable_precedes joins).2.buses counts left with apart | idle
  · refine left.of_same declared fun line bus uses => ?_
    rw [mem_merge]
    constructor
    · rintro (⟨inside,_⟩ | inside)
      · exact inside
      · exact absurd uses (apart line inside bus)
    · intro inside
      refine .inl ⟨inside,?_⟩
      rintro rfl
      simp [increments] at uses
  · refine right.of_same declared fun line bus uses => ?_
    rw [mem_merge]
    constructor
    · rintro (⟨inside,_⟩ | inside)
      · simp [counts line (idle line inside)] at uses
      · exact inside
    · exact .inr

end Merging

/-- Follows absorption step by step: the next step joins, or it stands for itself. -/
theorem absorb_induction {motive : Step → List Step → List Step → Prop}
    (last : ∀ current, motive current [] [current])
    (join : ∀ current next rest merged, mergeable hw counter current next = .ok true →
      motive (current.merge counter next) rest merged → motive current (next :: rest) merged)
    (keep : ∀ current next rest merged, mergeable hw counter current next = .ok false →
      motive next rest merged → motive current (next :: rest) (current :: merged))
    {current : Step} {rest merged : List Step}
    (absorbed : current.absorb hw counter rest = .ok merged) : motive current rest merged := by
  induction rest generalizing current merged with
  | nil =>
    cases absorbed
    exact last current
  | cons next rest ih =>
    obtain ⟨joins,checked,absorbed⟩ := except_bind_ok.mp absorbed
    cases joins with
    | true => exact join current next rest merged checked (ih absorbed)
    | false =>
      rw [if_neg Bool.false_ne_true] at absorbed
      obtain ⟨others,later,ended⟩ := except_bind_ok.mp absorbed
      cases ended
      exact keep current next rest others checked (ih later)

theorem absorb_forall {kept : Step → Prop}
    (joins : ∀ step next, mergeable hw counter step next = .ok true → kept step → kept next →
      kept (step.merge counter next))
    {current : Step} {rest merged : List Step}
    (absorbed : current.absorb hw counter rest = .ok merged)
    (start : ∀ step ∈ current :: rest, kept step) : ∀ step ∈ merged, kept step := by
  refine absorb_induction
    (motive := fun current rest merged => (∀ step ∈ current :: rest, kept step) → ∀ step ∈ merged, kept step)
    ?_ ?_ ?_ absorbed start
  · exact fun current start => start
  · intro current next rest merged checked ih start
    obtain ⟨first,second,others⟩ := by simpa only [List.forall_mem_cons] using start
    exact ih (List.forall_mem_cons.mpr ⟨joins current next checked first second,others⟩)
  · intro current next rest merged checked ih start
    obtain ⟨first,others⟩ := List.forall_mem_cons.mp start
    exact List.forall_mem_cons.mpr ⟨first,ih others⟩

theorem absorb_total {current : Step} {rest : List Step}
    (declared : ∀ step ∈ current :: rest, ∀ line ∈ step.controls, ∃ action, hw.actionOf line = some action) :
    ∃ merged, current.absorb hw counter rest = .ok merged := by
  induction rest generalizing current with
  | nil => exact ⟨_,rfl⟩
  | cons next rest ih =>
    obtain ⟨first,second,others⟩ := by simpa only [List.forall_mem_cons] using declared
    obtain ⟨joins,checked⟩ := mergeable_total first second
    unfold absorb
    rw [checked,except_ok_bind]
    split
    · refine ih (List.forall_mem_cons.mpr ⟨?_,others⟩)
      intro line member
      rcases (mem_merge current next line).mp member with ⟨inside,_⟩ | inside
      · exact first line inside
      · exact second line inside
    · obtain ⟨merged,absorbed⟩ := ih (List.forall_mem_cons.mpr ⟨second,others⟩)
      rw [absorbed]
      exact ⟨_,rfl⟩

end Step

namespace Variant
variable {hw : Registry} {counter : StepCounter}

theorem mergedSteps_total {steps : List Step}
    (declared : ∀ step ∈ steps, ∀ line ∈ step.controls, ∃ action, hw.actionOf line = some action) :
    ∃ merged, mergedSteps hw counter steps = .ok merged := by
  cases steps with
  | nil => exact ⟨_,rfl⟩
  | cons step rest => exact Step.absorb_total declared

theorem merged_of_steps {variant : Variant} {steps : List Step}
    (joins : mergedSteps hw counter variant.steps = .ok steps) :
    variant.merged hw counter = .ok { variant with steps } := by
  unfold merged
  rw [joins]
  rfl

theorem merged_total {variant : Variant}
    (declared : ∀ step ∈ variant.steps, ∀ line ∈ step.controls, ∃ action,
      hw.actionOf line = some action) : ∃ joined, variant.merged hw counter = .ok joined := by
  obtain ⟨steps,joins⟩ : ∃ steps, mergedSteps hw counter variant.steps = .ok steps :=
    mergedSteps_total declared
  exact ⟨_,merged_of_steps joins⟩

theorem mergedSteps_forall {kept : Step → Prop}
    (joins : ∀ step next, Step.mergeable hw counter step next = .ok true → kept step → kept next →
      kept (step.merge counter next))
    {steps merged : List Step} (joined : mergedSteps hw counter steps = .ok merged)
    (start : ∀ step ∈ steps, kept step) : ∀ step ∈ merged, kept step := by
  cases steps with
  | nil => cases joined; exact start
  | cons step rest => exact Step.absorb_forall joins joined start

section Counting
variable (counts : ∀ line, counter.contains line = true → hw.actionOf line = some .process)
include counts

theorem mergedSteps_sound {steps merged : List Step}
    (joined : mergedSteps hw counter steps = .ok merged)
    (sound : ∀ step ∈ steps, BusSound hw step.controls) :
    ∀ step ∈ merged, BusSound hw step.controls :=
  mergedSteps_forall
    (fun _ _ joins left right => Step.merge_sound counts left right joins) joined sound

theorem sequencedSteps_sound {steps : List Step} (sound : ∀ step ∈ steps, BusSound hw step.controls) :
    ∀ step ∈ sequencedSteps counter steps, BusSound hw step.controls := by
  have reset : hw.actionOf counter.reset = some .process :=
    counts _ (by simp [StepCounter.contains])
  have increment : hw.actionOf counter.increment = some .process :=
    counts _ (by simp [StepCounter.contains])
  induction steps with
  | nil => exact sound
  | cons step rest ih =>
    obtain ⟨first,others⟩ := List.forall_mem_cons.mp sound
    cases rest with
    | nil => exact List.forall_mem_singleton.mpr (first.insert reset)
    | cons next later => exact List.forall_mem_cons.mpr ⟨first.insert increment,ih others⟩

end Counting
end Variant
end Microprogram

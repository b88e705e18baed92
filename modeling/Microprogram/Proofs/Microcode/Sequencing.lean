import Microprogram.Proofs.Microcode.Blocks

/-! Steps that the step counter goes through one after the other. Merging keeps them in
sequence and makes them no more than they were. -/
namespace Microprogram

theorem Step.contains_iff (step : Step) (line : ControlId) :
    step.contains line = true ↔ line ∈ step.controls := SortedSet.contains_iff _ _

namespace Variant
variable {hw : Registry} {counter : StepCounter}

/-- Every step but the last counts up, and the last goes back to the first. -/
def InSequence (counter : StepCounter) : List Step → Prop
  | [] => False
  | [last] => counter.reset ∈ last.controls ∧ counter.increment ∉ last.controls
  | step :: rest =>
    (counter.increment ∈ step.controls ∧ counter.reset ∉ step.controls) ∧ InSequence counter rest

theorem InSequence.not_nil {steps : List Step} (ordered : InSequence counter steps) : steps ≠ [] := by
  rintro rfl
  exact ordered

theorem inSequence_cons {step : Step} {rest : List Step} (more : rest ≠ []) :
    InSequence counter (step :: rest) ↔
      (counter.increment ∈ step.controls ∧ counter.reset ∉ step.controls) ∧
        InSequence counter rest := by
  cases rest with
  | nil => exact absurd rfl more
  | cons next later => exact .rfl

theorem InSequence.append {steps rest : List Step} (ordered : InSequence counter (steps ++ rest))
    (more : rest ≠ []) : InSequence counter rest := by
  induction steps with
  | nil => exact ordered
  | cons step steps ih => exact ih ((inSequence_cons (by simp [more])).mp ordered).2

theorem InSequence.counts {steps : List Step} (ordered : InSequence counter steps) {place : Nat}
    {step : Step} (found : steps[place]? = some step) (more : place + 1 < steps.length) :
    counter.increment ∈ step.controls ∧ counter.reset ∉ step.controls := by
  induction steps generalizing place with
  | nil => exact ordered.elim
  | cons first rest ih =>
    have others : rest ≠ [] := by
      rintro rfl
      simp at more
    obtain ⟨counts,later⟩ := (inSequence_cons others).mp ordered
    cases place with
    | zero =>
      cases found
      exact counts
    | succ place => exact ih later found (Nat.lt_of_succ_lt_succ more)

theorem InSequence.resets {steps : List Step} (ordered : InSequence counter steps) {place : Nat}
    {step : Step} (found : steps[place]? = some step) (last : place + 1 = steps.length) :
    counter.reset ∈ step.controls ∧ counter.increment ∉ step.controls := by
  induction steps generalizing place with
  | nil => exact ordered.elim
  | cons first rest ih =>
    cases rest with
    | nil =>
      obtain rfl : place = 0 := by simpa using last
      cases found
      exact ordered
    | cons next later =>
      cases place with
      | zero => simp at last
      | succ place =>
        exact ih ((inSequence_cons (by simp)).mp ordered).2 found (Nat.succ.inj last)

theorem checkSteps_ok {label : String} {place : Nat} {steps : List Step} :
    checkSteps counter label place steps = .ok () ↔ InSequence counter steps := by
  induction steps generalizing place with
  | nil => simp [checkSteps,InSequence]
  | cons step rest ih =>
    cases rest with
    | nil =>
      simp only [checkSteps,InSequence,← Step.contains_iff]
      cases step.contains counter.reset <;> cases step.contains counter.increment <;> simp
    | cons next later =>
      rw [checkSteps,inSequence_cons (by simp),← @ih (place + 1)]
      · simp only [← Step.contains_iff]
        cases step.contains counter.reset <;> cases step.contains counter.increment <;> simp
      · simp

theorem InSequence.counts_dropLast {steps : List Step} (ordered : InSequence counter steps) :
    ∀ step ∈ steps.dropLast, counter.increment ∈ step.controls ∧ counter.reset ∉ step.controls := by
  intro step member
  obtain ⟨place,found⟩ := List.mem_iff_getElem?.mp member
  rw [List.getElem?_dropLast] at found
  split at found
  next early => exact ordered.counts found (by omega)
  next late => cases found

theorem InSequence.merge {current next : Step} {rest : List Step}
    (ordered : InSequence counter (current :: next :: rest)) :
    InSequence counter (current.merge counter next :: rest) := by
  obtain ⟨⟨_,stays⟩,later⟩ := (inSequence_cons (by simp)).mp ordered
  cases rest with
  | nil =>
    refine ⟨(Step.mem_merge _ _ _).mpr (.inr later.1),?_⟩
    rw [Step.mem_merge]
    rintro (⟨_,other⟩ | inside)
    · exact other rfl
    · exact later.2 inside
  | cons following others =>
    obtain ⟨⟨counts,remains⟩,later⟩ := (inSequence_cons (by simp)).mp later
    refine (inSequence_cons (by simp)).mpr ⟨⟨(Step.mem_merge _ _ _).mpr (.inr counts),?_⟩,later⟩
    rw [Step.mem_merge]
    rintro (⟨inside,_⟩ | inside)
    · exact stays inside
    · exact remains inside

theorem mergedSteps_inSequence {steps merged : List Step}
    (joined : mergedSteps hw counter steps = .ok merged) (ordered : InSequence counter steps) :
    InSequence counter merged := by
  cases steps with
  | nil => exact ordered.elim
  | cons step rest =>
    refine Step.absorb_induction (motive := fun current rest merged =>
      InSequence counter (current :: rest) → InSequence counter merged) ?_ ?_ ?_ joined ordered
    · exact fun current ordered => ordered
    · exact fun current next rest merged _ ih ordered => ih ordered.merge
    · intro current next rest merged _ ih ordered
      obtain ⟨first,later⟩ := (inSequence_cons (by simp)).mp ordered
      exact (inSequence_cons (ih later).not_nil).mpr ⟨first,ih later⟩

theorem mergedSteps_length {steps merged : List Step}
    (joined : mergedSteps hw counter steps = .ok merged) : merged.length ≤ steps.length := by
  cases steps with
  | nil =>
    cases joined
    exact Nat.le_refl _
  | cons step rest =>
    refine Step.absorb_induction
      (motive := fun current rest merged => merged.length ≤ (current :: rest).length)
      ?_ ?_ ?_ joined
    · exact fun current => Nat.le_refl _
    · intro current next rest merged _ ih
      exact Nat.le_succ_of_le ih
    · intro current next rest merged _ ih
      exact Nat.succ_le_succ ih

theorem mergedSteps_append {front rest : List Step} (some : front ≠ [])
    (apart : ∀ step ∈ front, ∀ next ∈ rest.head?, step.stage ≠ next.stage) :
    mergedSteps hw counter (front ++ rest) = do
      return (← mergedSteps hw counter front) ++ (← mergedSteps hw counter rest) := by
  rw [mergedSteps_eq,mergedSteps_eq,mergedSteps_eq,mergedBlocks_append some apart]
  cases mergedBlocks hw counter front with
  | error rejection => rfl
  | ok before =>
    cases mergedBlocks hw counter rest with
    | error rejection => rfl
    | ok after => exact congrArg Except.ok List.map_append

theorem mergedSteps_not_nil {steps merged : List Step} (more : steps ≠ [])
    (joined : mergedSteps hw counter steps = .ok merged) : merged ≠ [] := by
  cases steps with
  | nil => exact absurd rfl more
  | cons step rest =>
    refine Step.absorb_induction (motive := fun _ _ merged => merged ≠ []) ?_ ?_ ?_ joined
    · exact fun current => List.cons_ne_nil current []
    · exact fun _ _ _ _ _ ih => ih
    · exact fun current _ _ merged _ _ => List.cons_ne_nil current merged

theorem mem_withControl (step : Step) (control line : ControlId) :
    line ∈ (step.withControl control).controls ↔ line = control ∨ line ∈ step.controls :=
  SortedSet.mem_insert _ _ _

theorem sequencedSteps_cons (step : Step) {rest : List Step} (more : rest ≠ []) :
    sequencedSteps counter (step :: rest) =
      step.withControl counter.increment :: sequencedSteps counter rest := by
  cases rest with
  | nil => exact absurd rfl more
  | cons next later => rfl

theorem sequencedSteps_append (front : List Step) {rest : List Step} (more : rest ≠ []) :
    sequencedSteps counter (front ++ rest) =
      front.map (Step.withControl · counter.increment) ++ sequencedSteps counter rest := by
  induction front with
  | nil => rfl
  | cons step front ih =>
    rw [List.cons_append,sequencedSteps_cons step (by simp [more]),ih,List.map_cons,List.cons_append]

theorem sequencedSteps_not_nil {steps : List Step} (more : steps ≠ []) :
    sequencedSteps counter steps ≠ [] := by
  cases steps with
  | nil => exact absurd rfl more
  | cons step rest => cases rest <;> simp [sequencedSteps]

theorem sequencedSteps_map {α : Type} {view : Step → α}
    (same : ∀ step line, counter.contains line = true → view (step.withControl line) = view step)
    (steps : List Step) : (sequencedSteps counter steps).map view = steps.map view := by
  have reset (step : Step) : view (step.withControl counter.reset) = view step :=
    same step _ (by simp [StepCounter.contains])
  have increment (step : Step) : view (step.withControl counter.increment) = view step :=
    same step _ (by simp [StepCounter.contains])
  induction steps with
  | nil => rfl
  | cons step rest ih =>
    cases rest with
    | nil => exact congrArg (fun shown => [shown]) (reset step)
    | cons next later => exact congrArg₂ List.cons (increment step) ih

theorem sequencedSteps_stage (steps : List Step) :
    (sequencedSteps counter steps).map Step.stage = steps.map Step.stage :=
  sequencedSteps_map (fun _ _ _ => rfl) steps

theorem sequencedSteps_length (steps : List Step) :
    (sequencedSteps counter steps).length = steps.length := by
  simpa using congrArg List.length (sequencedSteps_stage steps)

theorem mem_sequencedSteps {steps : List Step} {ordered : Step}
    (member : ordered ∈ sequencedSteps counter steps) :
    (∃ step ∈ steps.dropLast, ordered = step.withControl counter.increment) ∨
      ∃ step ∈ steps, ordered = step.withControl counter.reset := by
  induction steps with
  | nil => contradiction
  | cons step rest ih =>
    cases rest with
    | nil => exact .inr ⟨step,List.mem_cons_self,List.mem_singleton.mp member⟩
    | cons next later =>
      rcases List.mem_cons.mp member with rfl | inside
      · exact .inl ⟨step,List.mem_cons_self,rfl⟩
      · rcases ih inside with ⟨first,found,same⟩ | ⟨last,found,same⟩
        · exact .inl ⟨first,List.mem_cons_of_mem _ found,same⟩
        · exact .inr ⟨last,List.mem_cons_of_mem _ found,same⟩

end Variant
end Microprogram

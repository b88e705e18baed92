import Microprogram.Proofs.Computer.Phases
import Microprogram.Proofs.Computer.Tick
import Microprogram.Proofs.Microcode.Merging

/-! Control sets replayed one in each cycle. Steps that are merged replay as they do
one after the other, because a step that joins another acts in later phases only. -/
namespace Microprogram

/-- The fault without the cycle in which it struck. -/
def Fault.timeless : Fault → Fault
  | crashed _ => crashed 0
  | fault => fault

theorem except_mapError_bind {ε δ α β : Type} (f : ε → δ) (first : Except ε α) (next : α → Except ε β) :
    (first >>= next).mapError f = first.mapError f >>= fun a => (next a).mapError f := by
  cases first <;> rfl

namespace Contents
variable {hw : Layout}

theorem cycle_timeless (number other : Nat) (lines : Asserted) (s : Contents) :
    (s.cycle hw number lines).mapError Fault.timeless =
      (s.cycle hw other lines).mapError Fault.timeless := by
  unfold cycle
  simp only [except_mapError_bind]
  refine bind_congr fun driven => bind_congr fun t => ?_
  congr 1
  unfold process
  split <;> rfl

/-- Where the later set acts in a phase, the earlier set is done with it. -/
private theorem silent_before {lines others : ControlSet} {phase later : Phase}
    (before : Step.Precedes hw.hardware hw.controller.counter lines others)
    (acts : ¬hw.SilentIn later others) (reached : later.rank ≤ phase.rank) :
    hw.SilentIn phase lines := by
  simp only [Layout.SilentIn,not_forall,not_not] at acts
  obtain ⟨other,inside,aside,also⟩ := acts
  intro line member apart phased
  have strict := before line member other inside apart aside _ _ phased also
  omega

private theorem silent_busless {lines : ControlSet} (apart : ∀ line ∈ lines, ∀ bus,
    ¬(hw.hardware.actionOf line = some (.write bus) ∨ hw.hardware.actionOf line = some (.read bus))) :
    hw.SilentIn .write lines ∧ hw.SilentIn .read lines := by
  constructor
  · intro line inside _ phased
    obtain ⟨action,acts,phase⟩ := Option.map_eq_some_iff.mp phased
    cases action with
    | write bus => exact apart line inside bus (.inl acts)
    | _ => cases phase
  · intro line inside _ phased
    obtain ⟨action,acts,phase⟩ := Option.map_eq_some_iff.mp phased
    cases action with
    | read bus => exact apart line inside bus (.inr acts)
    | _ => cases phase

theorem cycle_congr (wired : hw.Wired) {lines others : ControlSet}
    (same : ∀ phase, hw.SameIn phase lines others) (number : Nat) (s : Contents) :
    s.cycle hw number lines = s.cycle hw number others := by
  unfold cycle
  rw [drive_congr wired (same _)]
  refine bind_congr fun driven => ?_
  rw [load_congr wired (same _)]
  refine bind_congr fun t => ?_
  rw [process_congr wired (same _)]
  refine bind_congr fun u => ?_
  rw [settle_congr wired (same _)]

theorem cycle_silent (wired : hw.Wired) {lines : ControlSet}
    (silent : ∀ phase, hw.SilentIn phase lines) (number : Nat) (s : Contents) :
    s.cycle hw number lines = .ok s := by
  unfold cycle
  rw [drive_silent wired (silent _),except_ok_bind,load_silent wired (silent _),except_ok_bind,
    process_silent wired (silent _),except_ok_bind,settle_silent wired (silent _)]
  rfl

/-- A cycle with the lines of two sets, of which one acts after the other, is two cycles. -/
theorem cycle_union (wired : hw.Wired) {lines others both : ControlSet}
    (before : Step.Precedes hw.hardware hw.controller.counter lines others)
    (sound : BusSound hw.hardware lines)
    (joined : ∀ line, hw.controller.counter.contains line = false →
      (line ∈ both ↔ line ∈ lines ∨ line ∈ others))
    (number : Nat) (s : Contents) :
    s.cycle hw number both = s.cycle hw number lines >>= fun t => t.cycle hw number others := by
  have first {phase : Phase} (silent : hw.SilentIn phase others) : hw.SameIn phase both lines := by
    intro line apart phased
    rw [joined line apart,or_iff_left_iff_imp]
    intro inside
    exact absurd phased (silent line inside apart)
  have second {phase : Phase} (silent : hw.SilentIn phase lines) : hw.SameIn phase both others := by
    intro line apart phased
    rw [joined line apart,or_iff_right_iff_imp]
    intro inside
    exact absurd phased (silent line inside apart)
  rcases before.buses wired.counter_line sound with apart | idle
  · -- The later set uses no bus, so both cycles share the write and read phases of the first.
    obtain ⟨noWrite,noRead⟩ := silent_busless apart
    have later : s.cycle hw number lines >>= (fun t => t.cycle hw number others) = do
        let driven ← s.drive hw lines
        let t ← s.load hw lines driven
        let t ← t.process hw number lines
        let t ← (t.settle hw lines).process hw number others
        return t.settle hw others := by
      unfold cycle
      simp only [bind_assoc,pure_bind,drive_silent wired noWrite,load_silent wired noRead,
        except_ok_bind]
    rw [later]
    unfold cycle
    rw [drive_congr wired (first noWrite)]
    refine bind_congr fun driven => ?_
    rw [load_congr wired (first noRead)]
    refine bind_congr fun t => ?_
    by_cases noProcess : hw.SilentIn .process others
    · simp only [process_congr wired (first noProcess),process_silent wired noProcess,except_ok_bind]
      refine bind_congr fun u => congrArg Except.ok ?_
      by_cases noClear : hw.SilentIn .clear others
      · rw [settle_silent wired noClear,settle_congr wired (first noClear)]
      · have done := silent_before before noClear (Nat.le_refl _)
        rw [settle_silent wired done,settle_congr wired (second done)]
    · have processed : hw.SilentIn .process lines := silent_before before noProcess (Nat.le_refl _)
      have cleared : hw.SilentIn .clear lines := silent_before before noProcess (by decide)
      simp only [process_silent wired processed,except_ok_bind,settle_silent wired cleared,
        process_congr wired (second processed)]
      refine bind_congr fun u => congrArg Except.ok ?_
      rw [settle_congr wired (second cleared)]
  · -- The earlier set only drives the step counter.
    have silent (phase : Phase) : hw.SilentIn phase lines := by
      intro line inside apart
      rw [idle line inside] at apart
      cases apart
    rw [cycle_silent wired silent,except_ok_bind]
    exact cycle_congr wired (fun phase => second (silent phase)) number s

theorem cycle_counterless (wired : hw.Wired) {lines others : ControlSet}
    (same : ∀ line, hw.controller.counter.contains line = false → (line ∈ lines ↔ line ∈ others))
    (number : Nat) (s : Contents) : s.cycle hw number lines = s.cycle hw number others :=
  cycle_congr wired (fun _ line apart _ => same line apart) number s

/-- The contents after control sets asserted one in each cycle. -/
def play (hw : Layout) (sets : List ControlSet) (s : Contents) : Except Fault Contents :=
  sets.foldlM (fun s lines => (s.cycle hw 0 lines).mapError Fault.timeless) s

theorem play_cons (lines : ControlSet) (rest : List ControlSet) (s : Contents) :
    s.play hw (lines :: rest) = (s.cycle hw 0 lines).mapError Fault.timeless >>= play hw rest :=
  List.foldlM_cons

theorem play_append (sets rest : List ControlSet) (s : Contents) :
    s.play hw (sets ++ rest) = s.play hw sets >>= play hw rest := List.foldlM_append

theorem play_merge (wired : hw.Wired) {step next : Step} (sound : BusSound hw.hardware step.controls)
    (joins : Step.mergeable hw.hardware hw.controller.counter step next = .ok true)
    (rest : List ControlSet) (s : Contents) :
    s.play hw ((step.merge hw.controller.counter next).controls :: rest) =
      s.play hw (step.controls :: next.controls :: rest) := by
  have joined : ∀ line, hw.controller.counter.contains line = false →
      (line ∈ (step.merge hw.controller.counter next).controls ↔
        line ∈ step.controls ∨ line ∈ next.controls) := by
    intro line apart
    rw [Step.mem_merge]
    have other : line ≠ hw.controller.counter.increment := by
      rintro rfl
      simp [StepCounter.contains] at apart
    simp [other]
  rw [play_cons,cycle_union wired (Step.mergeable_precedes joins).2 sound joined,except_mapError_bind,
    bind_assoc]
  rfl

theorem play_absorb (wired : hw.Wired) {current : Step} {rest merged : List Step}
    (absorbed : current.absorb hw.hardware hw.controller.counter rest = .ok merged)
    (sound : ∀ step ∈ current :: rest, BusSound hw.hardware step.controls) (s : Contents) :
    s.play hw (merged.map Step.controls) = s.play hw ((current :: rest).map Step.controls) := by
  refine Step.absorb_induction (motive := fun current rest merged =>
    (∀ step ∈ current :: rest, BusSound hw.hardware step.controls) → ∀ s,
      play hw (merged.map Step.controls) s = play hw ((current :: rest).map Step.controls) s)
    ?_ ?_ ?_ absorbed sound s
  · exact fun current sound s => rfl
  · intro current next rest merged joins ih sound s
    obtain ⟨first,second,others⟩ := by simpa only [List.forall_mem_cons] using sound
    have both := Step.merge_sound wired.counter_line first second joins
    rw [ih (List.forall_mem_cons.mpr ⟨both,others⟩)]
    exact play_merge wired first joins _ s
  · intro current next rest merged stays ih sound s
    rw [List.map_cons,List.map_cons,play_cons,play_cons]
    exact bind_congr (ih (List.forall_mem_cons.mp sound).2)

end Contents

namespace Variant
variable {hw : Layout}

theorem play_mergedSteps (wired : hw.Wired) {steps merged : List Step}
    (joined : mergedSteps hw.hardware hw.controller.counter steps = .ok merged)
    (sound : ∀ step ∈ steps, BusSound hw.hardware step.controls) (s : Contents) :
    s.play hw (merged.map Step.controls) = s.play hw (steps.map Step.controls) := by
  cases steps with
  | nil => cases joined; rfl
  | cons step rest => exact Contents.play_absorb wired joined sound s

end Variant
end Microprogram

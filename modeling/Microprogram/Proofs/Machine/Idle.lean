import Microprogram.Proofs.Machine.Order
import Microprogram.Proofs.Part.Idle
import Microprogram.Proofs.Part.Turns

/-! Parts that are idle for a whole tick. A part none of whose lines is asserted after the
control phase stays as it was, drives no bus, and keeps its status lines, whatever the other
parts do. -/
namespace Microprogram

namespace Part

theorem resting_checkpoint (part : Part) : part.checkpoint.1.resting = part.resting := by
  cases part <;> rfl

theorem resting_commit (part : Part) : part.commit.resting = part.resting := by
  cases part <;> rfl

section Resting
variable {part other : Part} (same : part.resting = other.resting)
include same

theorem controls_of_resting : part.controls = other.controls := by
  have kept (part : Part) : part.resting.controls = part.controls := by
    cases part <;> rfl
  rw [← kept part,same,kept other]

theorem statuses_of_resting : part.statuses = other.statuses := by
  have kept (part : Part) : part.resting.statuses = part.statuses := by
    cases part <;> rfl
  rw [← kept part,same,kept other]

end Resting

end Part

namespace Machine

theorem owned_of_accepted {hw : Registry} {parts : List Part} {config : Config} {halted : StatusId}
    {start : Machine} (accepted : assemble hw parts config halted = .ok start) : Owned hw parts := by
  unfold assemble at accepted
  obtain ⟨_,_,accepted⟩ := except_bind_ok.mp accepted
  obtain ⟨_,_,accepted⟩ := except_bind_ok.mp accepted
  obtain ⟨_,verified,_⟩ := except_bind_ok.mp accepted
  exact verifyTopology_ok.mp (except_mapError_ok.mp verified)

section Phases
variable {hw : Registry} {phase : Phase} {cycle : Nat} {parts after : List Part} {signals left : Signals}
  (owned : Owned hw parts) (settled : signals.staged = [])
  (ran : (runPhase hw cycle phase (parts,signals)).result = .ok (after,left))
include owned ran

theorem runPhase_within : Owned hw after ∧ left.staged = [] ∧
    (phase ≠ .control → ∀ control ∈ left.asserted, control ∈ signals.asserted) := by
  rw [runPhase,Outcome.result_map,except_map_ok] at ran
  obtain ⟨⟨acted,shown⟩,reacted,ended⟩ := ran
  cases ended
  obtain ⟨same,within⟩ := Part.reactAll_within owned.declared reacted
  exact ⟨owned.of_lines same,rfl,within.asserted⟩

include settled

theorem runPhase_turn {place : Nat} {part : Part} (stands : parts[place]? = some part)
    (idle : phase ≠ .control → Idle signals.asserted part.controls) :
    ∃ next found passed, Part.Turn hw phase cycle parts signals place part next found passed ∧
      passed.driven = found.driven ∧ after[place]? = some next ∧ next.resting = part.resting ∧
        ∀ status ∈ part.statuses, status ∈ left.statuses ↔ status ∈ signals.statuses := by
  rw [runPhase,Outcome.result_map,except_map_ok] at ran
  obtain ⟨⟨acted,shown⟩,reacted,ended⟩ := ran
  cases ended
  obtain ⟨next,found,passed,turn,placed,front,behind⟩ := Part.reactAll_turn owned.declared reacted stands
  obtain ⟨rests,raised,rfl⟩ := Part.act_rests (fun later line member raised =>
    idle later line member (front.asserted later line raised)) turn.acts
  refine ⟨next,found,_,turn,rfl,placed,rests,fun status member => ?_⟩
  obtain ⟨earlier,first,ours⟩ := front.staged
  obtain ⟨later,second,theirs⟩ := behind.staged
  have staged : shown.staged = earlier ++ later := by
    rw [second,first,settled,List.nil_append]
  have statuses : shown.statuses = signals.statuses := behind.statuses.trans front.statuses
  obtain ⟨ahead,back⟩ := owned.alone stands (Part.status_mem_lines.mpr member)
  change status ∈ postAll shown.staged shown.statuses ↔ _
  rw [staged,statuses]
  refine mem_postAll_apart (fun write posted same => ?_) _
  subst same
  rcases List.mem_append.mp posted with inside | inside
  · exact ahead (ours write inside)
  · exact back (theirs write inside)

end Phases

def opening (m : Machine) : List Part × Signals := (m.parts.map fun part => part.checkpoint.1,m.signals)

/-- The controls that are asserted after the control phase. -/
def raised (m : Machine) : Except Fault Asserted :=
  (runPhase m.hardware m.cycle .control m.opening).result.map fun state => state.2.asserted

/-- The turn of the part at a place in a phase of the tick. -/
def Turn (m : Machine) (phase : Phase) (place : Nat) (part next : Part) (found left : Signals) : Prop :=
  ∃ before after parts signals, Phase.all = before ++ phase :: after ∧
    Outcome.each (runPhase m.hardware m.cycle) before m.opening = .done (parts,signals) ∧
    Part.Turn m.hardware phase m.cycle parts signals place part next found left

/-- Between two phases parts that are idle are as they were when the tick began. -/
structure Steady (hw : Registry) (asserted : Asserted) (start now : List Part × Signals) : Prop where
  owned : Owned hw now.1
  settled : now.2.staged = []
  rests (place : Nat) (part : Part) : start.1[place]? = some part → Idle asserted part.controls →
    ∃ after, now.1[place]? = some after ∧ after.resting = part.resting
  statuses (place : Nat) (part : Part) : start.1[place]? = some part → Idle asserted part.controls →
    ∀ status ∈ part.statuses, status ∈ now.2.statuses ↔ status ∈ start.2.statuses

namespace Steady
variable {hw : Registry} {asserted : Asserted} {cycle : Nat} {start now next : List Part × Signals}

theorem step {phase : Phase} (steady : Steady hw asserted start now)
    (calm : phase ≠ .control → ∀ control ∈ now.2.asserted, control ∈ asserted)
    (ran : (runPhase hw cycle phase now).result = .ok next) : Steady hw asserted start next := by
  obtain ⟨owned,settled,_⟩ := runPhase_within steady.owned ran
  have turns {place : Nat} {part : Part} (given : start.1[place]? = some part)
      (idle : Idle asserted part.controls) : (∃ after, next.1[place]? = some after ∧ after.resting = part.resting) ∧
      ∀ status ∈ part.statuses, status ∈ next.2.statuses ↔ status ∈ start.2.statuses := by
    obtain ⟨acting,stands,same⟩ := steady.rests place part given idle
    have controls := Part.controls_of_resting same
    have statuses := Part.statuses_of_resting same
    obtain ⟨after,_,_,_,_,placed,rests,kept⟩ := runPhase_turn steady.owned steady.settled ran stands
      fun later line member raised => idle line (controls ▸ member) (calm later line raised)
    refine ⟨⟨after,placed,rests.trans same⟩,fun status member => ?_⟩
    rw [kept status (statuses ▸ member)]
    exact steady.statuses place part given idle status member
  exact ⟨owned,settled,fun place part given idle => (turns given idle).1,
    fun place part given idle => (turns given idle).2⟩

theorem run {phases : List Phase} (later : .control ∉ phases) (steady : Steady hw asserted start now)
    (calm : ∀ control ∈ now.2.asserted, control ∈ asserted)
    (ran : (Outcome.each (runPhase hw cycle) phases now).result = .ok next) :
    Steady hw asserted start next ∧ ∀ control ∈ next.2.asserted, control ∈ asserted := by
  induction phases generalizing now with
  | nil =>
    cases ran
    exact ⟨steady,calm⟩
  | cons phase rest ih =>
    rw [List.mem_cons,not_or] at later
    rw [Outcome.result_each,List.foldlM_cons,except_bind_ok] at ran
    obtain ⟨middle,first,others⟩ := ran
    rw [← Outcome.result_each] at others
    obtain ⟨_,_,lowers⟩ := runPhase_within steady.owned first
    exact ih later.2 (steady.step (fun _ => calm) first)
      (fun control raised => calm control (lowers (Ne.symm later.1) control raised)) others

end Steady

section Ticking
variable {m : Machine} {asserted : Asserted} (owned : Owned m.hardware m.parts)
  (settled : m.signals.staged = []) (raises : m.raised = .ok asserted)
include owned settled

theorem opening_steady : Steady m.hardware asserted m.opening m.opening := by
  have same : m.opening.1.map Part.lines = m.parts.map Part.lines := by
    rw [opening,List.map_map]
    exact List.map_congr_left fun part _ => congrArg Prod.fst part.checkpoint_wiring
  exact ⟨owned.of_lines same,settled,fun _ part given _ => ⟨part,given,rfl⟩,fun _ _ _ _ _ _ => .rfl⟩

include raises

theorem steady_between {before rest : List Phase} (order : Phase.all = before ++ rest)
    {now : List Part × Signals}
    (ran : (Outcome.each (runPhase m.hardware m.cycle) before m.opening).result = .ok now) :
    Steady m.hardware asserted m.opening now ∧
      (before ≠ [] → ∀ control ∈ now.2.asserted, control ∈ asserted) := by
  have start := @opening_steady m asserted owned settled
  cases before with
  | nil =>
    cases ran
    exact ⟨start,fun other => absurd rfl other⟩
  | cons first others =>
    obtain rfl := (List.cons.inj order).1
    have later : .control ∉ others := by
      intro member
      have listed : .control ∈ Phase.all.tail := by
        rw [order]
        exact List.mem_append_left rest member
      exact absurd listed (by decide)
    rw [Outcome.result_each,List.foldlM_cons,except_bind_ok] at ran
    obtain ⟨middle,control,ran⟩ := ran
    rw [← Outcome.result_each] at ran
    obtain ⟨state,again,rfl⟩ := except_map_ok.mp raises
    obtain rfl := Except.ok.inj (control.symm.trans again)
    obtain ⟨steady,calm⟩ := (start.step (fun other => absurd rfl other) control).run later
      (fun _ member => member) ran
    exact ⟨steady,fun _ => calm⟩

theorem turn_of_idle {last : List Part × Signals}
    (ran : (Outcome.each (runPhase m.hardware m.cycle) Phase.all m.opening).result = .ok last)
    {place : Nat} {part : Part} (stands : m.opening.1[place]? = some part)
    (idle : Idle asserted part.controls) (phase : Phase) :
    ∃ acting next found left, m.Turn phase place acting next found left ∧ left.driven = found.driven := by
  obtain ⟨before,after,order⟩ := List.append_of_mem (by cases phase <;> decide : phase ∈ Phase.all)
  rw [order,Outcome.result_each,List.foldlM_append,except_bind_ok] at ran
  obtain ⟨⟨parts,signals⟩,reaches,ran⟩ := ran
  rw [List.foldlM_cons,except_bind_ok] at ran
  obtain ⟨next,runs,_⟩ := ran
  rw [← Outcome.result_each] at reaches
  obtain ⟨steady,calm⟩ := steady_between owned settled raises order reaches
  obtain ⟨acting,acts,same⟩ := steady.rests place part stands idle
  have controls := Part.controls_of_resting same
  have begun (later : phase ≠ .control) : before ≠ [] := by
    rintro rfl
    exact later (List.cons.inj order).1.symm
  obtain ⟨after,found,left,turn,driven,_⟩ := runPhase_turn steady.owned steady.settled runs acts
    fun later line member raised => idle line (controls ▸ member) (calm (begun later) line raised)
  exact ⟨acting,after,found,left,⟨before,_,parts,signals,order,Outcome.result_eq_ok.mp reaches,turn⟩,driven⟩

end Ticking

/-- A part of accepted parts none of whose controls is asserted after the control phase of a
tick ends the tick in the state it had, writes no bus in any of its turns, and leaves its
status lines as they were. -/
theorem idle_stays {m start reached : Machine}
    (accepted : assemble m.hardware m.parts m.config m.halted = .ok start)
    (settled : m.signals.staged = []) (done : m.tick = .done reached) :
    ∃ asserted, m.raised = .ok asserted ∧ ∀ place part, m.parts[place]? = some part →
      (∀ control ∈ part.controls, control ∉ asserted) →
      (∃ after, reached.parts[place]? = some after ∧ after.resting = part.resting) ∧
      (∀ phase, ∃ acting next found left, m.Turn phase place acting next found left ∧
        left.driven = found.driven) ∧
      ∀ status ∈ part.statuses, status ∈ reached.signals.statuses ↔ status ∈ m.signals.statuses := by
  have owned := owned_of_accepted accepted
  cases ran : (runPhases m.hardware m.cycle m.opening).result with
  | error fault =>
    rw [m.tick_of_error ran] at done
    cases done
  | ok last =>
    rw [m.tick_of_ok ran] at done
    cases done
    have phases := ran
    rw [runPhases,Phase.all,Outcome.result_each,List.foldlM_cons,except_bind_ok] at phases
    obtain ⟨state,control,_⟩ := phases
    have raises : m.raised = .ok state.2.asserted := except_map_ok.mpr ⟨state,control,rfl⟩
    refine ⟨state.2.asserted,raises,fun place part stands idle => ?_⟩
    have opens : m.opening.1[place]? = some part.checkpoint.1 := by
      rw [opening,List.getElem?_map,stands]
      rfl
    have rests : Idle state.2.asserted part.checkpoint.1.controls := by
      rw [Part.controls_of_resting part.resting_checkpoint]
      exact idle
    obtain ⟨steady,_⟩ := steady_between owned settled raises (List.append_nil _).symm ran
    refine ⟨?_,turn_of_idle owned settled raises ran opens rests,fun status member => ?_⟩
    · obtain ⟨after,placed,same⟩ := steady.rests place _ opens rests
      refine ⟨after.commit,?_,?_⟩
      · rw [List.getElem?_map,placed]
        rfl
      · rw [Part.resting_commit,same,part.resting_checkpoint]
    · refine steady.statuses place _ opens rests status ?_
      rwa [Part.statuses_of_resting part.resting_checkpoint]

/-- In a cycle that only stores, the root and the controller are idle. -/
theorem storing_idle : ∃ reached, storing.tick = .done reached ∧
    storing.raised = .ok (.ofList [⟨2⟩,⟨5⟩]) ∧ ∀ place < 2, ∃ part, storing.parts[place]? = some part ∧
      (∀ control ∈ part.controls, control ∉ (SortedSet.ofList [⟨2⟩,⟨5⟩] : Asserted)) ∧
      (∃ after, reached.parts[place]? = some after ∧ after.resting = part.resting) ∧
      (∀ phase, ∃ acting next found left, storing.Turn phase place acting next found left ∧
        left.driven = found.driven) ∧
      ∀ status ∈ part.statuses, status ∈ reached.signals.statuses ↔ status ∈ storing.signals.statuses := by
  obtain ⟨reached,done⟩ : ∃ reached, storing.tick = .done reached := ⟨_,rfl⟩
  obtain ⟨asserted,raises,stays⟩ := idle_stays storing_accepted rfl done
  have stored : storing.raised = .ok (.ofList [⟨2⟩,⟨5⟩]) := rfl
  obtain rfl := Except.ok.inj (stored.symm.trans raises)
  have idle : ∀ place < 2, ∃ part ∈ storing.parts[place]?,
      ∀ control ∈ part.controls, control ∉ (SortedSet.ofList [⟨2⟩,⟨5⟩] : Asserted) := by
    simp only [← SortedSet.contains_eq_false]
    decide +kernel
  refine ⟨reached,done,raises,fun place listed => ?_⟩
  obtain ⟨part,stands,apart⟩ := idle place listed
  exact ⟨part,stands,apart,stays place part stands apart⟩

end Machine
end Microprogram

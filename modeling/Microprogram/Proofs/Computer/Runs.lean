import Microprogram.Proofs.Computer.Observe
import Microprogram.Proofs.Computer.Replay

/-! Runs of a computer follow the moments it passes through. A run of a script replays
its control sets. -/
namespace Microprogram

def Computer.ticks (n : Nat) (c : Computer) : Outcome Computer :=
  (c.machine.tickMany n 0).2.map fun machine => { c with machine }

namespace Moment
variable {hw : Layout}

def run (hw : Layout) : Nat → Moment → Except Fault Moment
  | 0, m => .ok m
  | n + 1, m => m.next hw >>= run hw n

theorem run_succ (n : Nat) (m : Moment) : m.run hw (n + 1) = m.run hw n >>= next hw := by
  induction n generalizing m with
  | zero => exact bind_pure _
  | succ n ih =>
    rw [run,run,bind_assoc]
    exact bind_congr fun after => ih after

theorem tickMany_machine (wired : hw.Wired) (config : Config) (saved : UInt16) (n count : Nat) (m : Moment) :
    match m.run hw n with
    | .ok last => ∃ after, ((m.machine hw config saved).tickMany n count).2 =
        .done (last.machine hw config after)
    | .error fault => ∃ last, ((m.machine hw config saved).tickMany n count).2 =
        .stopped fault last := by
  induction n generalizing m saved count with
  | zero => exact ⟨saved,rfl⟩
  | succ n ih =>
    have ticked := m.tick_machine wired config saved
    unfold run Machine.tickMany
    cases reached : m.next hw with
    | error fault =>
      rw [reached] at ticked
      exact ⟨_,by rw [ticked]⟩
    | ok after =>
      rw [reached] at ticked
      rw [ticked]
      exact ih m.contents.address (count + 1) after

theorem ticks_computer (wired : hw.Wired) (config : Config) (saved : UInt16) (n : Nat) (m : Moment) :
    match m.run hw n with
    | .ok last => ∃ after, (m.computer hw config saved).ticks n = .done (last.computer hw config after)
    | .error fault => ∃ last, (m.computer hw config saved).ticks n = .stopped fault last := by
  have ran := m.tickMany_machine wired config saved n 0
  unfold Computer.ticks computer
  cases reached : m.run hw n with
  | error fault =>
    rw [reached] at ran
    obtain ⟨last,stopped⟩ := ran
    exact ⟨_,by rw [stopped]; rfl⟩
  | ok last =>
    rw [reached] at ran
    obtain ⟨after,done⟩ := ran
    exact ⟨after,by rw [done]; rfl⟩

theorem run_script {sets : List ControlSet}
    (declared : ∀ lines ∈ sets, ∀ line ∈ lines, line.index < hw.hardware.controls.size)
    (number : Nat) (s : Contents) :
    (run hw sets.length ⟨.byScript sets,number,s⟩).mapError Fault.timeless =
      s.play hw sets >>= fun t => pure ⟨.byScript [],number + sets.length,t⟩ := by
  induction sets generalizing number s with
  | nil => rfl
  | cons lines rest ih =>
    obtain ⟨first,others⟩ := List.forall_mem_cons.mp declared
    rw [List.length_cons,run,next_of_choice rfl first,Contents.play_cons,bind_assoc,
      bind_assoc,except_mapError_bind,Contents.cycle_timeless number 0]
    refine bind_congr fun t => ?_
    rw [pure_bind,Nat.add_comm rest.length 1,← Nat.add_assoc]
    exact ih others (number + 1) t

theorem ticks_script (wired : hw.Wired) {sets : List ControlSet}
    (declared : ∀ lines ∈ sets, ∀ line ∈ lines, line.index < hw.hardware.controls.size)
    (config : Config) (saved : UInt16) (number : Nat) (s : Contents) :
    match s.play hw sets with
    | .ok t => ∃ last, (computer hw config saved ⟨.byScript sets,number,s⟩).ticks sets.length =
        .done last ∧ last.contents? = some t
    | .error fault => ∃ also last, (computer hw config saved ⟨.byScript sets,number,s⟩).ticks sets.length =
        .stopped also last ∧ also.timeless = fault := by
  have replayed := run_script declared number s
  have ticked := ticks_computer wired config saved sets.length ⟨.byScript sets,number,s⟩
  cases ran : run hw sets.length ⟨.byScript sets,number,s⟩ with
  | error fault =>
    rw [ran] at replayed ticked
    obtain ⟨last,stopped⟩ := ticked
    cases played : s.play hw sets with
    | error other =>
      rw [played] at replayed
      cases replayed
      exact ⟨fault,last,stopped,rfl⟩
    | ok t =>
      rw [played] at replayed
      cases replayed
  | ok moment =>
    rw [ran] at replayed ticked
    obtain ⟨after,done⟩ := ticked
    cases played : s.play hw sets with
    | error other =>
      rw [played] at replayed
      cases replayed
    | ok t =>
      rw [played] at replayed
      cases replayed
      exact ⟨_,done,contents_computer wired config after _⟩

/-- Two scripts that come to the same from the same contents. Where every cycle of the
first succeeds, so does every cycle of the second and the contents are equal; where the
first stops with a fault, the second stops with the same fault. -/
def ReplayAlike (hw : Layout) (config : Config) (saved : UInt16) (number : Nat) (s : Contents)
    (sets others : List ControlSet) : Prop :=
  let start (sets : List ControlSet) : Computer := computer hw config saved ⟨.byScript sets,number,s⟩
  (∀ last, (start sets).ticks sets.length = .done last →
    ∃ other t, (start others).ticks others.length = .done other ∧
      last.contents? = some t ∧ other.contents? = some t) ∧
  ∀ fault last, (start sets).ticks sets.length = .stopped fault last →
    ∃ also other, (start others).ticks others.length = .stopped also other ∧
      also.timeless = fault.timeless

theorem replayAlike_of_play (wired : hw.Wired) {sets others : List ControlSet}
    (declared : ∀ lines ∈ sets, ∀ line ∈ lines, line.index < hw.hardware.controls.size)
    (known : ∀ lines ∈ others, ∀ line ∈ lines, line.index < hw.hardware.controls.size)
    {s : Contents} (same : s.play hw others = s.play hw sets) (config : Config) (saved : UInt16)
    (number : Nat) : ReplayAlike hw config saved number s sets others := by
  have first := ticks_script wired declared config saved number s
  have second := ticks_script wired known config saved number s
  rw [same] at second
  unfold ReplayAlike
  dsimp only
  cases played : s.play hw sets with
  | ok t =>
    rw [played] at first second
    obtain ⟨last,done,view⟩ := first
    obtain ⟨other,finished,also⟩ := second
    refine ⟨?_,?_⟩
    · intro reached ended
      obtain rfl := Outcome.done.inj (done.symm.trans ended)
      exact ⟨other,t,finished,view,also⟩
    · intro fault reached stopped
      cases done.symm.trans stopped
  | error fault =>
    rw [played] at first second
    obtain ⟨cause,last,stopped,timeless⟩ := first
    obtain ⟨effect,other,failed,also⟩ := second
    refine ⟨?_,?_⟩
    · intro reached done
      cases stopped.symm.trans done
    · intro reason reached ended
      obtain ⟨rfl,rfl⟩ := Outcome.stopped.inj (stopped.symm.trans ended)
      exact ⟨effect,other,failed,also.trans timeless.symm⟩

end Moment

namespace Variant

/-- Merging the steps of a variant keeps what they do when they are replayed on the
computer, from whatever contents. -/
theorem merging_keeps_replay {hw : Layout} (built : Layout.build = .ok hw) (variant : Variant)
    (checked : ∀ pair ∈ variant.steps.zipIdx,
      pair.1.checkBuses hw.hardware variant.label pair.2 = .ok ())
    (config : Config) (number : Nat) (saved : UInt16) (s : Contents) :
    ∃ merged, (variant.sequenced hw.controller.counter).merged hw.hardware hw.controller.counter =
        .ok merged ∧
      Moment.ReplayAlike hw config saved number s
        ((variant.sequenced hw.controller.counter).steps.map Step.controls)
        (merged.steps.map Step.controls) := by
  have wired := Layout.build_wired built
  have sound : ∀ step ∈ variant.steps, BusSound hw.hardware step.controls := by
    intro step member
    obtain ⟨place,found⟩ := List.mem_iff_getElem?.mp member
    exact Step.checkBuses_sound (checked (step,place) (List.mk_mem_zipIdx_iff_getElem?.mpr found))
  have sequenced := sequencedSteps_sound wired.counter_line sound
  obtain ⟨steps,joined⟩ := mergedSteps_total
    fun step member => (sequenced step member).declared
  have merged := mergedSteps_sound wired.counter_line joined sequenced
  have declared {steps : List Step} (sound : ∀ step ∈ steps, BusSound hw.hardware step.controls) :
      ∀ lines ∈ steps.map Step.controls, ∀ line ∈ lines, line.index < hw.hardware.controls.size := by
    intro lines member line inside
    obtain ⟨step,listed,rfl⟩ := List.mem_map.mp member
    obtain ⟨action,acts⟩ := (sound step listed).declared line inside
    exact Registry.control_declared acts
  refine ⟨⟨variant.descriptor,variant.guard,steps⟩,?_,?_⟩
  · unfold Variant.merged
    rw [show (variant.sequenced hw.controller.counter).steps = sequencedSteps hw.controller.counter
      variant.steps from rfl,joined]
    rfl
  · exact Moment.replayAlike_of_play wired (declared sequenced) (declared merged)
      (play_mergedSteps wired joined sequenced s) config saved number

/-- A transfer of A to X and a count of X, which merging joins into one step. -/
def transferCount : Variant :=
  ⟨⟨0x20,"tax",.none,"Transfer A to X"⟩,∅,
    [.ofLists 0 [Layout.standard.a.tap.write,Layout.standard.x.tap.read] [Layout.standard.dataBus],
      .ofLists 0 Layout.standard.x.increment.toList []]⟩

/-- The transfer and the count replay alike in one cycle and in two. -/
theorem transferCount_replays : ∃ merged,
    (transferCount.sequenced Layout.standard.controller.counter).merged Layout.standard.hardware
      Layout.standard.controller.counter = .ok merged ∧
    Moment.ReplayAlike Layout.standard {} 0 0
      ⟨0,7,0,0,0,0,0,0,0x8000,0,0,[],∅⟩
      ((transferCount.sequenced Layout.standard.controller.counter).steps.map Step.controls)
      (merged.steps.map Step.controls) :=
  merging_keeps_replay Layout.build_eq transferCount (by decide +kernel) {} 0 0 _

end Variant
end Microprogram

import Microprogram.Proofs.Computer.Runs

/-! Runs of a table that are known in advance. While a table follows a list of control
sets, its computer replays them, whether it is run for some cycles or until it halts. -/
namespace Microprogram

def Layout.stepAfter (hw : Layout) (lines : Asserted) (step : UInt8) : UInt8 :=
  if lines.contains hw.controller.counter.reset then 0
  else if lines.contains hw.controller.counter.increment then step + 1
  else step

theorem Layout.stepAfter_counts {hw : Layout} {lines : ControlSet}
    (counts : hw.controller.counter.increment ∈ lines)
    (stays : hw.controller.counter.reset ∉ lines) (step : UInt8) : hw.stepAfter lines step = step + 1 := by
  unfold stepAfter
  rw [if_neg fun reset => stays ((SortedSet.contains_iff _ _).mp reset),
    if_pos ((SortedSet.contains_iff _ _).mpr counts)]

/-- From a step on, the table asserts the given sets one in each cycle. The computer has
not halted before any of them, the step counter is at zero only before the first, and
the last leads to where `ends` says. -/
def Follows (hw : Layout) (table : ControlTable) (ends : UInt8 → Contents → Prop) :
    List ControlSet → UInt8 → Contents → Prop
  | [], step, s => ends step s
  | lines :: rest, step, s =>
    (Driver.byTable table step).choose s.opcode s.lines = .ok lines ∧
      (∀ line ∈ lines, line.index < hw.hardware.controls.size) ∧ hw.root.halted ∉ s.lines ∧
        ∀ number t, s.cycle hw number lines = .ok t →
          (rest ≠ [] → hw.stepAfter lines step ≠ 0) ∧
            Follows hw table ends rest (hw.stepAfter lines step) t

namespace Contents
variable {hw : Layout} {lines : ControlSet} {s : Contents}

theorem cycle_number {number : Nat} {t : Contents} (done : s.cycle hw number lines = .ok t) (other : Nat) :
    s.cycle hw other lines = .ok t := by
  have same : (s.cycle hw number lines).mapError Fault.timeless = _ :=
    s.cycle_timeless number other lines
  rw [done] at same
  exact except_mapError_ok.mp same.symm

theorem play_cons_ok {number : Nat} {t : Contents} (done : s.cycle hw number lines = .ok t)
    (rest : List ControlSet) : s.play hw (lines :: rest) = t.play hw rest := by
  rw [play_cons,cycle_number done 0]
  rfl

theorem play_cons_error {number : Nat} {fault : Fault}
    (failed : s.cycle hw number lines = .error fault) (rest : List ControlSet) :
    s.play hw (lines :: rest) = .error fault.timeless := by
  rw [play_cons,cycle_timeless 0 number,failed]
  rfl

theorem play_append_error {sets rest : List ControlSet} {fault : Fault}
    (failed : s.play hw sets = .error fault) : s.play hw (sets ++ rest) = .error fault := by
  rw [play_append,failed]
  rfl

theorem play_take {sets : List ControlSet} {fault : Fault} {n more : Nat} (longer : n ≤ more)
    (failed : s.play hw (sets.take n) = .error fault) : s.play hw (sets.take more) = .error fault := by
  have split : sets.take more = sets.take n ++ (sets.drop n).take (more - n) := by
    rw [← List.take_add,Nat.add_sub_cancel' longer]
  rw [split]
  exact play_append_error failed

theorem play_absorb_prompt (wired : hw.Wired) {current : Step} {rest merged : List Step}
    (absorbed : current.absorb hw.hardware hw.controller.counter rest = .ok merged)
    (sound : ∀ step ∈ current :: rest, BusSound hw.hardware step.controls) (s : Contents) (n : Nat)
    {fault : Fault} (failed : s.play hw (((current :: rest).map Step.controls).take n) = .error fault) :
    s.play hw ((merged.map Step.controls).take n) = .error fault := by
  refine Step.absorb_induction (motive := fun current rest merged =>
    (∀ step ∈ current :: rest, BusSound hw.hardware step.controls) → ∀ n s,
      play hw (((current :: rest).map Step.controls).take n) s = .error fault →
        play hw ((merged.map Step.controls).take n) s = .error fault)
    ?_ ?_ ?_ absorbed sound n s failed
  · exact fun current sound n s failed => failed
  · intro current next rest merged joins ih sound n s failed
    obtain ⟨first,second,others⟩ := by simpa only [List.forall_mem_cons] using sound
    have both := Step.merge_sound wired.counter_line first second joins
    have merges := play_merge wired first joins
    match n with
    | 0 => cases failed
    | 1 =>
      refine ih (List.forall_mem_cons.mpr ⟨both,others⟩) 1 s ?_
      exact (merges [] s).trans (play_append_error failed)
    | n + 2 =>
      refine play_take (Nat.le_succ (n + 1)) ?_
      refine ih (List.forall_mem_cons.mpr ⟨both,others⟩) (n + 1) s ?_
      exact (merges ((rest.map Step.controls).take n) s).trans failed
  · intro current next rest merged stays ih sound n s failed
    cases n with
    | zero => cases failed
    | succ n =>
      rw [List.map_cons,List.take_succ_cons] at failed ⊢
      cases cycled : s.cycle hw 0 current.controls with
      | error first =>
        rw [play_cons_error cycled] at failed ⊢
        exact failed
      | ok t =>
        rw [play_cons_ok cycled] at failed ⊢
        exact ih (List.forall_mem_cons.mp sound).2 n t failed

end Contents

theorem Variant.play_mergedSteps_prompt {hw : Layout} (wired : hw.Wired) {steps merged : List Step}
    (joined : mergedSteps hw.hardware hw.controller.counter steps = .ok merged)
    (sound : ∀ step ∈ steps, BusSound hw.hardware step.controls) (s : Contents) (n : Nat)
    {fault : Fault} (failed : s.play hw ((steps.map Step.controls).take n) = .error fault) :
    s.play hw ((merged.map Step.controls).take n) = .error fault := by
  cases steps with
  | nil =>
    cases joined
    exact failed
  | cons step rest => exact Contents.play_absorb_prompt wired joined sound s n failed

namespace Moment
variable {hw : Layout}

/-- The moment at which a run until halt ends, for at most a number of cycles. -/
def runFor (hw : Layout) (limit : Nat) : Nat → Moment → Except Fault Moment
  | 0, m => if m.contents.lines.contains hw.root.halted then .ok m else .error (.cycleLimitExceeded limit)
  | n + 1, m =>
    if m.contents.lines.contains hw.root.halted then .ok m else m.next hw >>= runFor hw limit n

theorem runFor_halted {m : Moment} (halted : hw.root.halted ∈ m.contents.lines) (limit fuel : Nat) :
    m.runFor hw limit fuel = .ok m := by
  have stopped := (SortedSet.contains_iff _ _).mpr halted
  cases fuel with
  | zero => exact if_pos stopped
  | succ fuel => exact if_pos stopped

theorem runFor_machine (wired : hw.Wired) (config : Config) (saved : UInt16) (n : Nat) (m : Moment) :
    match m.runFor hw config.maxCycles n with
    | .ok last => ∃ after, (m.machine hw config saved).runFor n = .done (last.machine hw config after)
    | .error fault => ∃ last, (m.machine hw config saved).runFor n = .stopped fault last := by
  have halted : (m.machine hw config saved).isHalted = m.contents.lines.contains hw.root.halted := rfl
  induction n generalizing m saved with
  | zero =>
    unfold runFor Machine.runFor
    rw [halted]
    by_cases stopped : m.contents.lines.contains hw.root.halted = true
    · rw [if_pos stopped,if_pos stopped]
      exact ⟨saved,rfl⟩
    · rw [if_neg stopped,if_neg stopped]
      exact ⟨_,rfl⟩
  | succ n ih =>
    have ticked := m.tick_machine wired config saved
    unfold runFor Machine.runFor
    rw [halted]
    by_cases stopped : m.contents.lines.contains hw.root.halted = true
    · rw [if_pos stopped,if_pos stopped]
      exact ⟨saved,rfl⟩
    rw [if_neg stopped,if_neg stopped]
    cases reached : m.next hw with
    | error fault =>
      rw [reached] at ticked
      exact ⟨_,by rw [ticked]⟩
    | ok after =>
      rw [reached] at ticked
      rw [ticked]
      exact ih m.contents.address after rfl

theorem runUntilHalt_computer (wired : hw.Wired) (config : Config) (saved : UInt16) (m : Moment) :
    match m.runFor hw config.maxCycles (config.maxCycles - m.cycle) with
    | .ok last => ∃ after, (m.computer hw config saved).runUntilHalt =
        .done (last.computer hw config after)
    | .error fault => ∃ last, (m.computer hw config saved).runUntilHalt = .stopped fault last := by
  have ran := m.runFor_machine wired config saved (config.maxCycles - m.cycle)
  unfold Computer.runUntilHalt Machine.runUntilHalt computer
  change match m.runFor hw config.maxCycles (config.maxCycles - m.cycle) with
    | .ok last => ∃ after, ((m.machine hw config saved).runFor (config.maxCycles - m.cycle)).map _ = _
    | .error fault => ∃ last,
        ((m.machine hw config saved).runFor (config.maxCycles - m.cycle)).map _ = _
  cases reached : m.runFor hw config.maxCycles (config.maxCycles - m.cycle) with
  | error fault =>
    rw [reached] at ran
    obtain ⟨last,stopped⟩ := ran
    exact ⟨_,by rw [stopped]; rfl⟩
  | ok last =>
    rw [reached] at ran
    obtain ⟨after,done⟩ := ran
    exact ⟨after,by rw [done]; rfl⟩

end Moment

namespace Follows
variable {hw : Layout} {table : ControlTable} {ends : UInt8 → Contents → Prop}

theorem imp {others : UInt8 → Contents → Prop} (weaker : ∀ step t, ends step t → others step t)
    {sets : List ControlSet} {step : UInt8} {s : Contents} (follows : Follows hw table ends sets step s) :
    Follows hw table others sets step s := by
  induction sets generalizing step s with
  | nil => exact weaker step s follows
  | cons lines rest ih =>
    obtain ⟨chosen,declared,running,goes⟩ := follows
    refine ⟨chosen,declared,running,fun number t done => ?_⟩
    obtain ⟨counted,later⟩ := goes number t done
    exact ⟨counted,ih later⟩

theorem append {sets rest : List ControlSet} {step : UInt8} {s : Contents}
    (follows : Follows hw table (fun step t => (rest ≠ [] → step ≠ 0) ∧ Follows hw table ends rest step t)
      sets step s) (first : sets ≠ []) : Follows hw table ends (sets ++ rest) step s := by
  induction sets generalizing step s with
  | nil => exact absurd rfl first
  | cons lines more ih =>
    obtain ⟨chosen,declared,running,goes⟩ := follows
    refine ⟨chosen,declared,running,fun number t done => ?_⟩
    obtain ⟨counted,later⟩ := goes number t done
    cases more with
    | nil => exact later
    | cons next others =>
      exact ⟨fun _ => counted (by simp),ih later (by simp)⟩

theorem next (number : Nat) {lines : ControlSet} {rest : List ControlSet} {step : UInt8} {s : Contents}
    (follows : Follows hw table ends (lines :: rest) step s) :
    Moment.next hw ⟨.byTable table step,number,s⟩ = s.cycle hw number lines >>= fun t =>
      pure ⟨.byTable table (hw.stepAfter lines step),number + 1,t⟩ :=
  Moment.next_of_choice (m := ⟨.byTable table step,number,s⟩) follows.1 follows.2.1

/-- A run of as many cycles as there are sets replays them. -/
theorem run {sets : List ControlSet} {step : UInt8} {s : Contents}
    (follows : Follows hw table ends sets step s) (number : Nat) :
    match s.play hw sets with
    | .ok t => ∃ after, ends after t ∧ Moment.run hw sets.length ⟨.byTable table step,number,s⟩ =
        .ok ⟨.byTable table after,number + sets.length,t⟩
    | .error fault =>
        (Moment.run hw sets.length ⟨.byTable table step,number,s⟩).mapError Fault.timeless =
          .error fault := by
  induction sets generalizing step s number with
  | nil => exact ⟨step,follows,rfl⟩
  | cons lines rest ih =>
    have stepped := follows.next number
    rw [List.length_cons,Moment.run,stepped]
    cases cycled : s.cycle hw number lines with
    | error fault =>
      rw [Contents.play_cons_error cycled]
      rfl
    | ok t =>
      rw [Contents.play_cons_ok cycled,except_ok_bind,pure_bind,Nat.add_comm rest.length 1,
        ← Nat.add_assoc]
      exact ih (follows.2.2.2 number t cycled).2 (number + 1)

theorem between {sets : List ControlSet} {step : UInt8} {s : Contents}
    (follows : Follows hw table ends sets step s) {n number : Nat} (some : 0 < n) (fewer : n < sets.length)
    {mid : Moment} (ran : Moment.run hw n ⟨.byTable table step,number,s⟩ = .ok mid) :
    ∃ between, between ≠ 0 ∧ mid.driver = .byTable table between := by
  induction sets generalizing step s n number with
  | nil => exact absurd fewer (Nat.not_lt_zero n)
  | cons lines rest ih =>
    obtain ⟨n,rfl⟩ := Nat.exists_eq_add_of_lt some
    rw [Nat.zero_add] at ran fewer
    rw [Moment.run,follows.next number] at ran
    cases cycled : s.cycle hw number lines with
    | error fault =>
      rw [cycled] at ran
      cases ran
    | ok t =>
      rw [cycled,except_ok_bind,pure_bind] at ran
      obtain ⟨counted,later⟩ := follows.2.2.2 number t cycled
      cases n with
      | zero =>
        cases ran
        refine ⟨_,counted ?_,rfl⟩
        rintro rfl
        exact absurd fewer (Nat.lt_irrefl _)
      | succ n => exact ih later (Nat.succ_pos n) (Nat.lt_of_succ_lt_succ fewer) ran

/-- A run until halt replays the sets as far as its cycles suffice, and then goes on. -/
theorem runFor {sets : List ControlSet} {step : UInt8} {s : Contents}
    (follows : Follows hw table ends sets step s) (limit fuel number : Nat) :
    match s.play hw (sets.take fuel) with
    | .error fault =>
      (Moment.runFor hw limit fuel ⟨.byTable table step,number,s⟩).mapError Fault.timeless = .error fault
    | .ok t =>
      if fuel < sets.length then
        Moment.runFor hw limit fuel ⟨.byTable table step,number,s⟩ = .error (.cycleLimitExceeded limit)
      else ∃ after, ends after t ∧ Moment.runFor hw limit fuel ⟨.byTable table step,number,s⟩ =
        Moment.runFor hw limit (fuel - sets.length) ⟨.byTable table after,number + sets.length,t⟩ := by
  induction sets generalizing step s number fuel with
  | nil =>
    rw [List.take_nil]
    exact ⟨step,follows,rfl⟩
  | cons lines rest ih =>
    have running : ¬s.lines.contains hw.root.halted = true :=
      fun halted => follows.2.2.1 ((SortedSet.contains_iff _ _).mp halted)
    cases fuel with
    | zero =>
      rw [List.take_zero]
      exact (if_pos (Nat.succ_pos _)).mpr (if_neg running)
    | succ fuel =>
      rw [List.take_succ_cons]
      have stepped : Moment.runFor hw limit (fuel + 1) ⟨.byTable table step,number,s⟩ =
          s.cycle hw number lines >>= fun t => Moment.runFor hw limit fuel
            ⟨.byTable table (hw.stepAfter lines step),number + 1,t⟩ := by
        refine (if_neg running).trans ?_
        rw [follows.next number,bind_assoc]
        rfl
      rw [stepped]
      cases cycled : s.cycle hw number lines with
      | error fault =>
        rw [Contents.play_cons_error cycled]
        rfl
      | ok t =>
        rw [Contents.play_cons_ok cycled,except_ok_bind,List.length_cons,Nat.add_sub_add_right,
          Nat.add_comm rest.length 1,← Nat.add_assoc]
        have later := ih (follows.2.2.2 number t cycled).2 fuel (number + 1)
        simpa only [Nat.add_comm 1,Nat.add_lt_add_iff_right] using later

section Settled
variable (wired : hw.Wired) {sets : List ControlSet} {step : UInt8} {s : Contents}
  (follows : Follows hw table ends sets step s) {config : Config} (enough : sets.length ≤ config.maxCycles)
  (saved : UInt16)
include wired follows enough

theorem runUntilHalt_done {t : Contents} (played : s.play hw sets = .ok t)
    (halted : hw.root.halted ∈ t.lines) : ∃ after address, ends after t ∧
      (Moment.computer hw config saved ⟨.byTable table step,0,s⟩).runUntilHalt =
        .done (Moment.computer hw config address ⟨.byTable table after,sets.length,t⟩) := by
  have ran := follows.runFor config.maxCycles config.maxCycles 0
  rw [List.take_of_length_le enough,played] at ran
  dsimp only at ran
  rw [if_neg (Nat.not_lt_of_le enough)] at ran
  obtain ⟨after,ended,ran⟩ := ran
  have ends := Moment.runUntilHalt_computer wired config saved ⟨.byTable table step,0,s⟩
  rw [Nat.sub_zero,ran,Moment.runFor_halted halted,Nat.zero_add] at ends
  obtain ⟨address,done⟩ := ends
  exact ⟨after,address,ended,done⟩

theorem runUntilHalt_stopped {fault : Fault} (played : s.play hw sets = .error fault) :
    ∃ also last, (Moment.computer hw config saved ⟨.byTable table step,0,s⟩).runUntilHalt =
      .stopped also last ∧ also.timeless = fault := by
  have ran := follows.runFor config.maxCycles config.maxCycles 0
  rw [List.take_of_length_le enough,played] at ran
  obtain ⟨also,failed,timeless⟩ := except_mapError_error.mp ran
  have ends := Moment.runUntilHalt_computer wired config saved ⟨.byTable table step,0,s⟩
  rw [Nat.sub_zero,failed] at ends
  obtain ⟨last,stopped⟩ := ends
  exact ⟨also,last,stopped,timeless⟩

end Settled

end Follows
end Microprogram

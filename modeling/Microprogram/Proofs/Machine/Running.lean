import Microprogram.Proofs.Machine.Atomicity
import Microprogram.Proofs.Machine.Faults

/-! Running until halt. A run ticks as long as the machine has not halted and its cycles have not
reached the limit, so there are three ways for it to end, and the limit decides between them only
where it is reached. -/
namespace Microprogram.Machine

/-- A number of ticks that succeed, before each of which the machine had not halted. -/
inductive Runs : Machine → Nat → Machine → Prop
  | stay (m : Machine) : Runs m 0 m
  | tick {m next last : Machine} {n : Nat} (awake : m.isHalted = false) (ticked : m.tick = .done next)
    (later : Runs next n last) : Runs m (n + 1) last

theorem tick_advances {m next : Machine} (ticked : m.tick = .done next) :
    next.cycle = m.cycle + 1 ∧ next.config = m.config := by
  unfold tick at ticked
  dsimp only at ticked
  split at ticked
  · cases ticked
    exact ⟨rfl,rfl⟩
  · cases ticked

theorem Runs.advances {m last : Machine} {n : Nat} (ran : m.Runs n last) :
    last.cycle = m.cycle + n ∧ last.config = m.config := by
  induction ran with
  | stay m => exact ⟨rfl,rfl⟩
  | tick awake ticked later ih =>
    obtain ⟨cycle,config⟩ := tick_advances ticked
    rw [ih.1,ih.2,cycle,config]
    exact ⟨by omega,rfl⟩

/-- How a run that may take the given number of ticks ends, and after how many. -/
inductive Ends (budget : Nat) (m : Machine) : Nat → Outcome Machine → Prop
  | halted {n : Nat} {last : Machine} (ran : m.Runs n last) (within : n ≤ budget)
    (asleep : last.isHalted = true) : Ends budget m n (.done last)
  | overdue {last : Machine} (ran : m.Runs budget last) (awake : last.isHalted = false) :
    Ends budget m budget (.stopped (.cycleLimitExceeded m.config.maxCycles) last)
  | failed {n : Nat} {before after : Machine} {fault : Fault} (ran : m.Runs n before) (within : n < budget)
    (awake : before.isHalted = false) (stopped : before.tick = .stopped fault after) :
    Ends budget m n (.stopped fault after)

theorem runFor_halted {m : Machine} (asleep : m.isHalted = true) (budget : Nat) :
    m.runFor budget = .done m := by
  cases budget <;> simp [runFor,asleep]

theorem Runs.runFor {m last : Machine} {n : Nat} (ran : m.Runs n last) (budget : Nat) :
    m.runFor (n + budget) = last.runFor budget := by
  induction ran with
  | stay m => rw [Nat.zero_add]
  | @tick m next last n awake ticked later ih =>
    have more : n + 1 + budget = n + budget + 1 := by omega
    rw [more,Machine.runFor,ticked]
    simp [awake,ih]

theorem Ends.runFor {budget n : Nat} {m : Machine} {out : Outcome Machine} (ends : Ends budget m n out) :
    m.runFor budget = out := by
  cases ends with
  | halted ran within asleep =>
    obtain ⟨left,rfl⟩ := Nat.exists_eq_add_of_le within
    rw [ran.runFor left,runFor_halted asleep]
  | overdue ran awake =>
    have whole := ran.runFor 0
    rw [Nat.add_zero] at whole
    rw [whole,Machine.runFor,ran.advances.2]
    simp [awake]
  | failed ran within awake stopped =>
    obtain ⟨left,rfl⟩ := Nat.exists_eq_add_of_le within
    have whole := ran.runFor (left + 1)
    rw [← Nat.add_assoc,Nat.add_right_comm] at whole
    rw [whole,Machine.runFor,stopped]
    simp [awake]

theorem runFor_ends (budget : Nat) (m : Machine) : ∃ n ≤ budget, Ends budget m n (m.runFor budget) := by
  -- A tick that succeeds leaves the next machine a budget that is smaller by one.
  induction budget generalizing m with
  | zero =>
    unfold runFor
    cases asleep : m.isHalted with
    | true => exact ⟨0,Nat.le_refl 0,.halted (.stay m) (Nat.le_refl 0) asleep⟩
    | false => exact ⟨0,Nat.le_refl 0,.overdue (.stay m) asleep⟩
  | succ budget ih =>
    unfold runFor
    cases asleep : m.isHalted with
    | true => exact ⟨0,Nat.zero_le _,.halted (.stay m) (Nat.zero_le _) asleep⟩
    | false =>
      simp only [Bool.false_eq_true,if_false]
      cases ticked : m.tick with
      | stopped fault after => exact ⟨0,Nat.zero_le _,.failed (.stay m) (Nat.succ_pos _) asleep ticked⟩
      | done next =>
        obtain ⟨n,within,ends⟩ := ih next
        refine ⟨n + 1,Nat.succ_le_succ within,?_⟩
        dsimp only
        generalize next.runFor budget = out at ends
        cases ends with
        | halted ran within halts =>
          exact .halted (.tick asleep ticked ran) (Nat.succ_le_succ within) halts
        | overdue ran awake =>
          rw [(tick_advances ticked).2]
          exact .overdue (.tick asleep ticked ran) awake
        | failed ran within awake stopped =>
          exact .failed (.tick asleep ticked ran) (Nat.succ_lt_succ within) awake stopped

def withLimit (limit : Nat) (m : Machine) : Machine :=
  { m with config := { m.config with maxCycles := limit } }

theorem tick_withLimit (limit : Nat) (m : Machine) :
    (m.withLimit limit).tick = m.tick.map (withLimit limit) := by
  unfold tick withLimit
  dsimp only
  split <;> rfl

theorem Runs.withLimit {m last : Machine} {n : Nat} (ran : m.Runs n last) (limit : Nat) :
    (m.withLimit limit).Runs n (last.withLimit limit) := by
  induction ran with
  | stay m => exact .stay _
  | @tick m next last n awake ticked later ih =>
    have also : (m.withLimit limit).tick = .done (next.withLimit limit) := by
      rw [tick_withLimit,ticked]
      rfl
    have unhalted : (m.withLimit limit).isHalted = false := awake
    exact .tick unhalted also ih

/-- The machine without what its memories note for undoing a tick. -/
def withoutNotes (m : Machine) : Machine := { m with parts := m.parts.map Part.withoutNotes }

theorem withoutNotes_of_stopped {m after : Machine} {fault : Fault}
    (stopped : m.tick = .stopped fault after) : after.withoutNotes = m.withoutNotes := by
  obtain rfl := m.tick_stopped stopped
  unfold withoutNotes
  dsimp only
  congr 1
  rw [List.map_map]
  apply List.map_congr_left
  intro part _
  exact part.withoutNotes_checkpoint

theorem tick_withinLimit {m after : Machine} {fault : Fault} (stopped : m.tick = .stopped fault after)
    (limit : Nat) : fault ≠ .cycleLimitExceeded limit := by
  intro exceeded
  have met := tick_fault stopped
  rw [exceeded] at met
  cases met

section Endings
variable {m : Machine}

theorem runUntilHalt_iff {out : Outcome Machine} :
    m.runUntilHalt = out ↔ ∃ n, Ends (m.config.maxCycles - m.cycle) m n out := by
  constructor
  · intro ended
    obtain ⟨n,_,ends⟩ := m.runFor_ends (m.config.maxCycles - m.cycle)
    exact ⟨n,ended ▸ ends⟩
  · intro ⟨n,ends⟩
    exact ends.runFor

theorem runUntilHalt_done {last : Machine} : m.runUntilHalt = .done last ↔
    m.Runs (last.cycle - m.cycle) last ∧ last.isHalted = true ∧
      (last.cycle = m.cycle ∨ last.cycle ≤ m.config.maxCycles) := by
  rw [runUntilHalt_iff]
  constructor
  · intro ⟨n,ends⟩
    cases ends with
    | halted ran within asleep =>
      have cycle := ran.advances.1
      have count : last.cycle - m.cycle = n := by omega
      rw [count]
      exact ⟨ran,asleep,by omega⟩
  · intro ⟨ran,asleep,within⟩
    exact ⟨_,.halted ran (by omega) asleep⟩

theorem runUntilHalt_limit {limit : Nat} {last : Machine} :
    m.runUntilHalt = .stopped (.cycleLimitExceeded limit) last ↔
      limit = m.config.maxCycles ∧ m.Runs (m.config.maxCycles - m.cycle) last ∧ last.isHalted = false := by
  rw [runUntilHalt_iff]
  constructor
  · intro ⟨n,ends⟩
    cases ends with
    | overdue ran awake => exact ⟨rfl,ran,awake⟩
    | failed ran within awake stopped => exact absurd rfl (tick_withinLimit stopped limit)
  · rintro ⟨rfl,ran,awake⟩
    exact ⟨_,.overdue ran awake⟩

theorem runUntilHalt_failed {fault : Fault} {after : Machine} :
    (m.runUntilHalt = .stopped fault after ∧ ∀ limit, fault ≠ .cycleLimitExceeded limit) ↔
      ∃ n before, m.Runs n before ∧ before.isHalted = false ∧ before.cycle < m.config.maxCycles ∧
        before.tick = .stopped fault after ∧ after.withoutNotes = before.withoutNotes := by
  rw [runUntilHalt_iff]
  constructor
  · intro ⟨⟨n,ends⟩,other⟩
    cases ends with
    | overdue ran awake => exact absurd rfl (other m.config.maxCycles)
    | @failed _ before _ _ ran within awake stopped =>
      have cycle := ran.advances.1
      exact ⟨n,before,ran,awake,by omega,stopped,withoutNotes_of_stopped stopped⟩
  · intro ⟨n,before,ran,awake,within,stopped,_⟩
    have cycle := ran.advances.1
    exact ⟨⟨n,.failed ran (by omega) awake stopped⟩,tick_withinLimit stopped⟩

theorem Ends.withLimit {budget n more limit : Nat} {out : Outcome Machine} (ends : Ends budget m n out)
    (early : ∀ limit last, out ≠ .stopped (.cycleLimitExceeded limit) last) (raised : budget ≤ more) :
    Ends more (m.withLimit limit) n (out.map (withLimit limit)) := by
  cases ends with
  | halted ran within asleep => exact .halted (ran.withLimit limit) (by omega) asleep
  | overdue ran awake => exact absurd rfl (early _ _)
  | failed ran within awake stopped =>
    apply Ends.failed (ran.withLimit limit) (by omega) awake
    rw [tick_withLimit,stopped]
    rfl

theorem runUntilHalt_withLimit {limit : Nat} (raised : m.config.maxCycles ≤ limit)
    (early : ∀ limit last, m.runUntilHalt ≠ .stopped (.cycleLimitExceeded limit) last) :
    (m.withLimit limit).runUntilHalt = m.runUntilHalt.map (withLimit limit) := by
  obtain ⟨n,_,ends⟩ := m.runFor_ends (m.config.maxCycles - m.cycle)
  have more : m.config.maxCycles - m.cycle ≤ limit - m.cycle := by omega
  exact (ends.withLimit early more).runFor

end Endings

/-- A run ends where the machine has halted, at the limit, or at the first tick that fails, each
just where it is said to, and within as many ticks as the limit leaves. With a higher limit it ends
in the same way, unless it was the limit that ended it. -/
theorem run_exact (m : Machine) :
    (∀ last, m.runUntilHalt = .done last ↔
      m.Runs (last.cycle - m.cycle) last ∧ last.isHalted = true ∧
        (last.cycle = m.cycle ∨ last.cycle ≤ m.config.maxCycles)) ∧
    (∀ limit last, m.runUntilHalt = .stopped (.cycleLimitExceeded limit) last ↔
      limit = m.config.maxCycles ∧ m.Runs (m.config.maxCycles - m.cycle) last ∧
        last.isHalted = false) ∧
    (∀ fault after,
      (m.runUntilHalt = .stopped fault after ∧ ∀ limit, fault ≠ .cycleLimitExceeded limit) ↔
        ∃ n before, m.Runs n before ∧ before.isHalted = false ∧ before.cycle < m.config.maxCycles ∧
          before.tick = .stopped fault after ∧ after.withoutNotes = before.withoutNotes) ∧
    (∃ n ≤ m.config.maxCycles - m.cycle, ∃ reached, m.Runs n reached ∧
      (m.runUntilHalt = .done reached ∨
        m.runUntilHalt = .stopped (.cycleLimitExceeded m.config.maxCycles) reached ∨
        ∃ fault after, reached.tick = .stopped fault after ∧
          m.runUntilHalt = .stopped fault after)) ∧
    ∀ limit, m.config.maxCycles ≤ limit →
      (∀ last, m.runUntilHalt = .done last →
        (m.withLimit limit).runUntilHalt = .done (last.withLimit limit)) ∧
      ∀ fault after, (∀ limit, fault ≠ .cycleLimitExceeded limit) →
        m.runUntilHalt = .stopped fault after →
          (m.withLimit limit).runUntilHalt = .stopped fault (after.withLimit limit) := by
  refine ⟨fun _ => runUntilHalt_done,fun _ _ => runUntilHalt_limit,fun _ _ => runUntilHalt_failed,?_,?_⟩
  · obtain ⟨n,within,ends⟩ := m.runFor_ends (m.config.maxCycles - m.cycle)
    change Ends _ m n m.runUntilHalt at ends
    refine ⟨n,within,?_⟩
    generalize m.runUntilHalt = out at ends
    cases ends with
    | @halted _ last ran _ asleep => exact ⟨last,ran,.inl rfl⟩
    | @overdue last ran awake => exact ⟨last,ran,.inr (.inl rfl)⟩
    | @failed _ before after fault ran _ awake stopped =>
      exact ⟨before,ran,.inr (.inr ⟨fault,after,stopped,rfl⟩)⟩
  · intro limit raised
    constructor
    · intro last done
      rw [runUntilHalt_withLimit raised (by simp [done]),done]
      rfl
    · intro fault after other stopped
      rw [runUntilHalt_withLimit raised (by simp [stopped,other]),stopped]
      rfl

/-- The crashing machine with a script that halts in the second cycle, the last one allowed. -/
def halting : Machine := { crashing with
  parts := crashing.parts.map fun
    | .scripted c => .scripted { c with script := [∅,.ofList [⟨0⟩]] }
    | part => part
  config := { maxCycles := 2 } }

theorem halting_exact :
    (∃ last, halting.runUntilHalt = .done last ∧ last.cycle = 2 ∧ halting.Runs 2 last ∧
      (halting.withLimit 9).runUntilHalt = .done (last.withLimit 9)) ∧
    (∃ last, (halting.withLimit 1).runUntilHalt = .stopped (.cycleLimitExceeded 1) last ∧
      (halting.withLimit 1).Runs 1 last) ∧
    ∃ after, (crashing.withLimit 1).runUntilHalt = .stopped (.crashed 0) after ∧
      ((crashing.withLimit 1).withLimit 9).runUntilHalt = .stopped (.crashed 0) (after.withLimit 9) := by
  obtain ⟨last,halted,cycle⟩ : ∃ last, halting.runUntilHalt = .done last ∧ last.cycle = 2 := ⟨_,rfl,rfl⟩
  obtain ⟨reached,exceeded⟩ : ∃ reached,
      (halting.withLimit 1).runUntilHalt = .stopped (.cycleLimitExceeded 1) reached := ⟨_,rfl⟩
  obtain ⟨after,crashed⟩ : ∃ after, (crashing.withLimit 1).runUntilHalt = .stopped (.crashed 0) after :=
    ⟨_,rfl⟩
  obtain ⟨done,_,_,_,raise⟩ := run_exact halting
  have ran := ((done last).mp halted).1
  rw [cycle] at ran
  refine ⟨⟨last,halted,cycle,ran,(raise 9 (by decide)).1 last halted⟩,⟨reached,exceeded,?_⟩,after,crashed,?_⟩
  · exact (((run_exact (halting.withLimit 1)).2.1 1 reached).mp exceeded).2.1
  · exact ((run_exact (crashing.withLimit 1)).2.2.2.2 9 (by decide)).2 _ after (by simp) crashed

end Microprogram.Machine

import Microprogram.Proofs.Computer.Contents
import Microprogram.Proofs.Machine.Rollback
import Microprogram.Proofs.Part.Lines
import Microprogram.Proofs.Sorted.Set

/-! The cycle of a computer as a machine is the cycle on its contents. A driver, which
is a control table with a step or a script, chooses the lines that are asserted. -/
namespace Microprogram

/-- What decides which lines are asserted in each cycle. -/
inductive Driver
  | byTable (table : ControlTable) (step : UInt8)
  | byScript (rest : List ControlSet)

namespace Driver
variable (hw : Layout)

def part (opcode : UInt8) : Driver → Part
  | byTable table step => .controller
      ⟨hw.controller.path,⟨hw.controller.opcode,opcode⟩,hw.controller.counter,table,step⟩
  | byScript rest => .scripted
      ⟨hw.controller.path,⟨hw.controller.opcode,opcode⟩,hw.controller.counter,rest⟩

def choose (opcode : UInt8) (lines : SortedSet StatusId) : Driver → Except Fault ControlSet
  | byTable table step =>
    match table.lookup opcode step lines.contains with
    | some entry => .ok entry.controls
    | none => .error (.missingEntry opcode step)
  | byScript rest => .ok (rest.headD ∅)

def drawn : Driver → Driver
  | byTable table step => .byTable table step
  | byScript rest => .byScript rest.tail

def counted (asserted : Asserted) : Driver → Driver
  | byTable table step => .byTable table <|
      if asserted.contains hw.controller.counter.reset then 0
      else if asserted.contains hw.controller.counter.increment then step + 1
      else step
  | byScript rest => .byScript rest

end Driver

/-- A computer between two cycles. -/
structure Moment where
  driver : Driver
  cycle : Nat
  contents : Contents

namespace Moment
variable (hw : Layout)

/-- The moment after one cycle, or the fault that stops it. -/
def next (m : Moment) : Except Fault Moment := do
  let controls ← m.driver.choose m.contents.opcode m.contents.lines
  let asserted ← (hw.hardware.assertAll controls.toList ∅).result
  let contents ← m.contents.cycle hw m.cycle asserted
  return ⟨m.driver.drawn.counted hw asserted,m.cycle + 1,contents⟩

def parts (driver : Driver) (saved : UInt16) (journal : List (UInt16 × UInt8)) (s : Contents) :
    List Part :=
  [.root hw.root,driver.part hw s.opcode,.register ⟨hw.a,s.a⟩,.register ⟨hw.x,s.x⟩,.register ⟨hw.y,s.y⟩,
    .alu (s.aluUnit hw),.statusRegister (s.statusUnit hw),.word (s.pcUnit hw),
    .word (s.bufferUnit hw),
    .memory ⟨hw.memory.path,hw.memory.tap,s.addressUnit hw,s.regions,saved,journal⟩]

/-- The machine at a moment, whose memory last saved the given address. -/
def machine (config : Config) (saved : UInt16) (m : Moment) : Machine where
  hardware := hw.hardware
  parts := parts hw m.driver saved [] m.contents
  signals := ⟨∅,m.contents.lines,[],∅⟩
  config := config
  halted := hw.root.halted
  cycle := m.cycle

end Moment

namespace Moment
variable {hw : Layout}

private theorem act_controller (number : Nat) (driver : Driver) (s : Contents) :
    (driver.part hw s.opcode).act hw.hardware .control number ⟨∅,s.lines,[],∅⟩ =
      (driver.choose s.opcode s.lines >>= fun controls =>
        (hw.hardware.assertAll controls.toList ∅).result).map fun asserted =>
          (driver.drawn.part hw s.opcode,⟨asserted,s.lines,[],∅⟩) := by
  cases driver with
  | byTable table step =>
    change (((Controller.select _ _ _ _).map _).map _).result = _
    simp only [Outcome.result_map,Controller.select,Controller.choose,Driver.choose]
    cases table.lookup s.opcode step s.lines.contains with
    | none => rfl
    | some entry =>
      change (((hw.hardware.assertAll entry.controls.toList ∅).result).map _).map _ =
        ((hw.hardware.assertAll entry.controls.toList ∅).result).map _
      cases (hw.hardware.assertAll entry.controls.toList ∅).result <;> rfl
  | byScript rest =>
    cases rest with
    | nil => rfl
    | cons controls rest =>
      change ((((hw.hardware.assertAll controls.toList ∅).map _).map _).map _).result =
        ((hw.hardware.assertAll controls.toList ∅).result).map _
      simp only [Outcome.result_map]
      cases (hw.hardware.assertAll controls.toList ∅).result <;> rfl

theorem phase_control (number : Nat) (driver : Driver) (saved : UInt16)
    (journal : List (UInt16 × UInt8)) (s : Contents) :
    (Machine.runPhase hw.hardware number .control
      (parts hw driver saved journal s,⟨∅,s.lines,[],∅⟩)).result =
      (driver.choose s.opcode s.lines >>= fun controls =>
        (hw.hardware.assertAll controls.toList ∅).result).map fun asserted =>
          (parts hw driver.drawn saved journal s,⟨asserted,s.lines,[],∅⟩) := by
  rw [Machine.runPhase,Outcome.result_map]
  dsimp only
  rw [parts,Part.reactAll_cons]
  change ((Part.reactAll _ _ _ (driver.part hw s.opcode :: _) _).result >>= _).map _ = _
  rw [Part.reactAll_cons,act_controller]
  generalize (driver.choose s.opcode s.lines >>= fun controls =>
    (hw.hardware.assertAll controls.toList ∅).result) = chosen
  cases chosen <;> rfl

theorem phase_write (number : Nat) (driver : Driver) (saved : UInt16)
    (journal : List (UInt16 × UInt8)) (asserted : Asserted) (s : Contents) :
    (Machine.runPhase hw.hardware number .write
      (parts hw driver saved journal s,⟨asserted,s.lines,[],∅⟩)).result =
      (s.drive hw asserted).map fun driven =>
        (parts hw driver saved journal s,⟨asserted,s.lines,[],driven⟩) := by
  have outlets : (parts hw driver saved journal s).flatMap Part.outlets = s.outlets hw := by
    cases driver <;> rfl
  rw [Machine.runPhase,Outcome.result_map]
  dsimp only
  rw [Part.reactAll_write,outlets]
  change ((s.drive hw asserted).map _).map _ = _
  cases s.drive hw asserted <;> rfl

private theorem act_read_opcode (number : Nat) (driver : Driver) (opcode : UInt8) (signals : Signals) :
    (driver.part hw opcode).act hw.hardware .read number signals = do
      let taken ← hw.controller.opcode.sense hw.hardware signals.asserted signals.driven
      return (driver.part hw (byteTaken taken opcode),signals) := by
  cases driver <;>
  · change (((Register.load ⟨hw.controller.opcode,opcode⟩ _ _ _).map _).map _).result = _
    simp only [Outcome.result_map,Register.load_result]
    cases hw.controller.opcode.sense hw.hardware signals.asserted signals.driven <;> rfl

private theorem flags_declared (wired : hw.Wired) (s : Contents) :
    ∀ status ∈ (s.statusUnit hw).statuses, status.index < hw.hardware.statuses.size :=
  fun status member => wired.status_declared status (List.mem_append_right _ member)

theorem phase_read (wired : hw.Wired) (number : Nat) (driver : Driver) (saved : UInt16)
    (journal : List (UInt16 × UInt8)) (asserted : Asserted) (driven : Driven) (s : Contents) :
    ∃ after, (Machine.runPhase hw.hardware number .read
      (parts hw driver saved journal s,⟨asserted,s.lines,[],driven⟩)).result =
      (s.load hw asserted driven).map fun t =>
        (parts hw driver saved after t,⟨asserted,t.lines,[],driven⟩) := by
  obtain ⟨after,memory⟩ := Memory.load_result hw.memory.path hw.memory.tap hw.memory.address
    s.address s.regions saved journal hw.hardware asserted driven
  refine ⟨after,?_⟩
  rw [Machine.runPhase,Outcome.result_map]
  dsimp only
  rw [parts,Part.reactAll_cons]
  change ((Part.reactAll _ _ _ (driver.part hw s.opcode :: _) _).result >>= _).map _ = _
  simp only [Part.reactAll_cons,Part.reactAll_nil,act_read_opcode,Part.act_read_register,
    Part.act_read_alu,Part.act_read_statusRegister _ _ _ _ (flags_declared wired s),
    Part.act_read_word,Part.act_read_memory,Contents.pcUnit,Contents.bufferUnit,
    Contents.addressUnit,WordRegister.load_result,WordRegister.load_halves,memory,
    except_map_eq_bind,except_ok_bind,bind_assoc,pure_bind]
  unfold Contents.load
  simp only [bind_assoc,pure_bind]
  refine bind_congr fun opcode => bind_congr fun a => bind_congr fun x => bind_congr fun y =>
    bind_congr fun lhs => bind_congr fun rhs => bind_congr fun result => bind_congr fun status =>
    bind_congr fun pc => bind_congr fun buffer => bind_congr fun high => bind_congr fun low =>
    bind_congr fun cell => bind_congr fun regions => bind_congr fun address => ?_
  cases status <;> cases high <;> cases low <;> rfl

private theorem act_process_driver (number : Nat) (driver : Driver) (opcode : UInt8)
    (signals : Signals) :
    (driver.part hw opcode).act hw.hardware .process number signals =
      .ok ((driver.counted hw signals.asserted).part hw opcode,signals) := by
  cases driver with
  | byTable table step =>
    unfold Driver.counted
    change Except.ok (Part.controller (Controller.advance _ _),signals) = _
    unfold Controller.advance
    dsimp only
    split
    · rfl
    split <;> rfl
  | byScript rest => rfl

theorem phase_process (wired : hw.Wired) (number : Nat) (driver : Driver) (saved : UInt16)
    (journal : List (UInt16 × UInt8)) (asserted : Asserted) (driven : Driven) (s : Contents) :
    (Machine.runPhase hw.hardware number .process
      (parts hw driver saved journal s,⟨asserted,s.lines,[],driven⟩)).result =
      (s.process hw number asserted).map fun t =>
        (parts hw (driver.counted hw asserted) saved journal t,⟨asserted,t.lines,[],driven⟩) := by
  have reported : ∀ status ∈ (s.aluUnit hw).statuses, status.index < hw.hardware.statuses.size :=
    fun status member => wired.status_declared status
      (List.mem_append_left _ (List.mem_cons_of_mem _ member))
  have halted : hw.root.halted.index < hw.hardware.statuses.size :=
    wired.status_declared _ (List.mem_append_left _ List.mem_cons_self)
  rw [Machine.runPhase,Outcome.result_map]
  dsimp only
  rw [parts,Part.reactAll_cons,Part.act_process_root _ _ _ _ halted]
  unfold Contents.process
  split
  · rfl
  · simp only [Part.reactAll_cons,Part.reactAll_nil,except_ok_bind,act_process_driver,
      Part.act_process_register,Part.act_process_word,Part.act_process_memory,
      Part.act_process_alu _ _ _ _ reported,
      Part.act_process_statusRegister _ _ _ _ (flags_declared wired s),except_map_eq_bind,bind_assoc,
      pure_bind]
    rfl

theorem phase_clear (wired : hw.Wired) (number : Nat) (driver : Driver) (saved : UInt16)
    (journal : List (UInt16 × UInt8)) (asserted : Asserted) (driven : Driven) (s : Contents) :
    (Machine.runPhase hw.hardware number .clear
      (parts hw driver saved journal s,⟨asserted,s.lines,[],driven⟩)).result =
      .ok (parts hw driver saved journal (s.settle hw asserted),
        ⟨asserted.erase hw.statusRegister.latch,(s.settle hw asserted).lines,[],driven⟩) := by
  have known := Registry.control_declared wired.latch_line
  have opcode (signals : Signals) : (driver.part hw s.opcode).act hw.hardware .clear number signals =
      .ok (driver.part hw s.opcode,signals) := by
    cases driver <;> rfl
  have cleared := Part.act_clear_statusRegister hw.hardware number
    ⟨asserted,s.lines,[],driven⟩ (s.statusUnit hw) (flags_declared wired s) known
  rw [Machine.runPhase,Outcome.result_map]
  dsimp only
  simp only [parts,Part.reactAll_cons,Part.reactAll_nil,except_ok_bind,opcode,Part.act_clear_other,
    ne_eq,reduceCtorEq,not_false_eq_true,implies_true]
  unfold Contents.settle
  by_cases latched : asserted.contains hw.statusRegister.latch = true
  · rw [cleared.trans (if_pos latched),if_pos latched]
    rfl
  · have same : asserted.erase hw.statusRegister.latch = asserted := by
      refine SortedSet.ext_mem fun line => ?_
      rw [SortedSet.mem_erase,and_iff_left_iff_imp]
      rintro member rfl
      exact latched ((SortedSet.contains_iff _ _).mpr member)
    rw [cleared.trans (if_neg latched),if_neg latched,same]
    rfl

end Moment

namespace Moment
variable {hw : Layout}

private theorem held_settled (wired : hw.Wired) {lines : List ControlId} {asserted : Asserted}
    (raised : (hw.hardware.assertAll lines ∅).result = .ok asserted) :
    hw.hardware.held (asserted.erase hw.statusRegister.latch) = ∅ := by
  obtain ⟨declared,rfl⟩ := (Registry.assertAll_eq_ok _ _ _ _).mp raised
  refine SortedSet.ext_mem fun line => ?_
  simp only [Registry.held,SortedSet.mem_filter,SortedSet.mem_erase,SortedSet.mem_insertAll,
    SortedSet.not_mem_empty,false_or,iff_false,not_and]
  rintro ⟨member,other⟩ stays
  have bound := declared line member
  have found : hw.hardware.control? line = some hw.hardware.controls[line.index] :=
    Array.getElem?_eq_getElem bound
  rw [found,Option.any_some,Bool.not_eq_true'] at stays
  exact other (wired.lasting line _ found stays)

private theorem machine_settled (wired : hw.Wired) (config : Config) (saved address : UInt16)
    (number : Nat) (driver after : Driver) (journal : List (UInt16 × UInt8)) (s t : Contents)
    {lines : List ControlId} {asserted : Asserted} {driven : Driven}
    (raised : (hw.hardware.assertAll lines ∅).result = .ok asserted) :
    { machine hw config saved ⟨driver,number,s⟩ with
        parts := (parts hw after address journal t).map Part.commit
        signals := Signals.rest ⟨asserted.erase hw.statusRegister.latch,t.lines,[],driven⟩ hw.hardware
        cycle := number + 1 } = machine hw config address ⟨after,number + 1,t⟩ := by
  have rested : Signals.rest ⟨asserted.erase hw.statusRegister.latch,t.lines,[],driven⟩ hw.hardware =
      ⟨∅,t.lines,[],∅⟩ := by
    rw [Signals.rest,held_settled wired raised]
  rw [rested]
  cases after <;> rfl

/-- A cycle of the machine is the cycle on its contents. One that fails changes nothing
but the address that memory saved. -/
theorem tick_machine (wired : hw.Wired) (config : Config) (saved : UInt16) (m : Moment) :
    (m.machine hw config saved).tick = match m.next hw with
      | .ok after => .done (after.machine hw config m.contents.address)
      | .error fault => .stopped fault (m.machine hw config m.contents.address) := by
  obtain ⟨driver,number,s⟩ := m
  have checkpoints : ((machine hw config saved ⟨driver,number,s⟩).parts.map fun part =>
      part.checkpoint.1) = parts hw driver s.address [] s := by
    cases driver <;> rfl
  let run (phase : Phase) (state : List Part × Signals) : Except Fault (List Part × Signals) :=
    (Machine.runPhase hw.hardware number phase state).result
  have phases : (Machine.runPhases hw.hardware number (parts hw driver s.address [] s,
      ⟨∅,s.lines,[],∅⟩)).result =
      run .control (parts hw driver s.address [] s,⟨∅,s.lines,[],∅⟩) >>= run .write >>= run .read >>=
        run .process >>= run .clear := by
    rw [Machine.runPhases,Outcome.result_each]
    simp only [Phase.all,List.foldlM_cons,List.foldlM_nil,bind_pure,bind_assoc]
    rfl
  have stop {fault : Fault} (ran : (Machine.runPhases hw.hardware number
      (parts hw driver s.address [] s,⟨∅,s.lines,[],∅⟩)).result = .error fault) :
      (machine hw config saved ⟨driver,number,s⟩).tick =
        .stopped fault (machine hw config s.address ⟨driver,number,s⟩) :=
    (Machine.tick_of_error _ (checkpoints ▸ ran)).trans (by rw [checkpoints]; rfl)
  have control : run .control _ = _ := phase_control number driver s.address [] s
  rw [control] at phases
  unfold next
  dsimp only
  rw [← bind_assoc]
  cases chosen : (driver.choose s.opcode s.lines >>= fun controls =>
      (hw.hardware.assertAll controls.toList ∅).result) with
  | error fault =>
    rw [chosen] at phases
    exact stop phases
  | ok asserted =>
    obtain ⟨controls,_,raised⟩ := except_bind_ok.mp chosen
    have wrote : run .write _ = _ := phase_write number driver.drawn s.address [] asserted s
    rw [chosen] at phases
    change _ = run .write _ >>= run .read >>= run .process >>= run .clear at phases
    rw [wrote] at phases
    simp only [except_ok_bind]
    unfold Contents.cycle
    cases drove : s.drive hw asserted with
    | error fault =>
      rw [drove] at phases
      exact stop phases
    | ok driven =>
      obtain ⟨journal,loads⟩ := phase_read wired number driver.drawn s.address [] asserted driven s
      have loads : run .read _ = _ := loads
      rw [drove] at phases
      change _ = run .read _ >>= run .process >>= run .clear at phases
      rw [loads] at phases
      simp only [except_ok_bind]
      cases loaded : s.load hw asserted driven with
      | error fault =>
        rw [loaded] at phases
        exact stop phases
      | ok t =>
        have processed : run .process _ = _ :=
          phase_process wired number driver.drawn s.address journal asserted driven t
        rw [loaded] at phases
        change _ = run .process _ >>= run .clear at phases
        rw [processed] at phases
        simp only [except_ok_bind]
        cases ended : t.process hw number asserted with
        | error fault =>
          rw [ended] at phases
          exact stop phases
        | ok u =>
          have cleared : run .clear _ = _ := phase_clear wired number
            (driver.drawn.counted hw asserted) s.address journal asserted driven u
          rw [ended] at phases
          change _ = run .clear _ at phases
          rw [cleared] at phases
          refine (Machine.tick_of_ok _ (checkpoints ▸ phases)).trans (congrArg Outcome.done ?_)
          exact machine_settled wired config saved s.address number driver _ journal s _ raised

theorem next_of_choice {m : Moment} {lines : ControlSet}
    (chosen : m.driver.choose m.contents.opcode m.contents.lines = .ok lines)
    (declared : ∀ line ∈ lines, line.index < hw.hardware.controls.size) :
    m.next hw = m.contents.cycle hw m.cycle lines >>= fun contents =>
      pure ⟨m.driver.drawn.counted hw lines,m.cycle + 1,contents⟩ := by
  unfold next
  rw [chosen,except_ok_bind,Registry.assertAll_declared _ _ declared,except_ok_bind]

end Moment
end Microprogram

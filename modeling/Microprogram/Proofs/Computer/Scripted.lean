import Microprogram.Proofs.Computer.Runs
import Microprogram.Proofs.Computer.Start

/-! A computer with a table and the computer that plays what the table selected. They differ
in nothing but their controllers, and only in whether these look up the lines of a tick or
take them off a script. -/
namespace Microprogram

/-- The part with a script in place of a table. -/
def Part.scriptedBy (rest : List ControlSet) : Part → Part
  | controller c => scripted ⟨c.path,c.opcode,c.counter,rest⟩
  | part => part

namespace Machine

theorem tickMany_count (n count other : Nat) (m : Machine) :
    (m.tickMany n count).2 = (m.tickMany n other).2 := by
  induction n generalizing m count other with
  | zero => rfl
  | succ n ih =>
    unfold tickMany
    cases m.tick with
    | done next => exact ih (count + 1) (other + 1) next
    | stopped fault next => rfl

end Machine

namespace Computer

/-- The computer whose controller plays a script in place of a table. All else is the same: the
opcode register and all other parts, the lines, the buses and the count of cycles. -/
def scriptedBy (rest : List ControlSet) (c : Computer) : Computer :=
  { c with machine := { c.machine with parts := c.machine.parts.map (Part.scriptedBy rest) } }

/-- Ticks that succeed, one after the other, with the control sets of the entries that are
selected in them. -/
inductive Selecting : Computer → List ControlSet → Computer → Prop
  | rest (c : Computer) : Selecting c [] c
  | tick {c next last : Computer} {entry : Entry} {sets : List ControlSet}
      (selected : c.selected? = some entry) (done : c.tick = .done next)
      (later : Selecting next sets last) : Selecting c (entry.controls :: sets) last

theorem ticks_succ {n : Nat} {c last : Computer} : c.ticks (n + 1) = .done last ↔
    ∃ next, c.tick = .done next ∧ next.ticks n = .done last := by
  unfold ticks tick
  cases ticked : c.machine.tick with
  | done next =>
    have later : (c.machine.tickMany (n + 1) 0).2 = (next.tickMany n 0).2 := by
      rw [Machine.tickMany,ticked]
      exact Machine.tickMany_count n _ _ next
    rw [later]
    simp [Outcome.map]
  | stopped fault next =>
    have ended : (c.machine.tickMany (n + 1) 0).2 = .stopped fault next := by
      rw [Machine.tickMany,ticked]
    rw [ended]
    simp [Outcome.map]

theorem Selecting.ticks {c last : Computer} {sets : List ControlSet} (selecting : Selecting c sets last) :
    c.ticks sets.length = .done last := by
  induction selecting with
  | rest c => rfl
  | tick selected done later ih => exact ticks_succ.mpr ⟨_,done,ih⟩

/-- The computer has a table, and stands between two ticks. -/
def Tabled (hw : Layout) (config : Config) (c : Computer) : Prop :=
  ∃ table step number s saved, c = Moment.computer hw config saved ⟨.byTable table step,number,s⟩

end Computer

namespace Moment
variable {hw : Layout}

theorem scriptedBy_computer (config : Config) (saved : UInt16) (table : ControlTable) (step : UInt8)
    (number : Nat) (s : Contents) (rest : List ControlSet) :
    (computer hw config saved ⟨.byTable table step,number,s⟩).scriptedBy rest =
      computer hw config saved ⟨.byScript rest,number,s⟩ := rfl

theorem next_script {table : ControlTable} {step : UInt8} {number : Nat} {s : Contents} {entry : Entry}
    (selected : table.lookup s.opcode step s.lines.contains = some entry) (rest : List ControlSet) :
    next hw ⟨.byScript (entry.controls :: rest),number,s⟩ =
      (next hw ⟨.byTable table step,number,s⟩).map fun after => { after with driver := .byScript rest } := by
  have chosen : (Driver.byTable table step).choose s.opcode s.lines = .ok entry.controls := by
    rw [Driver.choose,selected]
  unfold next
  dsimp only
  rw [chosen,except_ok_bind]
  change ((hw.hardware.assertAll entry.controls.toList ∅).result >>= _) = _
  cases (hw.hardware.assertAll entry.controls.toList ∅).result with
  | error fault => rfl
  | ok asserted =>
    rw [except_ok_bind,except_ok_bind]
    cases s.cycle hw number asserted <;> rfl

theorem next_selects {table : ControlTable} {step : UInt8} {number : Nat} {s : Contents} {after : Moment}
    (stepped : next hw ⟨.byTable table step,number,s⟩ = .ok after) :
    ∃ entry moved, table.lookup s.opcode step s.lines.contains = some entry ∧
      after.driver = .byTable table moved := by
  unfold next at stepped
  dsimp only at stepped
  obtain ⟨controls,chosen,stepped⟩ := except_bind_ok.mp stepped
  obtain ⟨asserted,_,stepped⟩ := except_bind_ok.mp stepped
  obtain ⟨t,_,ended⟩ := except_bind_ok.mp stepped
  cases ended
  cases selected : table.lookup s.opcode step s.lines.contains with
  | none => simp [Driver.choose,selected] at chosen
  | some entry => exact ⟨entry,_,rfl,rfl⟩

end Moment

namespace Computer.Tabled
variable {hw : Layout} {config : Config} {c last : Computer}

theorem selects (wired : hw.Wired) (tabled : c.Tabled hw config) {next : Computer}
    (done : c.tick = .done next) : (∃ entry, c.selected? = some entry) ∧ next.Tabled hw config := by
  obtain ⟨table,step,number,s,saved,rfl⟩ := tabled
  obtain ⟨⟨driver,later,t⟩,stepped,rfl⟩ := (Moment.tick_done wired).mp done
  obtain ⟨entry,moved,selected,driven⟩ := Moment.next_selects stepped
  obtain rfl : driver = _ := driven
  exact ⟨⟨entry,(Moment.entry_computer wired config saved table step number s).trans selected⟩,
    table,moved,later,t,_,rfl⟩

theorem tick_script (wired : hw.Wired) (tabled : c.Tabled hw config) {entry : Entry}
    (selected : c.selected? = some entry) (rest : List ControlSet) :
    (c.scriptedBy (entry.controls :: rest)).tick = match c.tick with
      | .done next => .done (next.scriptedBy rest)
      | .stopped fault after => .stopped fault (after.scriptedBy (entry.controls :: rest)) := by
  obtain ⟨table,step,number,s,saved,rfl⟩ := tabled
  rw [Moment.entry_computer wired] at selected
  rw [Moment.scriptedBy_computer,Moment.tick_computer wired,Moment.tick_computer wired,
    Moment.next_script selected]
  cases stepped : Moment.next hw ⟨.byTable table step,number,s⟩ with
  | error fault => rfl
  | ok after =>
    obtain ⟨_,moved,_,driven⟩ := Moment.next_selects stepped
    obtain ⟨driver,later,t⟩ := after
    obtain rfl : driver = _ := driven
    rfl

theorem selecting (wired : hw.Wired) (tabled : c.Tabled hw config) {n : Nat}
    (ran : c.ticks n = .done last) : ∃ sets, sets.length = n ∧ Selecting c sets last := by
  induction n generalizing c with
  | zero =>
    cases ran
    exact ⟨[],rfl,.rest c⟩
  | succ n ih =>
    obtain ⟨next,done,later⟩ := ticks_succ.mp ran
    obtain ⟨⟨entry,selected⟩,follows⟩ := tabled.selects wired done
    obtain ⟨sets,length,selecting⟩ := ih follows later
    exact ⟨entry.controls :: sets,congrArg (· + 1) length,.tick selected done selecting⟩

/-- A script that begins with the selected control sets plays them, tick by tick. -/
theorem plays (wired : hw.Wired) (tabled : c.Tabled hw config) {sets : List ControlSet}
    (selecting : Selecting c sets last) (rest : List ControlSet) : last.Tabled hw config ∧
      ∀ k ≤ sets.length, ∃ reached, c.ticks k = .done reached ∧
        (c.scriptedBy (sets ++ rest)).ticks k = .done (reached.scriptedBy (sets.drop k ++ rest)) := by
  induction selecting with
  | rest c =>
    refine ⟨tabled,fun k few => ?_⟩
    obtain rfl := Nat.le_zero.mp few
    exact ⟨c,rfl,rfl⟩
  | tick selected done later ih =>
    obtain ⟨_,follows⟩ := tabled.selects wired done
    obtain ⟨ended,played⟩ := ih follows
    refine ⟨ended,fun k few => ?_⟩
    cases k with
    | zero => exact ⟨_,rfl,rfl⟩
    | succ k =>
      obtain ⟨reached,ran,also⟩ := played k (Nat.le_of_succ_le_succ few)
      refine ⟨reached,ticks_succ.mpr ⟨_,done,ran⟩,ticks_succ.mpr ⟨_,?_,also⟩⟩
      rw [List.cons_append,tabled.tick_script wired selected,done]

end Computer.Tabled

namespace Computer

theorem admitted_of_made {hw : Layout} {controller : Part} {program : List UInt8} {config : Config}
    {c : Computer} (made : assemble hw controller program config = .ok c) :
    config.validate = .ok () ∧ config.admits program.length = .ok () := by
  unfold assemble at made
  obtain ⟨_,valid,made⟩ := except_bind_ok.mp made
  obtain ⟨_,fits,_⟩ := except_bind_ok.mp made
  exact ⟨except_mapError_ok.mp valid,except_mapError_ok.mp fits⟩

/-- The ticks of a computer with a table that succeed can be played from a script of the control
sets selected in them: it comes to the same after each of them. A tick after them that selects
an entry and fails also fails when its control set is played, with the same fault. -/
theorem script_follows_table {hw : Layout} (built : Layout.build = .ok hw) {table : ControlTable}
    {program : List UInt8} {config : Config} {driven : Computer}
    (made : withTable hw table program config = .ok driven) :
    (∀ n last, driven.ticks n = .done last → ∃ sets, sets.length = n ∧ Selecting driven sets last) ∧
    ∀ sets last, Selecting driven sets last →
      (∃ scripted, withScript hw sets program config = .ok scripted ∧
        ∀ k ≤ sets.length, ∃ reached, driven.ticks k = .done reached ∧
          scripted.ticks k = .done (reached.scriptedBy (sets.drop k))) ∧
      ∀ entry fault after, last.selected? = some entry → last.tick = .stopped fault after →
        ∃ scripted, withScript hw (sets ++ [entry.controls]) program config = .ok scripted ∧
          scripted.ticks sets.length = .done (last.scriptedBy [entry.controls]) ∧
          (last.scriptedBy [entry.controls]).tick =
            .stopped fault (after.scriptedBy [entry.controls]) := by
  obtain ⟨valid,fits⟩ := admitted_of_made made
  have wired := Layout.build_wired built
  rw [withTable_ok built table valid fits] at made
  cases made
  have tabled : Tabled hw config ((Moment.initial (.byTable table 0) program config).computer hw config 0) :=
    ⟨table,0,_,_,0,rfl⟩
  have scripts (sets : List ControlSet) : withScript hw sets program config =
      .ok (((Moment.initial (.byTable table 0) program config).computer hw config 0).scriptedBy sets) :=
    assemble_ok built (.byScript sets) valid fits
  refine ⟨fun n last ran => tabled.selecting wired ran,fun sets last selecting => ⟨?_,?_⟩⟩
  · obtain ⟨_,played⟩ := tabled.plays wired selecting []
    refine ⟨_,scripts sets,fun k few => ?_⟩
    obtain ⟨reached,ran,also⟩ := played k few
    rw [List.append_nil,List.append_nil] at also
    exact ⟨reached,ran,also⟩
  · intro entry fault after selected failed
    obtain ⟨ended,played⟩ := tabled.plays wired selecting [entry.controls]
    obtain ⟨reached,ran,also⟩ := played sets.length (Nat.le_refl _)
    refine ⟨_,scripts _,?_,?_⟩
    · obtain rfl : reached = last := Outcome.done.inj (ran.symm.trans selecting.ticks)
      rwa [List.drop_length,List.nil_append] at also
    · rw [ended.tick_script wired selected,failed]

/-- A count of X, and then a crash. -/
def stumbling : List Entry :=
  [⟨⟨0,"stumble",.none,""⟩,0,∅,.ofList (Layout.standard.controller.counter.increment ::
      Layout.standard.x.increment.toList)⟩,
    ⟨⟨0,"stumble",.none,""⟩,1,∅,.ofList [Layout.standard.root.crash]⟩]

theorem stumbling_played : ∃ driven last after,
    withTable .standard (.ofSorted stumbling) [0] oneByte = .ok driven ∧ driven.ticks 1 = .done last ∧
    last.tick = .stopped (.crashed 1) after ∧
    ∃ sets scripted, sets.length = 1 ∧ Selecting driven sets last ∧
      withScript .standard (sets ++ [stumbling[1].controls]) [0] oneByte = .ok scripted ∧
      scripted.ticks 1 = .done (last.scriptedBy [stumbling[1].controls]) ∧
      (last.scriptedBy [stumbling[1].controls]).tick =
        .stopped (.crashed 1) (after.scriptedBy [stumbling[1].controls]) := by
  have valid : oneByte.validate = .ok () := by decide +kernel
  have fits : oneByte.admits [(0 : UInt8)].length = .ok () := by decide
  have made := withTable_ok Layout.build_eq (.ofSorted stumbling) valid fits
  have ran : ∃ last ∈ (((Moment.initial (.byTable (.ofSorted stumbling) 0) [0] oneByte).computer
      .standard oneByte 0).ticks 1).result.toOption,
      last.selected? = some stumbling[1] ∧ last.tick.fault? = some (.crashed 1) := by
    decide +kernel
  simp only [except_mem_toOption,Outcome.result_eq_ok] at ran
  obtain ⟨last,ran,selected,crashes⟩ := ran
  obtain ⟨after,failed⟩ : ∃ after, last.tick = .stopped (.crashed 1) after := by
    cases ticked : last.tick with
    | done next =>
      rw [ticked] at crashes
      cases crashes
    | stopped fault after =>
      rw [ticked] at crashes
      cases crashes
      exact ⟨after,rfl⟩
  obtain ⟨selects,plays⟩ := script_follows_table Layout.build_eq made
  obtain ⟨sets,length,selecting⟩ := selects 1 last ran
  obtain ⟨scripted,written,played,stops⟩ := (plays sets last selecting).2 _ _ after selected failed
  rw [length] at played
  exact ⟨_,last,after,made,ran,failed,sets,scripted,length,selecting,written,played,stops⟩

end Computer

end Microprogram

import Microprogram.Proofs.Computer.Implementation
import Microprogram.Proofs.Computer.MemoryMap
import Microprogram.Proofs.Computer.Phases
import Microprogram.Proofs.Computer.Tables
import Microprogram.Proofs.Part.Arbitration

/-! Buses never collide and are never read open. Compiled entries give each bus that is
read one writer, a part stands behind every writer, and nothing is asserted between
cycles, so that the check of microcode holds at run time. -/
namespace Microprogram

/-- The buses carry what the asserted outlets put there, and only that. -/
structure Carries (lines : Asserted) (outlets : List Outlet) (driven : Driven) : Prop where
  held : ∀ bus drive, driven.get? bus = some drive →
    ∃ outlet ∈ outlets, outlet.tap.write ∈ lines ∧ outlet.tap.bus = bus ∧ drive.setter = outlet.setter
  offered : ∀ outlet ∈ outlets, outlet.tap.write ∈ lines →
    ∃ drive, driven.get? outlet.tap.bus = some drive

theorem Arbitrated.carries {hw : Registry} {lines : Asserted} {outlets : List Outlet} {driven : Driven}
    (settled : Arbitrated hw lines outlets driven) : Carries lines outlets driven := by
  refine ⟨?_,?_⟩
  · intro bus drive found
    obtain ⟨outlet,member,raised,rfl⟩ := settled.held bus drive found
    obtain ⟨decl,value,_,_,held⟩ := settled.offered outlet member raised
    cases found.symm.trans held
    exact ⟨outlet,member,raised,rfl,rfl⟩
  · intro outlet member raised
    obtain ⟨decl,value,_,_,held⟩ := settled.offered outlet member raised
    exact ⟨_,held⟩

def Fault.OfMemory (fault : Fault) : Prop := ∃ error, fault = .memory error

def Fault.ofBus : Fault → Bool
  | busConflict _ _ _ => true
  | openBus _ _ => true
  | _ => false

def Fault.ofPart : Fault → Bool
  | memory _ => true
  | aluConflict _ => true
  | crashed _ => true
  | _ => false

theorem Fault.not_ofBus {fault : Fault} (part : fault.ofPart = true) : fault.ofBus = false := by
  cases fault with
  | busConflict _ _ _ => cases part
  | openBus _ _ => cases part
  | _ => rfl

namespace Contents
variable {hw : Layout}

theorem outlets_setters (s : Contents) :
    (s.outlets hw).map (fun outlet => (outlet.tap.write,outlet.setter)) = hw.setters := rfl

theorem process_fault {s : Contents} {number : Nat} {lines : Asserted} {fault : Fault}
    (failed : s.process hw number lines = .error fault) : fault.ofPart = true := by
  unfold process at failed
  split at failed
  · cases failed
    rfl
  · cases operated : (s.aluUnit hw).operate lines s.lines with
    | ok result =>
      rw [operated] at failed
      cases failed
    | error other =>
      rw [operated] at failed
      cases failed
      unfold AluUnit.operate at operated
      dsimp only at operated
      split at operated <;> cases operated
      rfl

theorem outlet_fault (s : Contents) {outlet : Outlet} (member : outlet ∈ s.outlets hw) {fault : Fault}
    (failed : outlet.value = .error fault) : fault.OfMemory := by
  have registers : ∀ outlet ∈ s.outlets hw, (∃ value, outlet.value = .ok value) ∨
      outlet.value = ((MemoryMap.read s.regions s.address).mapError Fault.memory).map UInt8.toUInt16 := by
    simp [outlets,RegisterLines.outlet]
  rcases registers outlet member with ⟨value,given⟩ | read
  · rw [given] at failed
    cases failed
  · rw [read] at failed
    cases found : MemoryMap.read s.regions s.address with
    | ok byte =>
      rw [found] at failed
      cases failed
    | error error =>
      rw [found] at failed
      cases failed
      exact ⟨error,rfl⟩

section Sound
variable (wired : hw.Wired) {lines : ControlSet} (sound : BusSound hw.hardware lines)
include wired sound

private theorem outlets_alone (s : Contents) {before after : List Outlet} {outlet : Outlet}
    (whole : s.outlets hw = before ++ outlet :: after) (raised : outlet.tap.write ∈ lines) :
    ∀ earlier ∈ before, earlier.tap.write ∈ lines → earlier.tap.bus ≠ outlet.tap.bus := by
  intro earlier member asserted same
  have taps : hw.taps = before.map Outlet.tap ++ outlet.tap :: after.map Outlet.tap := by
    rw [← s.outlets_taps,whole,List.map_append,List.map_cons]
  have first : earlier.tap ∈ hw.taps := by
    rw [taps]
    exact List.mem_append_left _ (List.mem_map_of_mem member)
  have second : outlet.tap ∈ hw.taps := by
    rw [taps]
    exact List.mem_append_right _ List.mem_cons_self
  have equal := sound.single _ asserted _ raised outlet.tap.bus (same ▸ wired.write_line _ first)
    (wired.write_line _ second)
  have distinct := wired.writes_apart
  rw [taps,List.map_append,List.map_cons,List.nodup_append] at distinct
  exact distinct.2.2 _ (List.mem_map_of_mem (List.mem_map_of_mem member)) _ List.mem_cons_self equal

private theorem offers_carry (s : Contents) {before after : List Outlet}
    (whole : s.outlets hw = before ++ after) (driven : Driven)
    (settled : Arbitrated hw.hardware lines before driven) :
    match after.foldlM (Outlet.offer hw.hardware lines) driven with
    | .ok reached => Arbitrated hw.hardware lines (s.outlets hw) reached
    | .error fault => fault.OfMemory := by
  induction after generalizing before driven with
  | nil =>
    rw [whole,List.append_nil]
    exact settled
  | cons outlet rest ih =>
    have shifted : s.outlets hw = (before ++ [outlet]) ++ rest := by
      rw [whole,List.append_assoc]
      rfl
    rw [List.foldlM_cons]
    by_cases raised : outlet.tap.write ∈ lines
    · cases given : outlet.value with
      | error fault =>
        rw [Outlet.offer,if_pos ((SortedSet.contains_iff _ _).mpr raised),given]
        exact s.outlet_fault (by rw [whole]; simp) given
      | ok value =>
        have tapped : outlet.tap ∈ hw.taps := by
          rw [← s.outlets_taps,whole]
          simp
        obtain ⟨decl,declared⟩ := wired.bus_declared _ tapped
        have opened : driven.get? outlet.tap.bus = none := by
          rw [← Option.not_isSome_iff_eq_none,Option.isSome_iff_exists]
          rintro ⟨drive,held⟩
          obtain ⟨earlier,member,asserted,same⟩ := settled.held _ drive held
          exact outlets_alone wired sound s whole raised earlier member asserted same
        rw [(Outlet.offer_raised raised).mpr ⟨decl,value,declared,given,by simp [opened],rfl⟩,
          except_ok_bind]
        exact ih shifted _ (settled.add raised opened declared given)
    · rw [Outlet.offer_silent raised,except_ok_bind]
      exact ih shifted driven (settled.skip raised)

/-- The write phase leaves every bus with the value of its one writer, or memory fails. -/
theorem drive_carries (s : Contents) :
    match s.drive hw lines with
    | .ok driven => Carries lines (s.outlets hw) driven
    | .error fault => fault.OfMemory := by
  have offered := offers_carry wired sound s (List.nil_append _).symm ∅ ⟨by simp,by simp⟩
  rw [drive]
  split
  next reached =>
    rw [reached] at offered
    exact offered.carries
  next reached =>
    rw [reached] at offered
    exact offered

theorem sense_carried {s : Contents} {driven : Driven} (carries : Carries lines (s.outlets hw) driven)
    {tap : Tap} (member : tap ∈ hw.taps) (reader : String) :
    ∃ taken, tap.sense reader hw.hardware lines driven = .ok taken := by
  unfold Tap.sense
  split
  next raised =>
    obtain ⟨writer,inside,writes⟩ := sound.written tap.read ((SortedSet.contains_iff _ _).mp raised)
      tap.bus (wired.read_line tap member)
    obtain ⟨source,listed,rfl⟩ := wired.writer writer tap.bus writes
    have same : source.bus = tap.bus := by
      have acts := wired.write_line source listed
      rw [writes,Option.some.injEq,ControlAction.write.injEq] at acts
      exact acts.symm
    rw [← s.outlets_taps] at listed
    obtain ⟨outlet,offering,rfl⟩ := List.mem_map.mp listed
    obtain ⟨drive,held⟩ := carries.offered outlet offering inside
    rw [same] at held
    obtain ⟨decl,found⟩ := wired.bus_declared tap member
    exact ⟨some drive.value,by rw [Registry.sense_ok.mpr ⟨decl,drive,found,held,rfl⟩]; rfl⟩
  · exact ⟨none,rfl⟩

theorem load_carried {s : Contents} {driven : Driven} (carries : Carries lines (s.outlets hw) driven)
    {fault : Fault} (failed : s.load hw lines driven = .error fault) : fault.OfMemory := by
  let taken (tap : Tap) (reader : String) : Option UInt16 :=
    (tap.sense reader hw.hardware lines driven).toOption.join
  have senses (tap : Tap) (reader : String) (member : tap ∈ hw.taps) :
      tap.sense reader hw.hardware lines driven = .ok (taken tap reader) := by
    obtain ⟨value,given⟩ := sense_carried wired sound carries member reader
    dsimp only [taken]
    rw [given]
    rfl
  have registers (r : RegisterLines) (member : r.tap ∈ hw.taps) :
      r.sense hw.hardware lines driven = .ok (taken r.tap r.path) := senses r.tap r.path member
  unfold load at failed
  rw [registers hw.controller.opcode,registers hw.a,registers hw.x,registers hw.y,
    registers hw.alu.lhs,registers hw.alu.rhs,registers hw.alu.result,senses hw.statusRegister.tap,
    registers hw.pc,registers hw.buffer,registers hw.high,registers hw.low,
    senses hw.memory.tap,registers hw.memory.address] at failed
  · simp only [except_ok_bind] at failed
    generalize taken hw.memory.tap hw.memory.path = cell at failed
    cases cell with
    | none => cases failed
    | some byte =>
      unfold MemoryMap.storeTaken at failed
      cases wrote : MemoryMap.write s.regions s.address byte.toUInt8 with
      | ok regions =>
        simp only [wrote,Except.mapError,except_ok_bind] at failed
        cases failed
      | error error =>
        simp only [wrote,Except.mapError] at failed
        cases failed
        exact ⟨error,rfl⟩
  all_goals simp [Layout.taps]

theorem cycle_fault {s : Contents} {number : Nat} {fault : Fault}
    (failed : s.cycle hw number lines = .error fault) : fault.ofPart = true := by
  have carries := drive_carries wired sound s
  unfold cycle at failed
  cases drove : s.drive hw lines with
  | error first =>
    rw [drove] at failed carries
    cases failed
    obtain ⟨error,rfl⟩ := carries
    rfl
  | ok driven =>
    rw [drove] at failed carries
    rw [except_ok_bind] at failed
    cases loaded : s.load hw lines driven with
    | error second =>
      rw [loaded] at failed
      cases failed
      obtain ⟨error,rfl⟩ := load_carried wired sound carries loaded
      rfl
    | ok t =>
      rw [loaded,except_ok_bind] at failed
      cases processed : t.process hw number lines with
      | error third =>
        rw [processed] at failed
        cases failed
        exact process_fault processed
      | ok u =>
        rw [processed] at failed
        cases failed

end Sound
end Contents

namespace Computer

/-- Lines that share the buses of a computer. No bus has two writers among them, and where
a bus is read, the owner of a writer puts a value there in the write phase, unless memory
fails first. -/
structure SharesBuses (c : Computer) (lines : ControlSet) : Prop where
  single : ∀ line ∈ lines, ∀ other ∈ lines, ∀ bus,
    c.machine.hardware.actionOf line = some (.write bus) →
      c.machine.hardware.actionOf other = some (.write bus) → line = other
  answered : ∀ line ∈ lines, ∀ bus, c.machine.hardware.actionOf line = some (.read bus) →
    ∃ writer ∈ lines, c.machine.hardware.actionOf writer = some (.write bus) ∧
      match (Part.reactAll c.machine.hardware .write c.machine.cycle c.machine.parts
        { c.machine.signals with asserted := lines }).result with
      | .ok (_,signals) => ∃ drive, signals.driven.get? bus = some drive ∧
          c.machine.hardware.ownerPath writer = some drive.setter
      | .error fault => fault.OfMemory

end Computer

namespace Moment
variable {hw : Layout}

theorem computer_shares (wired : hw.Wired) (config : Config) (saved : UInt16) (m : Moment)
    {lines : ControlSet} (sound : BusSound hw.hardware lines) :
    (m.computer hw config saved).SharesBuses lines := by
  refine ⟨sound.single,?_⟩
  intro line member bus reads
  obtain ⟨writer,inside,writes⟩ := sound.written line member bus reads
  refine ⟨writer,inside,writes,?_⟩
  have outlets : (parts hw m.driver saved [] m.contents).flatMap Part.outlets =
      m.contents.outlets hw := by
    cases m.driver <;> rfl
  have phase : (Part.reactAll hw.hardware .write m.cycle (parts hw m.driver saved [] m.contents)
      ⟨lines,m.contents.lines,[],∅⟩).result = (m.contents.drive hw lines).map fun driven =>
        (parts hw m.driver saved [] m.contents,⟨lines,m.contents.lines,[],driven⟩) := by
    rw [Part.reactAll_write,outlets]
    rfl
  have carries := m.contents.drive_carries wired sound
  change match (Part.reactAll hw.hardware .write m.cycle (parts hw m.driver saved [] m.contents)
      ⟨lines,m.contents.lines,[],∅⟩).result with
    | .ok (_,signals) => ∃ drive, signals.driven.get? bus = some drive ∧
        hw.hardware.ownerPath writer = some drive.setter
    | .error fault => fault.OfMemory
  rw [phase]
  cases drove : m.contents.drive hw lines with
  | error fault =>
    rw [drove] at carries
    exact carries
  | ok driven =>
    rw [drove] at carries
    obtain ⟨source,listed,rfl⟩ := wired.writer writer bus writes
    rw [← m.contents.outlets_taps] at listed
    obtain ⟨outlet,offering,rfl⟩ := List.mem_map.mp listed
    have onBus (other : Outlet) (member : other ∈ m.contents.outlets hw) :
        hw.hardware.actionOf other.tap.write = some (.write other.tap.bus) :=
      wired.write_line _ (m.contents.outlets_taps ▸ List.mem_map_of_mem member)
    obtain rfl : outlet.tap.bus = bus :=
      ControlAction.write.inj (Option.some.inj ((onBus outlet offering).symm.trans writes))
    obtain ⟨drive,held⟩ := carries.offered outlet offering inside
    obtain ⟨other,found,asserted,same,set⟩ := carries.held _ drive held
    have equal := sound.single _ asserted _ inside _ (same ▸ onBus other found) writes
    refine ⟨drive,held,?_⟩
    rw [← equal,set]
    exact wired.setter (other.tap.write,other.setter)
      (m.contents.outlets_setters ▸ List.mem_map_of_mem found)

theorem Reaches.table {start m : Moment} (reached : start.Reaches hw m) {table : ControlTable}
    (first : ∃ step, start.driver = .byTable table step) : ∃ step, m.driver = .byTable table step := by
  refine reached.keeps (fun m => ∃ step, m.driver = .byTable table step) first ?_
  rintro ⟨driver,number,s⟩ after ⟨step,rfl⟩ stepped
  obtain ⟨controls,_,stepped⟩ := except_bind_ok.mp stepped
  obtain ⟨asserted,_,stepped⟩ := except_bind_ok.mp stepped
  obtain ⟨contents,_,ended⟩ := except_bind_ok.mp stepped
  cases ended
  exact ⟨_,rfl⟩

theorem next_fault (wired : hw.Wired) {entries : List Entry}
    (sound : ∀ entry ∈ entries, BusSound hw.hardware entry.controls) {step : UInt8} {number : Nat}
    {s : Contents} {fault : Fault}
    (failed : next hw ⟨.byTable (.ofSorted entries) step,number,s⟩ = .error fault) :
    fault.ofBus = false := by
  cases found : (ControlTable.ofSorted entries).lookup s.opcode step s.lines.contains with
  | none =>
    have chosen : Driver.choose s.opcode s.lines (.byTable (.ofSorted entries) step) =
        .error (.missingEntry s.opcode step) := by
      simp only [Driver.choose]
      rw [found]
    unfold next at failed
    dsimp only at failed
    rw [chosen] at failed
    cases failed
    rfl
  | some entry =>
    have shares := sound entry (ControlTable.lookup_some found).1
    have chosen : Driver.choose s.opcode s.lines (.byTable (.ofSorted entries) step) =
        .ok entry.controls := by
      simp only [Driver.choose]
      rw [found]
    have declared : ∀ line ∈ entry.controls, line.index < hw.hardware.controls.size := by
      intro line member
      obtain ⟨action,acts⟩ := shares.declared line member
      exact Registry.control_declared acts
    rw [next_of_choice (m := ⟨.byTable (.ofSorted entries) step,number,s⟩) chosen declared] at failed
    cases cycled : s.cycle hw number entry.controls with
    | ok t =>
      dsimp only at failed
      rw [cycled] at failed
      cases failed
    | error other =>
      dsimp only at failed
      rw [cycled] at failed
      cases failed
      exact Fault.not_ofBus (s.cycle_fault wired shares cycled)

end Moment

/-- Whatever microcode compiles, the computer that runs its table never fails on a bus,
and every entry that it selects shares the buses. -/
theorem Computer.compiled_shares_buses {hw : Layout} (built : Layout.build = .ok hw)
    {catalog : Catalog} {drafts : List Draft} {table : ControlTable}
    (compiled : (Computer.compiler hw catalog).compile drafts = .ok table)
    {program : List UInt8} {config : Config} (valid : config.validate = .ok ())
    (fits : config.admits program.length = .ok ()) :
    ∃ start, Computer.withTable hw table program config = .ok start ∧
      ∀ c, Computer.Reachable start c →
        (∀ fault after, c.tick = .stopped fault after → fault.ofBus = false) ∧
        ∀ entry, c.selected? = some entry → c.SharesBuses entry.controls := by
  have wired := Layout.build_wired built
  obtain ⟨sorted,sound⟩ := Compiler.compile_sound
    wired.counter_line compiled
  refine ⟨_,Computer.withTable_ok built table valid fits,?_⟩
  intro c reachable
  obtain ⟨m,saved,rfl,reached⟩ := Moment.reachable_moment wired reachable
  obtain ⟨step,driven⟩ := reached.table ⟨0,rfl⟩
  obtain ⟨driver,number,s⟩ := m
  subst driven
  refine ⟨?_,?_⟩
  · intro fault after stopped
    rw [Moment.tick_computer wired] at stopped
    cases stepped : Moment.next hw ⟨.byTable table step,number,s⟩ with
    | ok later =>
      rw [stepped] at stopped
      cases stopped
    | error other =>
      rw [stepped] at stopped
      cases stopped
      rw [sorted] at stepped
      exact Moment.next_fault wired sound stepped
  · intro entry found
    rw [Moment.entry_computer wired,sorted] at found
    exact Moment.computer_shares wired _ _ _ (sound entry (ControlTable.lookup_some found).1)

/-- Loads 7 into A, adds 5 to it, stores the sum at address 1 and halts. -/
def Computer.summing : List UInt8 := [0x10,0x07,0x30,0x05,0x18,0x00,0x01,0x00]

theorem Computer.summing_stores {design : Design} {plain joined : Program} {split merged : ControlTable}
    (compiles : design.Compiles plain joined split merged) (built : Design.build = .ok design) :
    design.Shows merged (.initial (.byTable merged 0) summing {})
      ⟨0x0c,0,0,0,0x8007,false,({} : Config).answer summing [(0x0001,0x0c)]⟩ := by
  have fits : ({} : Config).admits summing.length = .ok () := rfl
  have memory : MemoryMap.read (regionsOf summing {}) = ({} : Config).answer summing [] :=
    Config.read_regionsOf (by decide)
  have begins : design.Shows merged (.initial (.byTable merged 0) summing {})
      ⟨0,0,0,0,0x8000,false,({} : Config).answer summing []⟩ :=
    ⟨0,_,.start,congrArg (View.mk 0 0 0 0 0x8000 false) memory⟩
  have loads : design.Shows merged (.initial (.byTable merged 0) summing {})
      ⟨0x07,0,0,0,0x8002,false,({} : Config).answer summing []⟩ :=
    begins.next compiles built fits rfl (d := ⟨0x10,"lda",.immediate,"Load A with immediate value"⟩)
      (by simp [descriptors]) (by decide) rfl
      (Meaning.accesses_immediate (.inr (by decide)) (by simp)) rfl
  have adds : design.Shows merged (.initial (.byTable merged 0) summing {})
      ⟨0x0c,0,0,0,0x8004,false,({} : Config).answer summing []⟩ :=
    loads.next compiles built fits rfl
      (d := ⟨0x30,"adc",.immediate,"Add immediate to A with carry"⟩)
      (by simp [descriptors]) (by decide) rfl
      (Meaning.accesses_immediate (.inr (by decide)) (by simp)) rfl
  have writable : ({} : Config).Writable 0x0001 := by
    unfold Config.Writable
    decide
  refine adds.next compiles built fits rfl (d := ⟨0x18,"sta",.absolute,"Store A to memory"⟩)
    (by simp [descriptors]) (by decide) rfl
    ⟨fun _ i bound => .inr ?_,fun reads => absurd reads Bool.false_ne_true,fun _ _ address found => ?_⟩ ?_
  · obtain rfl | rfl : i = 0 ∨ i = 1 := Nat.le_one_iff_eq_zero_or_eq_one.mp (Nat.le_of_lt_succ bound)
    · decide
    · decide
  · obtain rfl : 0x0001 = address := Except.ok.inj found
    exact writable
  · rw [Config.answer_cons summing [] writable]
    rfl

/-- The microcode of the computer shares the buses when it loads, adds and stores. -/
theorem Computer.microcode_shares_buses : ∃ design table start, Computer.Design.build = .ok design ∧
    design.compiler.compile design.drafts = .ok table ∧
    Computer.withTable design.layout table summing {} = .ok start ∧
      (∃ c, Computer.Reachable start c ∧ c.view? =
        some ⟨0x0c,0,0,0,0x8007,false,({} : Config).answer summing [(0x0001,0x0c)]⟩) ∧
      ∀ c, Computer.Reachable start c →
        (∀ fault after, c.tick = .stopped fault after → fault.ofBus = false) ∧
        ∀ entry, c.selected? = some entry → c.SharesBuses entry.controls := by
  obtain ⟨design,built⟩ := Computer.Design.build_total
  obtain ⟨plain,joined,split,table,compiles,_,compiled⟩ := Computer.Design.compiles built
  have valid : ({} : Config).validate = .ok () := by decide +kernel
  have fits : ({} : Config).admits summing.length = .ok () := rfl
  obtain ⟨start,made,shares⟩ := Computer.compiled_shares_buses compiles.layout compiled valid fits
  obtain rfl := Except.ok.inj ((withTable_ok compiles.layout table valid fits).symm.trans made)
  obtain ⟨number,s,reached,seen⟩ := summing_stores compiles built
  obtain ⟨after,reachable⟩ := reached.reachable compiles.wired {} 0
  exact ⟨design,table,_,built,compiled,made,⟨_,reachable,
    (Moment.view_computer compiles.wired {} after _).trans (congrArg some seen)⟩,shares⟩

end Microprogram

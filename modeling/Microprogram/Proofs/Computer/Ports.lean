import Mathlib.Data.List.Nodup
import Microprogram.Proofs.Computer.Phases
import Microprogram.Proofs.Sorted.Map

/-! Transfers. A cycle that asserts one write line and one read line of a bus moves a
value from the one port to the other and changes nothing else. -/
namespace Microprogram

/-- A place of the computer that has a tap. -/
inductive Port
  | opcode
  | a
  | x
  | y
  | lhs
  | rhs
  | result
  | status
  | pc
  | buffer
  | high
  | low
  | memory
  | address
deriving DecidableEq

namespace Port

def all : List Port :=
  [opcode,a,x,y,lhs,rhs,result,status,pc,buffer,high,low,memory,address]

theorem mem_all (port : Port) : port ∈ all := by cases port <;> decide

def tap (hw : Layout) : Port → Tap
  | opcode => hw.controller.opcode.tap
  | a => hw.a.tap
  | x => hw.x.tap
  | y => hw.y.tap
  | lhs => hw.alu.lhs.tap
  | rhs => hw.alu.rhs.tap
  | result => hw.alu.result.tap
  | status => hw.statusRegister.tap
  | pc => hw.pc.tap
  | buffer => hw.buffer.tap
  | high => hw.high.tap
  | low => hw.low.tap
  | memory => hw.memory.tap
  | address => hw.memory.address.tap

def path (hw : Layout) : Port → String
  | opcode => hw.controller.opcode.path
  | a => hw.a.path
  | x => hw.x.path
  | y => hw.y.path
  | lhs => hw.alu.lhs.path
  | rhs => hw.alu.rhs.path
  | result => hw.alu.result.path
  | status => hw.statusRegister.path
  | pc => hw.pc.path
  | buffer => hw.buffer.path
  | high => hw.high.path
  | low => hw.low.path
  | memory => hw.memory.path
  | address => hw.memory.address.path

/-- The value that a port offers on its bus. -/
def offered (s : Contents) : Port → Except Fault UInt16
  | opcode => .ok s.opcode.toUInt16
  | a => .ok s.a.toUInt16
  | x => .ok s.x.toUInt16
  | y => .ok s.y.toUInt16
  | lhs => .ok s.lhs.toUInt16
  | rhs => .ok s.rhs.toUInt16
  | result => .ok s.result.toUInt16
  | status => .ok s.status.toUInt16
  | pc => .ok s.pc
  | buffer => .ok s.buffer
  | high => .ok (s.buffer >>> 8).toUInt8.toUInt16
  | low => .ok s.buffer.toUInt8.toUInt16
  | memory => ((MemoryMap.read s.regions s.address).mapError Fault.memory).map UInt8.toUInt16
  | address => .ok s.address

def store (hw : Layout) (value : UInt16) (s : Contents) : Port → Except Fault Contents
  | opcode => .ok { s with opcode := value.toUInt8 }
  | a => .ok { s with a := value.toUInt8 }
  | x => .ok { s with x := value.toUInt8 }
  | y => .ok { s with y := value.toUInt8 }
  | lhs => .ok { s with lhs := value.toUInt8 }
  | rhs => .ok { s with rhs := value.toUInt8 }
  | result => .ok { s with result := value.toUInt8 }
  | status => .ok { s with
      status := value.toUInt8, lines := postAll (s.shows hw value.toUInt8) s.lines }
  | pc => .ok { s with pc := value }
  | buffer => .ok { s with buffer := value }
  | high => .ok { s with buffer := value <<< 8 ||| (s.buffer &&& 0x00ff) }
  | low => .ok { s with buffer := (s.buffer &&& 0xff00) ||| (value &&& 0x00ff) }
  | memory => ((MemoryMap.write s.regions s.address value.toUInt8).mapError Fault.memory).map
      fun regions => { s with regions }
  | address => .ok { s with address := value }

variable {hw : Layout}

theorem tap_mem (port : Port) : port.tap hw ∈ hw.taps := List.mem_map_of_mem (mem_all port)

theorem outlets_eq (s : Contents) :
    s.outlets hw = all.map fun port => ⟨port.tap hw,port.path hw,port.offered s⟩ := rfl

section Apart
variable (wired : hw.Wired) {port other : Port}
include wired

theorem write_inj (same : (port.tap hw).write = (other.tap hw).write) : port = other := by
  have apart : (all.map fun port => (port.tap hw).write).Nodup := wired.writes_apart
  exact List.inj_on_of_nodup_map apart (mem_all port) (mem_all other) same

theorem read_inj (same : (port.tap hw).read = (other.tap hw).read) : port = other := by
  have apart : (all.map fun port => (port.tap hw).read).Nodup := wired.reads_apart
  exact List.inj_on_of_nodup_map apart (mem_all port) (mem_all other) same

theorem read_ne_write : (port.tap hw).read ≠ (other.tap hw).write := by
  intro same
  have reads := wired.read_line _ port.tap_mem
  rw [same,wired.write_line _ other.tap_mem] at reads
  cases reads

end Apart
end Port

namespace Contents
variable {hw : Layout}

/-- What the ports take, and what they keep where they take nothing. -/
def receive (hw : Layout) (taken : Port → Option UInt16) (s : Contents) : Except Fault Contents := do
  let regions ← MemoryMap.storeTaken s.regions s.address (taken .memory)
  return {
    opcode := byteTaken (taken .opcode) s.opcode
    a := byteTaken (taken .a) s.a
    x := byteTaken (taken .x) s.x
    y := byteTaken (taken .y) s.y
    lhs := byteTaken (taken .lhs) s.lhs
    rhs := byteTaken (taken .rhs) s.rhs
    result := byteTaken (taken .result) s.result
    status := byteTaken (taken .status) s.status
    pc := (taken .pc).getD s.pc
    buffer := (stored (taken .low) WordRegister.withLow (stored (taken .high) WordRegister.withHigh
      { s.bufferUnit hw with value := (taken .buffer).getD s.buffer })).value
    address := (taken .address).getD s.address
    regions
    lines := (taken .status).elim s.lines fun value => postAll (s.shows hw value.toUInt8) s.lines }

theorem load_receive {lines : Asserted} {driven : Driven} {taken : Port → Option UInt16}
    (senses : ∀ port : Port, (port.tap hw).sense (port.path hw) hw.hardware lines driven =
      .ok (taken port)) (s : Contents) : s.load hw lines driven = s.receive hw taken := by
  have register (r : RegisterLines) (port : Port) (tap : port.tap hw = r.tap) (path : port.path hw = r.path) :
      r.sense hw.hardware lines driven = .ok (taken port) := by
    refine Eq.trans ?_ (senses port)
    rw [tap,path]
    rfl
  unfold load
  rw [register hw.controller.opcode .opcode rfl rfl,register hw.a .a rfl rfl,register hw.x .x rfl rfl,
    register hw.y .y rfl rfl,register hw.alu.lhs .lhs rfl rfl,register hw.alu.rhs .rhs rfl rfl,
    register hw.alu.result .result rfl rfl,
    show hw.statusRegister.tap.sense hw.statusRegister.path hw.hardware lines driven = _ from
      senses .status,
    register hw.pc .pc rfl rfl,register hw.buffer .buffer rfl rfl,register hw.high .high rfl rfl,
    register hw.low .low rfl rfl,
    show hw.memory.tap.sense hw.memory.path hw.hardware lines driven = _ from senses .memory,
    register hw.memory.address .address rfl rfl]
  rfl

theorem load_senses {lines : Asserted} {driven : Driven} {s t : Contents}
    (loaded : s.load hw lines driven = .ok t) : ∃ taken : Port → Option UInt16,
      (∀ port : Port, (port.tap hw).sense (port.path hw) hw.hardware lines driven = .ok (taken port)) ∧
        s.receive hw taken = .ok t := by
  obtain ⟨opcode,tookOpcode,rest⟩ := except_bind_ok.mp loaded
  obtain ⟨a,tookA,rest⟩ := except_bind_ok.mp rest
  obtain ⟨x,tookX,rest⟩ := except_bind_ok.mp rest
  obtain ⟨y,tookY,rest⟩ := except_bind_ok.mp rest
  obtain ⟨lhs,tookLhs,rest⟩ := except_bind_ok.mp rest
  obtain ⟨rhs,tookRhs,rest⟩ := except_bind_ok.mp rest
  obtain ⟨result,tookResult,rest⟩ := except_bind_ok.mp rest
  obtain ⟨status,tookStatus,rest⟩ := except_bind_ok.mp rest
  obtain ⟨pc,tookPc,rest⟩ := except_bind_ok.mp rest
  obtain ⟨buffer,tookBuffer,rest⟩ := except_bind_ok.mp rest
  obtain ⟨high,tookHigh,rest⟩ := except_bind_ok.mp rest
  obtain ⟨low,tookLow,rest⟩ := except_bind_ok.mp rest
  obtain ⟨cell,tookCell,rest⟩ := except_bind_ok.mp rest
  obtain ⟨regions,stores,rest⟩ := except_bind_ok.mp rest
  obtain ⟨address,tookAddress,_⟩ := except_bind_ok.mp rest
  let taken : Port → Option UInt16
    | .opcode => opcode
    | .a => a
    | .x => x
    | .y => y
    | .lhs => lhs
    | .rhs => rhs
    | .result => result
    | .status => status
    | .pc => pc
    | .buffer => buffer
    | .high => high
    | .low => low
    | .memory => cell
    | .address => address
  have senses (port : Port) :
      (port.tap hw).sense (port.path hw) hw.hardware lines driven = .ok (taken port) := by
    cases port <;> assumption
  exact ⟨taken,senses,load_receive senses s ▸ loaded⟩

theorem receive_one (dst : Port) (value : UInt16) (s : Contents) :
    s.receive hw (fun port => if port = dst then some value else none) = dst.store hw value s := by
  cases dst
  case memory =>
    change (MemoryMap.write s.regions s.address value.toUInt8).mapError Fault.memory >>= _ =
      ((MemoryMap.write s.regions s.address value.toUInt8).mapError Fault.memory).map _
    cases MemoryMap.write s.regions s.address value.toUInt8 <;> rfl
  all_goals rfl

private theorem offers_silent {lines : ControlSet} {outlets : List Outlet}
    (silent : ∀ outlet ∈ outlets, outlet.tap.write ∉ lines) (driven : Driven) :
    outlets.foldlM (Outlet.offer hw.hardware lines) driven = .ok driven := by
  induction outlets with
  | nil => rfl
  | cons outlet rest ih =>
    obtain ⟨first,others⟩ := List.forall_mem_cons.mp silent
    rw [List.foldlM_cons,Outlet.offer,
      if_neg fun raised => first ((SortedSet.contains_iff _ _).mp raised),except_ok_bind]
    exact ih others

section Alone
variable (wired : hw.Wired) {lines : ControlSet}

theorem drive_one {src : Port} (raised : (src.tap hw).write ∈ lines)
    (alone : ∀ port : Port, port ≠ src → (port.tap hw).write ∉ lines) (s : Contents) :
    s.drive hw lines = src.offered s >>= fun value =>
      hw.hardware.drive (src.tap hw).bus value (src.path hw) ∅ := by
  obtain ⟨before,after,whole⟩ := List.append_of_mem (Port.mem_all src)
  have apart : (before ++ src :: after).Nodup := whole ▸ (by decide)
  rw [List.nodup_append,List.nodup_cons] at apart
  have silent {ports : List Port} (other : src ∉ ports) : ∀ outlet ∈ ports.map fun port =>
      (⟨port.tap hw,port.path hw,port.offered s⟩ : Outlet), outlet.tap.write ∉ lines := by
    intro outlet member
    obtain ⟨port,inside,rfl⟩ := List.mem_map.mp member
    exact alone port fun same => other (same ▸ inside)
  unfold drive
  rw [Port.outlets_eq,whole,List.map_append,List.map_cons,List.foldlM_append,
    offers_silent (silent fun inside => apart.2.2 src inside src List.mem_cons_self rfl),
    except_ok_bind,List.foldlM_cons,Outlet.offer,if_pos ((SortedSet.contains_iff _ _).mpr raised)]
  rw [bind_congr fun driven => offers_silent (silent apart.2.1.1) driven]
  exact bind_pure _

include wired

/-- A cycle with one write line and one read line of a bus moves a value. -/
theorem cycle_copy {src dst : Port} (shared : (src.tap hw).bus = (dst.tap hw).bus)
    {decl : BusDecl} (declared : hw.hardware.bus? (src.tap hw).bus = some decl)
    (members : ∀ line, line ∈ lines ↔ line = (src.tap hw).write ∨ line = (dst.tap hw).read)
    (number : Nat) (s : Contents) :
    s.cycle hw number lines = src.offered s >>= fun value => dst.store hw (decl.fit value) s := by
  have drives := drive_one ((members _).mpr (.inl rfl)) (fun port other inside => by
    rcases (members _).mp inside with same | same
    · exact other (Port.write_inj wired same)
    · exact Port.read_ne_write wired same.symm) s
  have moved (value : UInt16) : hw.hardware.drive (src.tap hw).bus value (src.path hw) ∅ =
      .ok ((∅ : Driven).insert (src.tap hw).bus ⟨decl.fit value,src.path hw⟩) := by
    simp only [Registry.drive,Registry.busAt,Registry.findBus,Registry.bus,declared,Registry.known,
      Except.mapError,except_ok_bind,pure_bind]
    rfl
  have loads (value : UInt16) : s.load hw lines
      ((∅ : Driven).insert (src.tap hw).bus ⟨decl.fit value,src.path hw⟩) =
        dst.store hw (decl.fit value) s := by
    rw [← receive_one]
    refine load_receive (fun port => ?_) s
    unfold Tap.sense
    by_cases same : port = dst
    · subst same
      rw [if_pos ((SortedSet.contains_iff _ _).mpr ((members _).mpr (.inr rfl))),if_pos rfl,← shared]
      simp only [Registry.sense,Registry.busAt,Registry.findBus,Registry.bus,declared,Registry.known,
        Except.mapError,except_ok_bind,SortedMap.get?_insert_self]
      rfl
    · rw [if_neg,if_neg same]
      rw [SortedSet.contains_iff,members]
      rintro (clash | clash)
      · exact Port.read_ne_write wired clash
      · exact same (Port.read_inj wired clash)
  have silent (phase : Phase) (later : phase ≠ .write ∧ phase ≠ .read) : hw.SilentIn phase lines := by
    intro line inside _ phased
    rcases (members line).mp inside with rfl | rfl
    · rw [Registry.phaseOf_of_action (wired.write_line _ src.tap_mem),Option.some.injEq] at phased
      exact later.1 phased.symm
    · rw [Registry.phaseOf_of_action (wired.read_line _ dst.tap_mem),Option.some.injEq] at phased
      exact later.2 phased.symm
  unfold cycle
  rw [drives,bind_assoc]
  refine bind_congr fun value => ?_
  rw [moved,except_ok_bind,loads]
  simp only [process_silent wired (silent .process (by decide)),except_ok_bind,
    settle_silent wired (silent .clear (by decide))]
  exact bind_pure _

end Alone
end Contents
end Microprogram

import Microprogram.Proofs.Computer.Mapping
import Microprogram.Proofs.Computer.Ports
import Microprogram.Proofs.Computer.Rest

/-! The memory map over whole runs. RAM holds what was stored last, ROM holds the program, and
nothing else answers, whatever the ticks are and however many of them fail. -/
namespace Microprogram

/-- The sixteen-bit arithmetic on an address of a region does not wrap around. -/
structure Region.Exact (region : Region) (address : UInt16) : Prop where
  above : region.base ≤ address
  offset : (address - region.base).toNat = address.toNat - region.base.toNat
  inside : address.toNat - region.base.toNat < region.size
  back : region.base.toNat + (address.toNat - region.base.toNat) < 0x10000
  same : region.base + UInt16.ofNat (address.toNat - region.base.toNat) = address

theorem Region.exact_of_contains {region : Region} {address : UInt16}
    (inside : region.contains address = true) : region.Exact address := by
  obtain ⟨above,below⟩ := (region.contains_iff address).mp inside
  have low := address.toNat_lt
  have above' : region.base ≤ address := UInt16.le_iff_toNat_le.mpr above
  have offset : (address - region.base).toNat = address.toNat - region.base.toNat :=
    UInt16.toNat_sub_of_le _ _ above'
  refine ⟨above',offset,?_,by omega,?_⟩
  · rw [size]
    omega
  · rw [← offset,UInt16.ofNat_toNat,UInt16.add_comm]
    exact UInt16.sub_add_cancel _ _

namespace MemoryMap

/-- No access to a region leaves it, and no arithmetic on its addresses wraps around. -/
structure Bounded (regions : MemoryMap) : Prop where
  reads : ∀ address offset size, read regions address ≠ .error (.outOfRange offset size)
  writes : ∀ address value offset size,
    write regions address value ≠ .error (.outOfRange offset size)
  exact : ∀ region ∈ regions, ∀ address, region.contains address = true → region.Exact address

theorem bounded (regions : MemoryMap) : regions.Bounded := by
  refine ⟨?_,?_,fun _ _ _ => Region.exact_of_contains⟩
  · intro address offset size
    induction regions with
    | nil => simp [read]
    | cons region rest ih =>
      rw [read_cons]
      split
      next inside =>
        rw [Region.read,Array.getElem?_eq_getElem (Region.exact_of_contains inside).inside]
        simp
      next => exact ih
  · intro address value offset size
    induction regions with
    | nil => simp [write]
    | cons region rest ih =>
      rw [write]
      split
      next inside =>
        rw [Ne,except_map_error,Region.write]
        split <;> simp [(Region.exact_of_contains inside).inside]
      next => rwa [Ne,except_map_error]

end MemoryMap

theorem Memory.store_refused {m : Memory} {value : UInt8} {error : MemoryError}
    (refused : m.write m.address.value value = .error error) :
    m.store value = .stopped (.memory error) m := by
  unfold store
  dsimp only
  split
  next other unread =>
    have same := MemoryMap.write_of_read_error unread value
    rw [write,same] at refused
    cases refused
    rfl
  next => rw [refused]

theorem Computer.image_cell {program : List UInt8} {size place : Nat}
    (inside : place < (image program size).size) :
    (image program size)[place]? = some (program.getD place 0) := by
  rw [Array.getElem?_eq_getElem inside]
  simp only [image,Array.getElem_append,List.size_toArray,List.getElem_toArray,
    Array.getElem_replicate]
  split
  next low => simp [low]
  next high => simp [Nat.le_of_not_gt high]

namespace Config
variable {config : Config} {regions : MemoryMap} {address : UInt16}

instance (config : Config) (address : UInt16) : Decidable (config.InRom address) :=
  inferInstanceAs (Decidable (_ ∧ _))

/-- What an address holds after some stores, of which the last comes first. -/
def answer (config : Config) (program : List UInt8) (stores : List (UInt16 × UInt8))
    (address : UInt16) : Except MemoryError UInt8 :=
  if address.toNat < config.ramSize then .ok ((stores.lookup address).getD 0)
  else if config.InRom address then
    .ok (program.getD (address.toNat - config.romBase.toNat) 0)
  else .error (.unmapped address)

theorem answer_cons (program : List UInt8) (stores : List (UInt16 × UInt8))
    (writable : config.Writable address) (value : UInt8) :
    config.answer program ((address,value) :: stores) =
      Function.update (config.answer program stores) address (.ok value) := by
  funext other
  by_cases same : other = address
  · have low : address.toNat < config.ramSize := writable
    rw [same,Function.update_self,answer,if_pos low]
    simp
  · rw [Function.update_of_ne same,answer,answer,List.lookup_cons,beq_false_of_ne same]

theorem Places.writable (places : config.Places regions) {value : UInt8} {after : MemoryMap}
    (wrote : MemoryMap.write regions address value = .ok after) : config.Writable address := by
  obtain ⟨ram,rom,rfl,ramSize,romSize⟩ := places
  rw [MemoryMap.write] at wrote
  split at wrote
  next inside => exact (contains_ram ramSize).mp inside
  next =>
    obtain ⟨others,stored,_⟩ := except_map_ok.mp wrote
    rw [MemoryMap.write] at stored
    split at stored
    · obtain ⟨changed,refused,_⟩ := except_map_ok.mp stored
      cases (Region.write_eq_ok.mp refused).1
    · cases stored

theorem Places.readOnly (places : config.Places regions) (apart : ¬config.Writable address)
    (stored : config.InRom address) (value : UInt8) :
    MemoryMap.write regions address value = .error (.readOnly address) := by
  obtain ⟨ram,rom,rfl,ramSize,romSize⟩ := places
  have high := (contains_rom romSize).mpr stored
  rw [MemoryMap.write,if_neg (mt (contains_ram ramSize).mp apart),MemoryMap.write,if_pos high,
    Region.write]
  dsimp only
  rw [(Region.exact_of_contains high).same]
  rfl

theorem Places.unmapped (places : config.Places regions) (apart : ¬config.Mapped address) :
    MemoryMap.read regions address = .error (.unmapped address) := by
  obtain ⟨ram,rom,rfl,ramSize,romSize⟩ := places
  rw [MemoryMap.read_cons,if_neg (mt (contains_ram ramSize).mp fun low => apart (.inl low)),
    MemoryMap.read_cons,if_neg (mt (contains_rom romSize).mp fun high => apart (.inr high))]
  rfl

theorem read_regionsOf {program : List UInt8} (fits : program.length ≤ config.romSize) :
    MemoryMap.read (Computer.regionsOf program config) = config.answer program [] := by
  funext address
  have size := Computer.image_size program config.romSize fits
  rw [Computer.regionsOf,MemoryMap.read_cons,MemoryMap.read_cons,answer]
  by_cases writable : config.Writable address
  · have low : address.toNat < config.ramSize := writable
    rw [if_pos ((contains_ram Array.size_replicate).mpr writable),if_pos low]
    simp [Region.read,low]
  · rw [if_neg (mt (contains_ram Array.size_replicate).mp writable),
      if_neg (show ¬address.toNat < config.ramSize from writable)]
    by_cases stored : config.InRom address
    · have inside := (contains_rom size).mpr stored
      have bound := (Region.exact_of_contains inside).inside
      rw [if_pos inside,if_pos stored,Region.read]
      dsimp only
      rw [Computer.image_cell bound]
    · rw [if_neg (mt (contains_rom size).mp stored),if_neg stored]
      rfl

theorem read_entryPoint {program : List UInt8} (valid : config.validate = .ok ())
    (fits : config.admits program.length = .ok ()) :
    MemoryMap.read (Computer.regionsOf program config) config.entryPoint =
      .ok (program.getD (config.entryPoint.toNat - config.romBase.toNat) 0) := by
  obtain ⟨_,_,apart,_,low,high⟩ := validate_ok valid
  have above := UInt16.le_iff_toNat_le.mp low
  have beyond : ¬config.entryPoint.toNat < config.ramSize := by omega
  have stored : config.InRom config.entryPoint := ⟨low,high⟩
  rw [read_regionsOf (admits_ok fits),answer,if_neg beyond,if_pos stored]

/-- RAM and ROM share no address, and both lie in the address space. -/
structure Separate (config : Config) : Prop where
  apart : ∀ n < config.ramSize, ¬(config.romBase.toNat ≤ n ∧ n < config.romEnd)
  ram : config.ramSize ≤ 0x10000
  rom : config.romEnd ≤ 0x10000

/-- Memory takes writes to RAM and refuses all others, which leave it as it is. -/
structure Guards (config : Config) (m : Memory) : Prop where
  writable : ∀ address value, config.Writable address → ∃ after,
    m.write address value = .ok after ∧ after.read = Function.update m.read address (.ok value)
  readOnly : ∀ address value, config.InRom address →
    m.write address value = .error (.readOnly address) ∧
      (m.withAddress address).store value =
        .stopped (.memory (.readOnly address)) (m.withAddress address)
  unmapped : ∀ address value, ¬config.Mapped address →
    m.write address value = .error (.unmapped address) ∧
      (m.withAddress address).store value =
        .stopped (.memory (.unmapped address)) (m.withAddress address)
  fits : ∀ region ∈ m.regions, region.base.toNat + region.size ≤ 0x10000

theorem separate_of_validate (valid : config.validate = .ok ()) :
    config.Separate := by
  obtain ⟨_,_,apart,rom,_⟩ := validate_ok valid
  have base := config.romBase.toNat_lt
  refine ⟨?_,by omega,rom⟩
  intro n low
  omega

theorem Places.guards {m : Memory} (separate : config.Separate)
    (places : config.Places m.regions) : config.Guards m := by
  have refuses {address : UInt16} {value : UInt8} {error : MemoryError}
      (refused : MemoryMap.write m.regions address value = .error error) :
      m.write address value = .error error ∧ (m.withAddress address).store value =
        .stopped (.memory error) (m.withAddress address) := by
    refine ⟨except_map_error.mpr refused,Memory.store_refused ?_⟩
    exact except_map_error.mpr refused
  refine ⟨?_,?_,?_,?_⟩
  · intro address value writable
    obtain ⟨after,wrote⟩ := places.writes writable value
    exact ⟨_,except_map_ok.mpr ⟨after,wrote,rfl⟩,MemoryMap.read_write wrote⟩
  · intro address value stored
    refine refuses (places.readOnly ?_ stored value)
    intro low
    exact separate.apart _ low ⟨UInt16.le_iff_toNat_le.mp stored.1,stored.2⟩
  · intro address value apart
    exact refuses (MemoryMap.write_of_read_error (places.unmapped apart) value)
  · obtain ⟨ram,rom,regions,ramSize,romSize⟩ := places
    have low := separate.ram
    have high := separate.rom
    rw [regions]
    simpa [Region.size,ramSize,romSize] using ⟨low,high⟩

end Config

namespace Computer

/-- The lines of a tick, and what its buses carry once they have been written. -/
def signals? (c : Computer) : Option Signals :=
  ((Outcome.each (Machine.runPhase c.machine.hardware c.machine.cycle) [.control,.write]
    (c.machine.parts,c.machine.signals)).result.map Prod.snd).toOption

/-- The store that a tick makes, unless it fails: the low byte of the bus at the address held. -/
def stored? (c : Computer) : Option (UInt16 × UInt8) := do
  let m ← c.memory?
  let signals ← c.signals?
  let taken ← (m.tap.sense m.path c.layout.hardware signals.asserted signals.driven).toOption
  taken.map fun word => (m.address.value,word.toUInt8)

/-- The stores of the ticks that did not fail, the last one first. -/
def stores (c : Computer) : Nat → List (UInt16 × UInt8)
  | 0 => []
  | ticks + 1 =>
    match (c.after ticks).tick with
    | .done _ => (c.after ticks).stored?.toList ++ c.stores ticks
    | .stopped _ _ => c.stores ticks

end Computer

namespace Moment
variable {hw : Layout} (wired : hw.Wired) {m next : Moment}

theorem signals_computer (config : Config) (saved : UInt16) (m : Moment) :
    (m.computer hw config saved).signals? = ((m.computer hw config saved).asserted >>= fun lines =>
      (m.contents.drive hw lines).map fun driven =>
        (⟨lines,m.contents.lines,[],driven⟩ : Signals)).toOption := by
  rw [asserted_computer]
  unfold Computer.signals?
  rw [Outcome.result_each,List.foldlM_cons]
  change (((Machine.runPhase hw.hardware m.cycle .control
    (parts hw m.driver saved [] m.contents,⟨∅,m.contents.lines,[],∅⟩)).result >>= _).map _).toOption = _
  rw [phase_control]
  cases m.driver.choose m.contents.opcode m.contents.lines >>= _ with
  | error fault => rfl
  | ok lines =>
    change (((Machine.runPhase hw.hardware m.cycle .write
      (parts hw m.driver.drawn saved [] m.contents,⟨lines,m.contents.lines,[],∅⟩)).result >>= _).map
        _).toOption = _
    rw [phase_write,except_ok_bind]
    cases m.contents.drive hw lines <;> rfl

include wired

theorem stored_computer (config : Config) (saved : UInt16) (stepped : m.next hw = .ok next) :
    ∃ taken : Option UInt16,
      (m.computer hw config saved).stored? =
        taken.map (fun word => (m.contents.address,word.toUInt8)) ∧
      MemoryMap.storeTaken m.contents.regions m.contents.address taken =
        .ok next.contents.regions := by
  obtain ⟨controls,chosen,stepped⟩ := except_bind_ok.mp stepped
  obtain ⟨lines,asserted,stepped⟩ := except_bind_ok.mp stepped
  obtain ⟨t,cycled,ended⟩ := except_bind_ok.mp stepped
  cases ended
  obtain ⟨driven,taken,driving,senses,stores⟩ := Contents.cycle_regions cycled
  refine ⟨taken,?_,stores⟩
  rw [Computer.stored?,memory_computer wired,signals_computer,asserted_computer,chosen,
    except_ok_bind,asserted,except_ok_bind,driving]
  change ((hw.memory.tap.sense hw.memory.path hw.hardware lines driven).toOption >>= _) = _
  rw [senses]
  rfl

/-- What memory answers after a tick is what was stored in it. -/
theorem next_answers {config : Config} {program : List UInt8} {stores : List (UInt16 × UInt8)}
    (saved : UInt16) (places : config.Places m.contents.regions)
    (answers : MemoryMap.read m.contents.regions = config.answer program stores)
    (stepped : m.next hw = .ok next) : config.Places next.contents.regions ∧
      MemoryMap.read next.contents.regions =
        config.answer program ((m.computer hw config saved).stored?.toList ++ stores) := by
  obtain ⟨taken,stored,written⟩ := stored_computer wired config saved stepped
  rw [stored]
  cases taken with
  | none =>
    have same : m.contents.regions = next.contents.regions := Except.ok.inj written
    exact ⟨same ▸ places,same ▸ answers⟩
  | some word =>
    have wrote := except_mapError_ok.mp written
    refine ⟨places.write wrote,?_⟩
    rw [MemoryMap.read_write wrote,answers]
    exact (Config.answer_cons program stores (places.writable wrote) _).symm

theorem answers_after {config : Config} {program : List UInt8} (saved : UInt16)
    (places : config.Places m.contents.regions)
    (answers : MemoryMap.read m.contents.regions = config.answer program []) (ticks : Nat) :
    ∃ (t : Moment) (address : UInt16),
      (m.computer hw config saved).after ticks = t.computer hw config address ∧
      config.Places t.contents.regions ∧ MemoryMap.read t.contents.regions =
        config.answer program ((m.computer hw config saved).stores ticks) := by
  -- a tick that fails has put its moment back, and its store is not among those that count
  induction ticks with
  | zero => exact ⟨m,saved,rfl,places,answers⟩
  | succ ticks ih =>
    obtain ⟨t,address,reached,places,answers⟩ := ih
    rw [Computer.after,Computer.stores,reached,t.tick_computer wired]
    cases stepped : t.next hw with
    | error fault => exact ⟨t,_,rfl,places,answers⟩
    | ok after =>
      obtain ⟨places,answers⟩ := next_answers wired address places answers stepped
      exact ⟨after,_,rfl,places,answers⟩

end Moment

namespace Computer
variable {hw : Layout} {config : Config} {program : List UInt8}

theorem peek_after (built : Layout.build = .ok hw) (valid : config.validate = .ok ())
    (admitted : config.admits program.length = .ok ()) (driver : Driver) {start : Computer}
    (assembled : assemble hw (driver.part hw 0) program config = .ok start) (ticks : Nat) :
    (start.after ticks).peek = config.answer program (start.stores ticks) ∧
      ∃ m, (start.after ticks).memory? = some m ∧ config.Guards m := by
  have wired := Layout.build_wired built
  obtain rfl := assemble_driver built driver assembled
  obtain ⟨t,address,reached,places,answers⟩ := Moment.answers_after wired
    (m := .initial driver program config) 0 (Config.places_initial admitted)
    (Config.read_regionsOf (Config.admits_ok admitted)) ticks
  have held := t.memory_computer wired config address
  rw [reached]
  refine ⟨?_,_,held,Config.Places.guards (Config.separate_of_validate valid) places⟩
  rw [← answers]
  funext place
  rw [peek,held]
  rfl

/-- RAM and ROM are disjoint. At each address of RAM there is what the ticks so far have stored
last, at each address of ROM the byte of the program, and at no other address anything. Writes
elsewhere than to RAM are refused, and no arithmetic on addresses goes wrong. -/
theorem memory_map_kept (built : Layout.build = .ok hw) (valid : config.validate = .ok ())
    (fits : program.length ≤ config.romSize) :
    config.Separate ∧ (∀ regions : MemoryMap, regions.Bounded) ∧
    (∀ table, ∃ start, withTable hw table program config = .ok start) ∧
    (∀ script, ∃ start, withScript hw script program config = .ok start) ∧
    ∀ start, ((∃ table, withTable hw table program config = .ok start) ∨
        ∃ script, withScript hw script program config = .ok start) →
      ∀ ticks, (start.after ticks).peek = config.answer program (start.stores ticks) ∧
        ∃ m, (start.after ticks).memory? = some m ∧ config.Guards m := by
  have admitted : config.admits program.length = .ok () := if_neg (Nat.not_lt.mpr fits)
  have assembles (driver : Driver) := assemble_ok built driver valid admitted
  refine ⟨Config.separate_of_validate valid,MemoryMap.bounded,?_,?_,?_⟩
  · intro table
    exact ⟨_,assembles (.byTable table 0)⟩
  · intro script
    exact ⟨_,assembles (.byScript script)⟩
  · intro start made ticks
    obtain ⟨table,assembled⟩ | ⟨script,assembled⟩ := made
    · exact peek_after built valid admitted (.byTable table 0) assembled ticks
    · exact peek_after built valid admitted (.byScript script) assembled ticks

/-- Stores one in the only byte of RAM, then two in a tick that crashes. -/
def storingScript : List ControlSet :=
  let store := [Layout.standard.x.tap.write,Layout.standard.memory.tap.read]
  [.ofList Layout.standard.x.increment.toList,.ofList store,
    .ofList Layout.standard.x.increment.toList,.ofList (Layout.standard.root.crash :: store)]

/-- The store of the tick that crashes is taken back. -/
theorem storing_keeps : ∃ start, withScript .standard storingScript [7] oneByte = .ok start ∧
    start.stores 4 = [(0,1)] ∧ (start.after 3).tick.fault? = some (.crashed 3) ∧
    (start.after 4).peek 0 = .ok 1 ∧ (start.after 4).peek 0x8000 = .ok 7 ∧
    (start.after 4).peek 1 = .error (.unmapped 1) := by
  let first : Moment := .initial (.byScript storingScript) [7] oneByte
  let start := first.computer .standard oneByte 0
  have valid : oneByte.validate = .ok () := by decide +kernel
  have fits : [(7 : UInt8)].length ≤ oneByte.romSize := by decide
  have assembled : withScript .standard storingScript [7] oneByte = .ok start :=
    assemble_ok Layout.build_eq (.byScript _) valid (by decide +kernel)
  have stored : start.stores 4 = [(0,1)] := by decide +kernel
  have crashed : (start.after 3).tick.fault? = some (.crashed 3) := by decide +kernel
  obtain ⟨_,_,_,_,kept⟩ := memory_map_kept Layout.build_eq valid fits
  have answers := (kept start (.inr ⟨_,assembled⟩) 4).1
  rw [stored] at answers
  refine ⟨start,assembled,stored,crashed,?_⟩
  rw [answers]
  decide +kernel

end Computer
end Microprogram

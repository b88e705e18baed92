import Microprogram.Proofs.Computer.Observe

/-! The first moment of a computer, and the moments that follow it. A valid
configuration and a program that fits in ROM always give a computer. -/
namespace Microprogram

theorem Config.validate_ok {config : Config} (valid : config.validate = .ok ()) :
    isPowerOfTwo config.ramSize = true ∧ isPowerOfTwo config.romSize = true ∧
      config.ramSize ≤ config.romBase.toNat ∧ config.romEnd ≤ 0x10000 ∧
      config.romBase ≤ config.entryPoint ∧ config.entryPoint.toNat < config.romEnd := by
  unfold validate at valid
  split at valid; · cases valid
  next ram =>
    split at valid; · cases valid
    next rom =>
      split at valid; · cases valid
      next apart =>
        split at valid; · cases valid
        next inside =>
          split at valid; · cases valid
          next entry =>
            simp only [Bool.not_eq_true',Bool.not_eq_false,Bool.or_eq_true,decide_eq_true_eq,
              not_or] at ram rom apart inside entry
            exact ⟨ram,rom,Nat.le_of_not_gt apart,Nat.le_of_not_gt inside,
              UInt16.not_lt.mp entry.1,Nat.lt_of_not_le entry.2⟩

theorem Config.admits_ok {config : Config} {length : Nat} (fits : config.admits length = .ok ()) :
    length ≤ config.romSize := by
  unfold admits at fits
  split at fits
  · cases fits
  next small => exact Nat.le_of_not_gt small

namespace Computer

theorem image_size (program : List UInt8) (size : Nat) (fits : program.length ≤ size) :
    (image program size).size = size := by
  simp only [image,Array.size_append,List.size_toArray,Array.size_replicate]
  omega

/-- One byte of each memory. -/
def oneByte : Config := { ramSize := 1, romSize := 1 }

/-- RAM full of zeros below, the program in ROM above. -/
def regionsOf (program : List UInt8) (config : Config) : MemoryMap :=
  [⟨.ram,0,Array.replicate config.ramSize 0⟩,⟨.rom,config.romBase,image program config.romSize⟩]

theorem memoryMap_ok {program : List UInt8} {config : Config} (valid : config.validate = .ok ())
    (fits : config.admits program.length = .ok ()) :
    memoryMap program config = .ok (regionsOf program config) := by
  obtain ⟨ram,rom,_⟩ := Config.validate_ok valid
  have size := image_size program config.romSize (Config.admits_ok fits)
  unfold memoryMap Region.ram Region.rom
  rw [size,if_pos ram,if_pos rom]
  rfl

end Computer

def Contents.initial (program : List UInt8) (config : Config) : Contents where
  opcode := 0
  a := 0
  x := 0
  y := 0
  lhs := 0
  rhs := 0
  result := 0
  status := 0
  pc := config.entryPoint
  buffer := 0
  address := 0
  regions := Computer.regionsOf program config
  lines := ∅

def Moment.initial (driver : Driver) (program : List UInt8) (config : Config) : Moment :=
  ⟨driver,0,Contents.initial program config⟩

namespace Part

def claims (part : Part) : String × List ControlId × List StatusId :=
  (part.path,part.controls,part.statuses)

end Part

theorem verifyTopology_congr (hw : Registry) {parts others : List Part}
    (same : parts.map Part.claims = others.map Part.claims) :
    verifyTopology hw parts = verifyTopology hw others := by
  let claim (owners : Ownership) (claims : String × List ControlId × List StatusId) :
      Except StructuralError Ownership := do
    let owners ← claims.2.1.foldlM (Ownership.claimControl hw claims.1) owners
    claims.2.2.foldlM (Ownership.claimStatus hw claims.1) owners
  have claimed (parts : List Part) (owners : Ownership) :
      parts.foldlM (Ownership.claimPart hw) owners = (parts.map Part.claims).foldlM claim owners := by
    rw [List.foldlM_map]
    rfl
  unfold verifyTopology
  rw [claimed,claimed,same]

namespace Computer

private theorem standard_topology :
    verifyTopology Layout.standardHardware (Moment.parts Layout.standard (.byScript []) 0 []
      (Contents.initial [] {})) = .ok () := by
  have accepted : (verifyTopology Layout.standardHardware (Moment.parts Layout.standard (.byScript [])
      0 [] (Contents.initial [] {}))).isOk = true := by decide +kernel
  revert accepted
  generalize verifyTopology _ _ = verified
  rcases verified with _ | ⟨⟨⟩⟩
  · intro accepted
    cases accepted
  · exact fun _ => rfl

theorem assemble_ok {hw : Layout} (built : Layout.build = .ok hw) (driver : Driver)
    {program : List UInt8} {config : Config} (valid : config.validate = .ok ())
    (fits : config.admits program.length = .ok ()) :
    assemble hw (driver.part hw 0) program config =
      .ok ((Moment.initial driver program config).computer hw config 0) := by
  have halted : ∃ decl, hw.hardware.status hw.root.halted = .ok decl := by
    rw [Layout.build_eq] at built
    cases built
    exact ⟨_,rfl⟩
  have owned : verifyTopology hw.hardware (parts hw (driver.part hw 0) config (regionsOf program config)) =
      .ok () := by
    rw [Layout.build_eq] at built
    cases built
    refine (verifyTopology_congr _ ?_).trans standard_topology
    cases driver <;> rfl
  obtain ⟨decl,declared⟩ := halted
  unfold assemble Machine.assemble
  rw [valid,fits,memoryMap_ok valid fits]
  simp only [Except.mapError,except_ok_bind,declared,owned]
  cases driver <;> rfl

theorem withTable_ok {hw : Layout} (built : Layout.build = .ok hw) (table : ControlTable)
    {program : List UInt8} {config : Config} (valid : config.validate = .ok ())
    (fits : config.admits program.length = .ok ()) :
    withTable hw table program config =
      .ok ((Moment.initial (.byTable table 0) program config).computer hw config 0) :=
  assemble_ok built (.byTable table 0) valid fits

/-- The computers that ticks lead to, the ticks that fail included. -/
inductive Reachable (start : Computer) : Computer → Prop
  | start : Reachable start start
  | tick {c : Computer} (before : Reachable start c) : Reachable start c.tick.state

def after (c : Computer) : Nat → Computer
  | 0 => c
  | ticks + 1 => (c.after ticks).tick.state

end Computer

namespace Moment
variable {hw : Layout}

inductive Reaches (hw : Layout) (start : Moment) : Moment → Prop
  | start : Reaches hw start start
  | next {m after : Moment} (before : Reaches hw start m) (stepped : m.next hw = .ok after) :
      Reaches hw start after

theorem tick_computer (wired : hw.Wired) (config : Config) (saved : UInt16) (m : Moment) :
    (m.computer hw config saved).tick = match m.next hw with
      | .ok after => .done (after.computer hw config m.contents.address)
      | .error fault => .stopped fault (m.computer hw config m.contents.address) := by
  unfold Computer.tick computer
  dsimp only
  rw [m.tick_machine wired config saved]
  cases m.next hw <;> rfl

theorem tick_done (wired : hw.Wired) {config : Config} {saved : UInt16} {m : Moment} {c : Computer} :
    (m.computer hw config saved).tick = .done c ↔
      ∃ after, m.next hw = .ok after ∧ c = after.computer hw config m.contents.address := by
  rw [m.tick_computer wired]
  cases m.next hw <;> simp [eq_comm]

theorem tick_stopped (wired : hw.Wired) {config : Config} {saved : UInt16} {m : Moment} {fault : Fault}
    {c : Computer} : (m.computer hw config saved).tick = .stopped fault c ↔
      m.next hw = .error fault ∧ c = m.computer hw config m.contents.address := by
  rw [m.tick_computer wired]
  cases m.next hw <;> simp [eq_comm]

theorem reachable_moment (wired : hw.Wired) {config : Config} {saved : UInt16} {start : Moment}
    {c : Computer} (reached : Computer.Reachable (start.computer hw config saved) c) :
    ∃ m after, c = m.computer hw config after ∧ start.Reaches hw m := by
  induction reached with
  | start => exact ⟨start,saved,rfl,.start⟩
  | tick before ih =>
    obtain ⟨m,after,rfl,moment⟩ := ih
    rw [m.tick_computer wired config after]
    cases stepped : m.next hw with
    | ok later => exact ⟨later,m.contents.address,rfl,.next moment stepped⟩
    | error fault => exact ⟨m,m.contents.address,rfl,moment⟩

theorem Reaches.reachable (wired : hw.Wired) (config : Config) (saved : UInt16) {start m : Moment}
    (reached : start.Reaches hw m) :
    ∃ after, Computer.Reachable (start.computer hw config saved) (m.computer hw config after) := by
  induction reached with
  | start => exact ⟨saved,.start⟩
  | next before stepped ih =>
    obtain ⟨after,reached⟩ := ih
    have ticked := reached.tick
    rw [(tick_done wired).mpr ⟨_,stepped,rfl⟩] at ticked
    exact ⟨_,ticked⟩

theorem Reaches.keeps (kept : Moment → Prop) {start m : Moment} (reached : start.Reaches hw m)
    (first : kept start) (step : ∀ m after, kept m → m.next hw = .ok after → kept after) : kept m := by
  induction reached with
  | start => exact first
  | next before stepped ih => exact step _ _ ih stepped

end Moment
end Microprogram

import Microprogram.Proofs.Computer.Edits
import Microprogram.Proofs.Part.Arbitration

/-! The contract of a cycle. A cycle succeeds where every bus has at most one writer, and
one if it is read, where at most one operation is asserted, and where the memory takes what
is stored and the root does not crash. What the contents are then is one equation for each
of them in terms of what they were. -/
namespace Microprogram

section Halves

private theorem and_low (word : UInt16) : word &&& 0x00ff = word.toUInt8.toUInt16 := by
  rw [← UInt16.toNat_inj,UInt16.toNat_and,UInt8.toNat_toUInt16,UInt16.toNat_toUInt8]
  exact Nat.and_two_pow_sub_one_eq_mod _ 8

private theorem shiftLeft_low (word : UInt16) : word <<< 8 = word.toUInt8.toUInt16 <<< 8 := by
  have eight : (8 : UInt16).toNat % 16 = 8 := rfl
  simp only [← UInt16.toNat_inj,UInt16.toNat_shiftLeft,UInt8.toNat_toUInt16,UInt16.toNat_toUInt8,
    eight,Nat.shiftLeft_eq]
  omega

private theorem and_high (word : UInt16) :
    word &&& (0xff00 : UInt16) = (word >>> (8 : UInt16)).toUInt8.toUInt16 <<< (8 : UInt16) := by
  have upper : ∀ i, (bound : i < 16) → (0xff00#16)[i] = !decide (i < 8) := by decide
  rw [← UInt16.toBitVec_inj]
  simp only [UInt16.toBitVec_and,UInt16.toBitVec_shiftLeft,UInt16.toBitVec_shiftRight,
    UInt8.toBitVec_toUInt16,UInt16.toBitVec_toUInt8,UInt16.toBitVec_ofNat]
  ext i bound
  rw [BitVec.getElem_and,upper]
  by_cases low : i < 8
  · simp [low]
  · have place : 8 + (i - 8) = i := by omega
    have small : i - 8 < 8 := by omega
    simp [low,place,small,BitVec.getLsbD_eq_getElem bound]

theorem toNat_wordOf (high low : UInt8) : (wordOf high low).toNat = 256 * high.toNat + low.toNat := by
  have bound := high.toNat_lt
  have joined := Nat.shiftLeft_add_eq_or_of_lt low.toNat_lt high.toNat
  have eight : (8 : UInt16).toNat % 16 = 8 := rfl
  rw [wordOf,UInt16.toNat_or,UInt16.toNat_shiftLeft,UInt8.toNat_toUInt16,UInt8.toNat_toUInt16,eight,
    Nat.mod_eq_of_lt (by rw [Nat.shiftLeft_eq]; omega),← joined,Nat.shiftLeft_eq,Nat.mul_comm]

theorem wordOf_eq_iff {high low : UInt8} {word : UInt16} :
    wordOf high low = word ↔ high = (word >>> 8).toUInt8 ∧ low = word.toUInt8 := by
  have wide := word.toNat_lt
  have upper := high.toNat_lt
  have lower := low.toNat_lt
  have eight : (8 : UInt16).toNat % 16 = 8 := rfl
  simp only [← UInt16.toNat_inj,← UInt8.toNat_inj,toNat_wordOf,UInt16.toNat_toUInt8,
    UInt16.toNat_shiftRight,eight,Nat.shiftRight_eq_div_pow]
  omega

namespace WordRegister

theorem withHigh_value (byte : UInt16) (w : WordRegister) :
    (w.withHigh byte).value = wordOf byte.toUInt8 w.low := by
  rw [withHigh,shiftLeft_low,and_low]
  rfl

theorem withLow_value (byte : UInt16) (w : WordRegister) :
    (w.withLow byte).value = wordOf w.high byte.toUInt8 := by
  rw [withLow,and_high,and_low]
  rfl

theorem stored_halves (high low : Option UInt16) (w : WordRegister) :
    (stored low withLow (stored high withHigh w)).value =
      wordOf (byteTaken high w.high) (byteTaken low w.low) := by
  cases low with
  | none =>
    cases high with
    | none => exact (wordOf_eq_iff.mpr ⟨rfl,rfl⟩).symm
    | some upper => exact withHigh_value upper w
  | some lower =>
    refine (withLow_value lower _).trans (congrArg (wordOf · lower.toUInt8) ?_)
    cases high with
    | none => rfl
    | some upper => exact (wordOf_eq_iff.mp (withHigh_value upper w).symm).1.symm

end WordRegister
end Halves

namespace Layout

/-- The port that puts its value on a bus. -/
def source? (hw : Layout) (lines : Asserted) (bus : BusId) : Option Port :=
  Port.all.find? fun port => (port.tap hw).bus = bus && lines.contains (port.tap hw).write

def operation? (hw : Layout) (lines : Asserted) : Option Alu.Op :=
  Alu.Op.all.find? fun op => lines.contains (hw.alu.control op)

end Layout

namespace Contents
variable (hw : Layout) (lines : Asserted) (s : Contents)

/-- What a port takes: the value that the source of its bus held before the cycle. -/
def taken (port : Port) : Option UInt16 :=
  if lines.contains (port.tap hw).read then
    (hw.source? lines (port.tap hw).bus).bind fun src => (src.offered s).toOption
  else none

/-- The carry that an operation takes in: that of the byte read into the status register, or
the one shown before the cycle. Setting and clearing it in the same cycle comes too late. -/
def carryIn : Bool :=
  match s.taken hw lines .status with
  | some byte => byte.toUInt8 &&& StatusRegister.carryBit != 0
  | none => s.lines.contains hw.statusRegister.flags.carry

/-- The result and the flags of the ALU after a cycle. They stay without an operation, but for
a result that is read. -/
def computed : Alu.Output :=
  match hw.operation? lines with
  | some op => Alu.compute op (byteTaken (s.taken hw lines .lhs) s.lhs)
      (byteTaken (s.taken hw lines .rhs) s.rhs) (s.carryIn hw lines)
  | none => {
      value := byteTaken (s.taken hw lines .result) s.result
      carry := s.lines.contains hw.alu.flags.carry
      zero := s.lines.contains hw.alu.flags.zero
      negative := s.lines.contains hw.alu.flags.negative
      overflow := s.lines.contains hw.alu.flags.overflow }

/-- The status byte: what is read, with the carry set, then cleared, then the latched flags of
the ALU in its place. -/
def statusAfter : UInt8 :=
  let read := byteTaken (s.taken hw lines .status) s.status
  let set := if lines.contains hw.statusRegister.setCarry then read ||| 0x01 else read
  let cleared := if lines.contains hw.statusRegister.clearCarry then set &&& 0xfe else set
  if lines.contains hw.statusRegister.latch then (s.computed hw lines).flagByte else cleared

/-- The statuses of each part that posts in a cycle, as the cycle leaves them. -/
def posts : Staged :=
  (if lines.contains hw.root.halt then [(hw.root.halted,true)] else []) ++
  (if (hw.operation? lines).isSome then (s.aluUnit hw).reports (s.computed hw lines) else []) ++
  if hw.statusControls.any lines.contains then s.shows hw (s.statusAfter hw lines) else []

/-- The contents after a cycle that succeeds. -/
def successor : Contents :=
  let buffer := (s.taken hw lines .buffer).getD s.buffer
  { opcode := byteTaken (s.taken hw lines .opcode) s.opcode
    a := hw.a.count lines (byteTaken (s.taken hw lines .a) s.a)
    x := hw.x.count lines (byteTaken (s.taken hw lines .x) s.x)
    y := hw.y.count lines (byteTaken (s.taken hw lines .y) s.y)
    lhs := byteTaken (s.taken hw lines .lhs) s.lhs
    rhs := byteTaken (s.taken hw lines .rhs) s.rhs
    result := (s.computed hw lines).value
    status := s.statusAfter hw lines
    pc := hw.pc.count lines ((s.taken hw lines .pc).getD s.pc)
    buffer := wordOf (byteTaken (s.taken hw lines .high) (buffer >>> 8).toUInt8)
      (byteTaken (s.taken hw lines .low) buffer.toUInt8)
    address := hw.memory.address.count lines ((s.taken hw lines .address).getD s.address)
    regions := ((MemoryMap.storeTaken s.regions s.address (s.taken hw lines .memory)).toOption).getD
      s.regions
    lines := postAll (s.posts hw lines) s.lines }

/-- What a cycle asks of its lines and of the contents it begins with. -/
structure Admits : Prop where
  crash : hw.root.crash ∉ lines
  /-- No two ports put values on one bus. -/
  single : ∀ src other : Port, (src.tap hw).write ∈ lines → (other.tap hw).write ∈ lines →
    (src.tap hw).bus = (other.tap hw).bus → src = other
  offers : ∀ src : Port, (src.tap hw).write ∈ lines → ∃ value, src.offered s = .ok value
  /-- A port that reads takes the value of the one port that writes its bus. -/
  reads : ∀ port : Port, (port.tap hw).read ∈ lines → ∃ src value,
    (∀ other : Port, (other.tap hw).write ∈ lines ∧ (other.tap hw).bus = (port.tap hw).bus ↔ other = src) ∧
      src.offered s = .ok value ∧ s.taken hw lines port = some value
  operation : ∀ op other, hw.alu.control op ∈ lines → hw.alu.control other ∈ lines → op = other
  stores : ∃ regions, MemoryMap.storeTaken s.regions s.address (s.taken hw lines .memory) = .ok regions

end Contents

namespace Contents
variable {lines : Asserted} {s t u v : Contents} {driven : Driven}

attribute [ext] Contents

private theorem outlets_apart (s : Contents) :
    ((s.outlets Layout.standard).map Outlet.setter).Nodup := by
  change (Port.all.map (Port.path Layout.standard)).Nodup
  decide

private theorem mem_outlets (s : Contents) (port : Port) :
    ⟨port.tap Layout.standard,port.path Layout.standard,port.offered s⟩ ∈ s.outlets Layout.standard := by
  rw [Port.outlets_eq]
  exact List.mem_map_of_mem port.mem_all

theorem source_eq {hw : Layout} {bus : BusId} {src : Port} (sole : ∀ other : Port,
    (other.tap hw).write ∈ lines ∧ (other.tap hw).bus = bus ↔ other = src) :
    hw.source? lines bus = some src := by
  have answers (other : Port) : ((other.tap hw).bus = bus && lines.contains (other.tap hw).write) = true ↔
      other = src := by
    rw [Bool.and_eq_true,decide_eq_true_eq,SortedSet.contains_iff,and_comm,sole]
  unfold Layout.source?
  cases found : Port.all.find? _ with
  | none => exact absurd ((answers src).mpr rfl) (List.find?_eq_none.mp found src src.mem_all)
  | some other =>
    have chosen := List.find?_some found
    exact congrArg some ((answers other).mp chosen)

theorem taken_silent {hw : Layout} {port : Port} (silent : (port.tap hw).read ∉ lines) :
    s.taken hw lines port = none := if_neg (mt (SortedSet.contains_iff _ _).mp silent)

section Driven
variable (settled : Arbitrated Layout.standard.hardware lines (s.outlets Layout.standard) driven)
include settled

theorem settled_single {src other : Port} (raised : (src.tap Layout.standard).write ∈ lines)
    (also : (other.tap Layout.standard).write ∈ lines)
    (same : (src.tap Layout.standard).bus = (other.tap Layout.standard).bus) : src = other := by
  have equal := (settled.compatible s.outlets_apart).single _ (mem_outlets s src) raised _
    (mem_outlets s other) also same
  exact Port.write_inj Layout.standard_wired (congrArg (fun outlet => outlet.tap.write) equal)

theorem settled_offers {src : Port} (raised : (src.tap Layout.standard).write ∈ lines) :
    ∃ drive, driven.get? (src.tap Layout.standard).bus = some drive ∧ src.offered s = .ok drive.value := by
  obtain ⟨decl,value,declared,given,held⟩ := settled.offered _ (mem_outlets s src) raised
  obtain ⟨other,known,fits⟩ := src.offered_fits
  cases known.symm.trans declared
  exact ⟨_,held,given.trans (congrArg Except.ok (fits s value given).symm)⟩

theorem settled_reads {port : Port} {value : UInt16} {reader : String}
    (raised : (port.tap Layout.standard).read ∈ lines)
    (senses : Layout.standard.hardware.sense (port.tap Layout.standard).bus reader driven = .ok value) :
    ∃ src : Port, (∀ other : Port, (other.tap Layout.standard).write ∈ lines ∧
      (other.tap Layout.standard).bus = (port.tap Layout.standard).bus ↔ other = src) ∧
        src.offered s = .ok value ∧ s.taken Layout.standard lines port = some value := by
  obtain ⟨_,drive,_,held,rfl⟩ := Registry.sense_ok.mp senses
  obtain ⟨outlet,member,asserted,same⟩ := settled.held _ drive held
  rw [Port.outlets_eq] at member
  obtain ⟨src,_,rfl⟩ := List.mem_map.mp member
  have sole (other : Port) : (other.tap Layout.standard).write ∈ lines ∧
      (other.tap Layout.standard).bus = (port.tap Layout.standard).bus ↔ other = src := by
    constructor
    · rintro ⟨also,shared⟩
      exact settled_single settled also asserted (shared.trans same.symm)
    · rintro rfl
      exact ⟨asserted,same⟩
  obtain ⟨other,found,offers⟩ := settled_offers settled asserted
  rw [show (src.tap Layout.standard).bus = _ from same,held,Option.some.injEq] at found
  subst found
  refine ⟨src,sole,offers,?_⟩
  rw [taken,if_pos ((SortedSet.contains_iff _ _).mpr raised),source_eq sole,Option.bind_some,offers]
  rfl

theorem settled_taken {port : Port} {takes : Option UInt16} {reader : String}
    (senses : (port.tap Layout.standard).sense reader Layout.standard.hardware lines driven = .ok takes) :
    takes = s.taken Layout.standard lines port := by
  unfold Tap.sense at senses
  by_cases raised : (port.tap Layout.standard).read ∈ lines
  · rw [if_pos ((SortedSet.contains_iff _ _).mpr raised)] at senses
    obtain ⟨value,sensed,rfl⟩ := except_map_ok.mp senses
    obtain ⟨_,_,_,takes⟩ := settled_reads settled raised sensed
    exact takes.symm
  · rw [if_neg (mt (SortedSet.contains_iff _ _).mp raised)] at senses
    rw [taken_silent raised]
    exact (Except.ok.inj senses).symm

end Driven

theorem Admits.senses (admits : s.Admits Layout.standard lines)
    (settled : Arbitrated Layout.standard.hardware lines (s.outlets Layout.standard) driven) (port : Port) :
    (port.tap Layout.standard).sense (port.path Layout.standard) Layout.standard.hardware lines driven =
      .ok (s.taken Layout.standard lines port) := by
  unfold Tap.sense
  by_cases raised : (port.tap Layout.standard).read ∈ lines
  · obtain ⟨src,value,sole,offers,takes⟩ := admits.reads port raised
    obtain ⟨asserted,same⟩ := (sole src).mpr rfl
    obtain ⟨drive,held,given⟩ := settled_offers settled asserted
    obtain ⟨decl,declared⟩ := Layout.standard_wired.bus_declared _ src.tap_mem
    cases offers.symm.trans given
    rw [if_pos ((SortedSet.contains_iff _ _).mpr raised),takes,← same,
      Registry.sense_ok.mpr ⟨decl,drive,declared,held,rfl⟩]
    rfl
  · rw [if_neg (mt (SortedSet.contains_iff _ _).mp raised),taken_silent raised]

theorem operate_ok {statuses : SortedSet StatusId} {value : UInt8} {reports : Staged}
    (operated : (u.aluUnit Layout.standard).operate lines statuses = .ok (value,reports)) :
    (∀ op other, Layout.standard.alu.control op ∈ lines → Layout.standard.alu.control other ∈ lines →
      op = other) ∧
    match Layout.standard.operation? lines with
    | none => value = u.result ∧ reports = []
    | some op =>
      let out := Alu.compute op u.lhs u.rhs (statuses.contains Layout.standard.statusRegister.flags.carry)
      value = out.value ∧ reports = (u.aluUnit Layout.standard).reports out := by
  have among (op : Alu.Op) : op ∈ (u.aluUnit Layout.standard).selected lines ↔
      Layout.standard.alu.control op ∈ lines := by
    rw [← SortedSet.contains_iff]
    exact List.mem_filter.trans (and_iff_right (by cases op <;> decide))
  have first : Layout.standard.operation? lines =
      ((u.aluUnit Layout.standard).selected lines).head? := List.head?_filter.symm
  have counted : (u.aluUnit Layout.standard).count lines = u.aluUnit Layout.standard := rfl
  rw [AluUnit.operate,counted] at operated
  rw [first]
  simp only [← among]
  cases selected : (u.aluUnit Layout.standard).selected lines with
  | nil =>
    rw [selected] at operated
    cases operated
    exact ⟨fun op other member => absurd member List.not_mem_nil,rfl,rfl⟩
  | cons op rest =>
    cases rest with
    | nil =>
      rw [selected] at operated
      cases operated
      refine ⟨fun one other member also => ?_,rfl,rfl⟩
      rw [List.mem_singleton.mp member,List.mem_singleton.mp also]
    | cons other rest =>
      rw [selected] at operated
      cases operated

theorem operate_total (single : ∀ op other, Layout.standard.alu.control op ∈ lines →
    Layout.standard.alu.control other ∈ lines → op = other) (statuses : SortedSet StatusId) :
    ∃ done, (u.aluUnit Layout.standard).operate lines statuses = .ok done := by
  have among {op : Alu.Op} (member : op ∈ (u.aluUnit Layout.standard).selected lines) :
      Layout.standard.alu.control op ∈ lines := (SortedSet.contains_iff _ _).mp (List.mem_filter.mp member).2
  have counted : (u.aluUnit Layout.standard).count lines = u.aluUnit Layout.standard := rfl
  have distinct : ((u.aluUnit Layout.standard).selected lines).Nodup := List.Nodup.filter _ (by decide)
  rw [AluUnit.operate,counted]
  generalize (u.aluUnit Layout.standard).selected lines = selected at among distinct ⊢
  rcases selected with _ | ⟨op,_ | ⟨other,rest⟩⟩
  · exact ⟨_,rfl⟩
  · exact ⟨_,rfl⟩
  · have same := single op other (among (by simp)) (among (by simp))
    exact absurd (same ▸ List.mem_cons_self) (List.nodup_cons.mp distinct).1

section Posts
variable {hw : Layout}

private theorem posts_statuses : (s.posts hw lines).map Prod.fst =
    (if lines.contains hw.root.halt then [hw.root.halted] else []) ++
      (if (hw.operation? lines).isSome then hw.alu.flags.all else []) ++
        if hw.statusControls.any lines.contains then hw.statusRegister.flags.all else [] := by
  unfold posts
  rw [List.map_append,List.map_append,apply_ite (List.map Prod.fst),apply_ite (List.map Prod.fst),
    apply_ite (List.map Prod.fst)]
  rfl

theorem posts_apart (wired : hw.Wired) : ((s.posts hw lines).map Prod.fst).Nodup := by
  have part (condition : Prop) [Decidable condition] (statuses : List StatusId) :
      (if condition then statuses else []).Sublist statuses := by
    split
    · exact List.Sublist.refl _
    · exact List.nil_sublist _
  rw [posts_statuses]
  exact wired.statuses_apart.sublist (((part _ _).append (part _ _)).append (part _ _))

theorem mem_posts_of_alters {status : StatusId} (alters : hw.Alters lines status) :
    status ∈ (s.posts hw lines).map Prod.fst := by
  rw [posts_statuses,List.mem_append,List.mem_append]
  rcases alters with ⟨rfl,raised⟩ | ⟨flag,op,raised⟩ | ⟨flag,line,control,raised⟩
  · rw [if_pos ((SortedSet.contains_iff _ _).mpr raised)]
    exact .inl (.inl List.mem_cons_self)
  · have operates : (hw.operation? lines).isSome = true :=
      List.find?_isSome.mpr ⟨op,by cases op <;> decide,(SortedSet.contains_iff _ _).mpr raised⟩
    rw [if_pos operates]
    exact .inl (.inr flag)
  · have touched : hw.statusControls.any lines.contains = true :=
      List.any_eq_true.mpr ⟨line,control,(SortedSet.contains_iff _ _).mpr raised⟩
    rw [if_pos touched]
    exact .inr flag

end Posts

theorem received_carry (received : s.receive Layout.standard (s.taken Layout.standard lines) = .ok u) :
    u.lines.contains Layout.standard.statusRegister.flags.carry = s.carryIn Layout.standard lines := by
  obtain ⟨regions,_,ended⟩ := except_bind_ok.mp received
  cases ended
  unfold carryIn
  dsimp only
  cases s.taken Layout.standard lines .status with
  | none => rfl
  | some byte =>
    rw [Bool.eq_iff_iff,SortedSet.contains_iff]
    exact shows_posted (s := s) Layout.standard_wired byte.toUInt8 s.lines _ List.mem_cons_self

theorem operate_computed (received : s.receive Layout.standard (s.taken Layout.standard lines) = .ok u)
    {value : UInt8} {reports : Staged}
    (operated : (u.aluUnit Layout.standard).operate lines u.lines = .ok (value,reports)) :
    value = (s.computed Layout.standard lines).value ∧
      reports = if (Layout.standard.operation? lines).isSome then
        (s.aluUnit Layout.standard).reports (s.computed Layout.standard lines) else [] := by
  have carry := received_carry received
  obtain ⟨_,outcome⟩ := operate_ok operated
  obtain ⟨regions,_,ended⟩ := except_bind_ok.mp received
  cases ended
  unfold computed
  cases selected : Layout.standard.operation? lines with
  | none =>
    rw [selected] at outcome
    exact outcome
  | some op =>
    rw [selected] at outcome
    rw [← carry]
    exact outcome

section Phases
variable {number : Nat} (loaded : s.load Layout.standard lines driven = .ok u)
  (received : s.receive Layout.standard (s.taken Layout.standard lines) = .ok u)
  (processed : u.process Layout.standard number lines = .ok v)
include loaded received processed

theorem process_flags : ∀ pair ∈ (s.aluUnit Layout.standard).reports (s.computed Layout.standard lines),
    pair.1 ∈ v.lines ↔ pair.2 = true := by
  intro pair member
  have flag : pair.1 ∈ Layout.standard.alu.flags.all :=
    List.mem_map_of_mem (f := Prod.fst) member
  obtain ⟨fresh,apart⟩ := List.nodup_cons.mp Layout.standard_wired.statuses_apart
  have unshown : pair.1 ∉ Layout.standard.statusRegister.flags.all :=
    fun shown => (List.nodup_append.mp apart).2.2 _ flag _ shown rfl
  obtain ⟨value,reports,operated,_⟩ := process_ok processed
  obtain ⟨_,rfl⟩ := operate_computed received operated
  rw [process_apart unshown processed operated,postAll_append]
  cases selected : Layout.standard.operation? lines with
  | some op =>
    have distinct : (((s.aluUnit Layout.standard).reports (s.computed Layout.standard lines)).map
        Prod.fst).Nodup := (List.nodup_append.mp apart).1
    exact mem_postAll_of_mem distinct member _
  | none =>
    have running : ∀ write ∈ (if lines.contains Layout.standard.root.halt then
        [(Layout.standard.root.halted,true)] else []), write.1 ≠ pair.1 := by
      intro write halting same
      split at halting
      · obtain rfl := List.mem_singleton.mp halting
        have halted : Layout.standard.root.halted = pair.1 := same
        exact fresh (List.mem_append_left _ (halted ▸ flag))
      · contradiction
    refine (mem_postAll_apart running u.lines).trans ((load_apart unshown loaded).trans ?_)
    rw [← SortedSet.contains_iff]
    simp only [computed,selected,AluUnit.reports,List.mem_cons,List.not_mem_nil,or_false] at member
    rcases member with rfl | rfl | rfl | rfl <;> exact .rfl

theorem process_latched : (v.statusUnit Layout.standard).latched v.lines =
    (s.computed Layout.standard lines).flagByte := by
  have flag (status : StatusId) (value : Bool)
      (member : (status,value) ∈ (s.aluUnit Layout.standard).reports (s.computed Layout.standard lines)) :
      v.lines.contains status = value := by
    rw [Bool.eq_iff_iff,SortedSet.contains_iff]
    exact process_flags loaded received processed _ member
  have carry := flag Layout.standard.alu.flags.carry (s.computed Layout.standard lines).carry
    (by simp [AluUnit.reports,aluUnit])
  have zero := flag Layout.standard.alu.flags.zero (s.computed Layout.standard lines).zero
    (by simp [AluUnit.reports,aluUnit])
  have negative := flag Layout.standard.alu.flags.negative (s.computed Layout.standard lines).negative
    (by simp [AluUnit.reports,aluUnit])
  have overflow := flag Layout.standard.alu.flags.overflow (s.computed Layout.standard lines).overflow
    (by simp [AluUnit.reports,aluUnit])
  rw [Alu.Output.flagByte,← carry,← zero,← negative,← overflow]
  rfl

theorem settle_status : (v.settle Layout.standard lines).status = s.statusAfter Layout.standard lines := by
  have latched := process_latched loaded received processed
  obtain ⟨_,_,_,_,_,status,_⟩ := process_ok processed
  obtain ⟨regions,_,ended⟩ := except_bind_ok.mp received
  cases ended
  unfold settle statusAfter
  split
  · exact latched
  · exact status

theorem settle_lines (done : s.cycle Layout.standard number lines = .ok (v.settle Layout.standard lines)) :
    (v.settle Layout.standard lines).lines = postAll (s.posts Layout.standard lines) s.lines := by
  have wired := Layout.standard_wired
  have flags := process_flags loaded received processed
  have status := settle_status loaded received processed
  refine eq_postAll (posts_apart wired) (fun write member => ?_) fun status other =>
    cycle_unaltered done (mt mem_posts_of_alters other)
  rcases List.mem_append.mp member with member | shown
  · rcases List.mem_append.mp member with halting | reported
    · split at halting
      next raised =>
        obtain rfl := List.mem_singleton.mp halting
        exact iff_of_true ((cycle_halted wired done).mpr (.inl ((SortedSet.contains_iff _ _).mp raised))) rfl
      next => contradiction
    · split at reported
      next =>
        have flag : write.1 ∈ Layout.standard.alu.flags.all :=
          List.mem_map_of_mem (f := Prod.fst) reported
        have apart := (List.nodup_append.mp (List.nodup_cons.mp wired.statuses_apart).2).2.2
        rw [settle_apart (fun also => apart _ flag _ also rfl)]
        exact flags write reported
      next => contradiction
  · split at shown
    next touched =>
      obtain ⟨line,control,raised⟩ := List.any_eq_true.mp touched
      refine cycle_shows wired done (fun silent => ?_) write ?_
      · exact absurd ((SortedSet.contains_iff _ _).mp raised) (silent line control)
      · rw [status]
        exact shown
    next => contradiction

end Phases

theorem process_done (number : Nat) (calm : Layout.standard.root.crash ∉ lines) {value : UInt8}
    {reports : Staged} (operated : (u.aluUnit Layout.standard).operate lines u.lines = .ok (value,reports)) :
    ∃ v, u.process Layout.standard number lines = .ok v := by
  unfold process
  rw [if_neg (mt (SortedSet.contains_iff _ _).mp calm),operated]
  exact ⟨_,rfl⟩

private theorem settle_eq {hw : Layout} (s : Contents) : s.settle hw lines =
    { s with status := (s.settle hw lines).status, lines := (s.settle hw lines).lines } := by
  unfold settle
  split <;> rfl

theorem Admits.cycle (admits : s.Admits Layout.standard lines) (number : Nat) :
    ∃ t, s.cycle Layout.standard number lines = .ok t := by
  have compatible : Compatible Layout.standard.hardware lines (s.outlets Layout.standard) := by
    rw [Port.outlets_eq]
    refine ⟨?_,?_⟩
    · intro outlet member raised
      obtain ⟨src,_,rfl⟩ := List.mem_map.mp member
      exact ⟨Layout.standard_wired.bus_declared _ src.tap_mem,admits.offers src raised⟩
    · intro outlet member raised other also asserted same
      obtain ⟨src,_,rfl⟩ := List.mem_map.mp member
      obtain ⟨second,_,rfl⟩ := List.mem_map.mp also
      rw [admits.single src second raised asserted same]
  obtain ⟨driven,drove⟩ := compatible.offers s.outlets_apart
  have drives : s.drive Layout.standard lines = .ok driven := drove
  obtain ⟨u,received⟩ : ∃ u, s.receive Layout.standard (s.taken Layout.standard lines) = .ok u := by
    obtain ⟨regions,stores⟩ := admits.stores
    rw [receive,stores]
    exact ⟨_,rfl⟩
  have loads := load_receive (admits.senses (offers_arbitrated s.outlets_apart drove)) s
  obtain ⟨⟨value,reports⟩,operated⟩ := operate_total (u := u) admits.operation u.lines
  obtain ⟨v,processed⟩ := process_done number admits.crash operated
  refine ⟨v.settle Layout.standard lines,?_⟩
  rw [Contents.cycle,drives,except_ok_bind,loads,received,except_ok_bind,processed]
  rfl

theorem Admits.of_cycle {number : Nat} (done : s.cycle Layout.standard number lines = .ok t) :
    s.Admits Layout.standard lines ∧ t = s.successor Layout.standard lines := by
  have whole := done
  obtain ⟨driven,drove,done⟩ := except_bind_ok.mp done
  obtain ⟨u,loaded,done⟩ := except_bind_ok.mp done
  obtain ⟨v,processed,done⟩ := except_bind_ok.mp done
  cases done
  have settled := offers_arbitrated s.outlets_apart drove
  obtain ⟨takes,senses,received⟩ := load_senses loaded
  obtain rfl : takes = s.taken Layout.standard lines :=
    funext fun port => settled_taken settled (senses port)
  have status := settle_status loaded received processed
  have posted := settle_lines loaded received processed whole
  obtain ⟨value,reports,operated,_⟩ := process_ok processed
  have result := (operate_computed received operated).1
  unfold process at processed
  split at processed
  · cases processed
  next calm =>
    rw [operated] at processed
    cases processed
    obtain ⟨regions,stores,ended⟩ := except_bind_ok.mp received
    cases ended
    refine ⟨⟨mt (SortedSet.contains_iff _ _).mpr calm,?_,?_,?_,(operate_ok operated).1,regions,stores⟩,?_⟩
    · intro src other raised also shared
      exact settled_single settled raised also shared
    · intro src raised
      obtain ⟨drive,_,offers⟩ := settled_offers settled raised
      exact ⟨drive.value,offers⟩
    · intro port raised
      have sensed := senses port
      rw [Tap.sense,if_pos ((SortedSet.contains_iff _ _).mpr raised)] at sensed
      obtain ⟨value,sensed,_⟩ := except_map_ok.mp sensed
      obtain ⟨src,reads⟩ := settled_reads settled raised sensed
      exact ⟨src,value,reads⟩
    · refine (settle_eq _).trans ?_
      rw [status,posted]
      apply Contents.ext
      case result => exact result
      case buffer => exact WordRegister.stored_halves _ _ _
      case regions => exact (congrArg (fun stored => stored.toOption.getD s.regions) stores).symm
      all_goals rfl

end Contents

namespace Moment

/-- A tick is done exactly where the lines asserted in it and the contents admit a cycle. The
contents then are the successor, and the driver has gone on to its next step. -/
theorem tick_follows_contract {hw : Layout} (built : Layout.build = .ok hw) (config : Config)
    (saved : UInt16) (m : Moment) {lines : Asserted}
    (asserts : (m.computer hw config saved).asserted = .ok lines) (after : Computer) :
    (m.computer hw config saved).tick = .done after ↔ m.contents.Admits hw lines ∧
      after = computer hw config m.contents.address
        ⟨m.driver.drawn.counted hw lines,m.cycle + 1,m.contents.successor hw lines⟩ := by
  have wired := Layout.build_wired built
  rw [Layout.build_eq] at built
  cases built
  rw [asserted_computer] at asserts
  have steps : m.next Layout.standard = m.contents.cycle Layout.standard m.cycle lines >>= fun contents =>
      pure ⟨m.driver.drawn.counted Layout.standard lines,m.cycle + 1,contents⟩ := by
    obtain ⟨controls,chosen,raised⟩ := except_bind_ok.mp asserts
    rw [next,chosen,except_ok_bind,raised,except_ok_bind]
  rw [tick_done wired,steps]
  constructor
  · rintro ⟨reached,stepped,rfl⟩
    obtain ⟨t,done,ended⟩ := except_bind_ok.mp stepped
    obtain ⟨admits,rfl⟩ := Contents.Admits.of_cycle done
    cases ended
    exact ⟨admits,rfl⟩
  · rintro ⟨admits,rfl⟩
    obtain ⟨t,done⟩ := admits.cycle m.cycle
    obtain ⟨_,rfl⟩ := Contents.Admits.of_cycle done
    exact ⟨_,by rw [done]; rfl,rfl⟩

/-- X goes to four ports at once and PC to two, three registers count, and the ALU adds. -/
def crowded : Moment where
  driver := .byScript [.ofList [⟨5⟩,⟨16⟩,⟨42⟩,⟨50⟩,⟨31⟩,⟨35⟩,⟨40⟩,⟨52⟩,⟨8⟩,⟨9⟩,⟨38⟩,⟨53⟩,⟨21⟩,⟨33⟩,⟨34⟩]]
  cycle := 0
  contents := ⟨0,5,0xff,0,1,2,3,0,0x8000,0x1234,1,[⟨.ram,0,#[0,0]⟩],∅⟩

/-- The byte read into the status register is carried into the sum before it is cleared, the
high half replaces a byte of the word just read, and the byte is stored at the old address. -/
theorem crowded_follows_contract : ∃ lines after,
    (crowded.computer Layout.standard {} 0).asserted = .ok lines ∧
    (crowded.computer Layout.standard {} 0).tick = .done after ∧
    after = computer Layout.standard {} 1 ⟨.byScript [],1,
      ⟨0,5,0,0,0xff,2,2,0xfe,0x8001,0xff00,0x8001,[⟨.ram,0,#[0,0xff]⟩],
        .ofList [⟨1⟩,⟨6⟩,⟨7⟩,⟨8⟩]⟩⟩ := by
  let lines : Asserted :=
    .ofList [⟨5⟩,⟨16⟩,⟨42⟩,⟨50⟩,⟨31⟩,⟨35⟩,⟨40⟩,⟨52⟩,⟨8⟩,⟨9⟩,⟨38⟩,⟨53⟩,⟨21⟩,⟨33⟩,⟨34⟩]
  have asserts : (crowded.computer Layout.standard {} 0).asserted = .ok lines := rfl
  have cycles : (crowded.contents.cycle Layout.standard 0 lines).isOk = true := by decide +kernel
  obtain ⟨t,done⟩ := except_of_isOk cycles
  have contract := tick_follows_contract Layout.build_eq {} 0 crowded asserts
  have ticked := (contract _).mpr ⟨(Contents.Admits.of_cycle done).1,rfl⟩
  have reached : crowded.contents.successor Layout.standard lines =
      ⟨0,5,0,0,0xff,2,2,0xfe,0x8001,0xff00,0x8001,[⟨.ram,0,#[0,0xff]⟩],
        .ofList [⟨1⟩,⟨6⟩,⟨7⟩,⟨8⟩]⟩ := by decide +kernel
  rw [reached] at ticked
  exact ⟨lines,_,asserts,ticked,rfl⟩

end Moment
end Microprogram

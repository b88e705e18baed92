import Microprogram.Computer.Microcode
import Microprogram.Proofs.Computer.Following
import Microprogram.Proofs.Computer.InstructionSet
import Microprogram.Proofs.Computer.Ports
import Microprogram.Proofs.Computer.StatusLines
import Microprogram.Proofs.Microcode.Drafts

/-! Edits carried out. The steps of a list of edits, one in each cycle, are small changes
of the contents: transfers, counts, accesses to memory and operations of the ALU. -/
namespace Microprogram
open Computer

namespace Port
variable {src dst : Port} {s : Contents}

theorem offered_fits (src : Port) : ∃ decl,
    Layout.standard.hardware.bus? (src.tap Layout.standard).bus = some decl ∧
      ∀ s value, src.offered s = .ok value → decl.fit value = value := by
  have byte (b : UInt8) : b.toUInt16 &&& 0x00ff = b.toUInt16 := by
    rw [← UInt16.toNat_inj,UInt16.toNat_and,UInt8.toNat_toUInt16]
    exact (Nat.and_two_pow_sub_one_eq_mod _ 8).trans (Nat.mod_eq_of_lt b.toNat_lt)
  cases src
  case pc | buffer | address => exact ⟨_,rfl,fun s value _ => rfl⟩
  case memory =>
    refine ⟨_,rfl,fun s value offers => ?_⟩
    obtain ⟨b,_,rfl⟩ := except_map_ok.mp offers
    exact byte b
  all_goals
    refine ⟨_,rfl,fun s value offers => ?_⟩
    cases offers
    exact byte _

theorem offered_timeless (src : Port) (s : Contents) :
    (src.offered s).mapError Fault.timeless = src.offered s := by
  cases src
  case memory =>
    unfold offered
    cases MemoryMap.read s.regions s.address <;> rfl
  all_goals rfl

theorem store_timeless (dst : Port) (value : UInt16) (s : Contents) :
    (dst.store Layout.standard value s).mapError Fault.timeless = dst.store Layout.standard value s := by
  cases dst
  case memory =>
    unfold store
    cases MemoryMap.write s.regions s.address value.toUInt8 <;> rfl
  all_goals rfl

end Port

namespace Contents
variable {s t : Contents}

/-- The contents after the steps of some edits, one in each cycle. -/
def perform (edits : List Edit) (s : Contents) : Except Fault Contents :=
  s.play Layout.standard (edits.filterMap Edit.controls?)

theorem perform_append (edits rest : List Edit) (s : Contents) :
    s.perform (edits ++ rest) = s.perform edits >>= perform rest := by
  unfold perform
  rw [List.filterMap_append]
  exact play_append _ _ s

theorem perform_cons (edit : Edit) (rest : List Edit) (s : Contents) :
    s.perform (edit :: rest) = s.perform [edit] >>= perform rest := perform_append [edit] rest s

theorem perform_copy (src dst : Port)
    (shared : (src.tap Layout.standard).bus = (dst.tap Layout.standard).bus) (s : Contents) :
    s.perform [.copy (src.tap Layout.standard) (dst.tap Layout.standard)] =
      src.offered s >>= fun value => dst.store Layout.standard value s := by
  obtain ⟨decl,declared,fits⟩ := src.offered_fits
  have members (line : ControlId) :
      line ∈ SortedSet.ofList [(src.tap Layout.standard).write,(dst.tap Layout.standard).read] ↔
        line = (src.tap Layout.standard).write ∨ line = (dst.tap Layout.standard).read := by
    rw [SortedSet.mem_ofList]
    simp
  have cycles := cycle_copy Layout.standard_wired shared declared members 0 s
  refine (play_cons _ [] s).trans ((bind_pure _).trans ?_)
  rw [cycles,except_mapError_bind,src.offered_timeless]
  cases offers : src.offered s with
  | error fault => rfl
  | ok value =>
    rw [except_ok_bind,except_ok_bind,fits s value offers]
    exact dst.store_timeless value s

def byteAt (s : Contents) (address : UInt16) : Except Fault UInt8 :=
  (MemoryMap.read s.regions address).mapError Fault.memory

theorem perform_readMemory (dst : Port)
    (shared : (Port.memory.tap Layout.standard).bus = (dst.tap Layout.standard).bus) (s : Contents) :
    s.perform [.copy Layout.standard.memory.tap (dst.tap Layout.standard)] =
      s.byteAt s.address >>= fun byte => dst.store Layout.standard byte.toUInt16 s := by
  refine (perform_copy .memory _ shared s).trans ?_
  unfold Port.offered byteAt
  cases MemoryMap.read s.regions s.address <;> rfl

theorem perform_pcToAddress (s : Contents) :
    s.perform [.copy Layout.standard.pc.tap Layout.standard.memory.address.tap] =
      .ok { s with address := s.pc } := perform_copy .pc .address rfl s

theorem perform_readMemoryAtPc (dst : Port)
    (shared : (Port.memory.tap Layout.standard).bus = (dst.tap Layout.standard).bus) (s : Contents) :
    s.perform (readMemoryAtPc Layout.standard (dst.tap Layout.standard)) =
      s.byteAt s.pc >>= fun byte =>
        dst.store Layout.standard byte.toUInt16 { s with address := s.pc } >>= fun t =>
          pure { t with pc := t.pc + 1 } := by
  unfold readMemoryAtPc readMemory
  rw [perform_append,perform_cons,perform_pcToAddress,except_ok_bind,perform_readMemory dst shared,bind_assoc]
  rfl

theorem wordOf_halves (high low : UInt8) (before : UInt16) :
    (high.toUInt16 <<< (8 : UInt16) ||| before &&& 0x00ff) &&& 0xff00 ||| low.toUInt16 &&& 0x00ff =
      wordOf high low := by
  have lower : ∀ i, (bound : i < 16) → (0x00ff#16)[i] = decide (i < 8) := by decide
  have upper : ∀ i, (bound : i < 16) → (0xff00#16)[i] = !decide (i < 8) := by decide
  rw [wordOf,← UInt16.toBitVec_inj]
  simp only [UInt16.toBitVec_or,UInt16.toBitVec_and,UInt16.toBitVec_shiftLeft,
    UInt8.toBitVec_toUInt16,UInt16.toBitVec_ofNat]
  ext i bound
  simp only [BitVec.getElem_or,BitVec.getElem_and,lower,upper]
  by_cases inside : i < 8
  · simp [inside]
  · simp [inside,BitVec.getLsbD_of_ge low.toBitVec i (by omega)]

/-- The word at an address, as two reads of memory make it. -/
def wordAt (s : Contents) (address : UInt16) : Except Fault UInt16 :=
  s.byteAt address >>= fun high => s.byteAt (address + 1) >>= fun low => pure (wordOf high low)

def pastWord (s : Contents) (word : UInt16) : Contents :=
  { s with address := s.pc + 1, buffer := word, pc := s.pc + 2 }

theorem perform_readWordAtPc (dst : Port)
    (shared : (Port.buffer.tap Layout.standard).bus = (dst.tap Layout.standard).bus) (s : Contents) :
    s.perform (readWordAtPc Layout.standard (dst.tap Layout.standard)) =
      s.wordAt s.pc >>= fun word => dst.store Layout.standard word (s.pastWord word) := by
  have counts (t : Contents) : t.perform (increment Layout.standard.memory.address) =
      .ok { t with address := t.address + 1 } := rfl
  have moves (t : Contents) : t.perform (increment Layout.standard.pc) =
      .ok { t with pc := t.pc + 1 } := rfl
  have stores (t : Contents) :
      t.perform [.copy Layout.standard.buffer.tap (dst.tap Layout.standard)] =
        dst.store Layout.standard t.buffer t := perform_copy .buffer _ shared t
  have reads (t : Contents) :
      t.perform (readMemoryAtPc Layout.standard Layout.standard.high.tap) = _ :=
    perform_readMemoryAtPc .high rfl t
  have follows (t : Contents) :
      t.perform [.copy Layout.standard.memory.tap Layout.standard.low.tap] = _ :=
    perform_readMemory .low rfl t
  unfold readWordAtPc
  rw [perform_append,perform_append,perform_append,perform_append,reads]
  simp only [Port.store,bind_assoc,pure_bind,except_ok_bind,counts,follows,moves,stores,byteAt,
    wordAt,wordOf_halves,pastWord,UInt16.add_assoc]
  rfl

theorem perform_indirectRead (dst : Port)
    (shared : (Port.memory.tap Layout.standard).bus = (dst.tap Layout.standard).bus) (s : Contents) :
    s.perform (indirectRead Layout.standard (dst.tap Layout.standard)) =
      s.wordAt s.pc >>= fun word => s.byteAt word >>= fun byte =>
        dst.store Layout.standard byte.toUInt16 { s.pastWord word with address := word } := by
  have reads (t : Contents) :
      t.perform [.copy Layout.standard.memory.tap (dst.tap Layout.standard)] = _ :=
    perform_readMemory dst shared t
  unfold indirectRead
  rw [perform_append,show s.perform (readWordAtPc Layout.standard Layout.standard.memory.address.tap) = _
    from perform_readWordAtPc .address rfl s]
  simp only [Port.store,bind_assoc,except_ok_bind,reads,byteAt,pastWord]

theorem perform_indirectWrite (src : Port)
    (shared : (src.tap Layout.standard).bus = (Port.memory.tap Layout.standard).bus) (s : Contents) :
    s.perform (indirectWrite Layout.standard (src.tap Layout.standard)) =
      s.wordAt s.pc >>= fun word => src.offered { s.pastWord word with address := word } >>= fun value =>
        Port.memory.store Layout.standard value { s.pastWord word with address := word } := by
  have writes (t : Contents) :
      t.perform [.copy (src.tap Layout.standard) Layout.standard.memory.tap] = _ :=
    perform_copy _ .memory shared t
  unfold indirectWrite
  rw [perform_append,show s.perform (readWordAtPc Layout.standard Layout.standard.memory.address.tap) = _
    from perform_readWordAtPc .address rfl s]
  simp only [bind_assoc]
  exact bind_congr fun word => writes _

end Contents
end Microprogram

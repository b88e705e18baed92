import Mathlib.Data.Nat.Bitwise
import Microprogram.Proofs.Computer.Start
import Microprogram.Proofs.Computer.StatusLines

/-! The computer at rest. Between two ticks nothing is asserted, driven or staged, the
status lines show the status register and the journal of memory is empty. A computer that
has halted stays so. Every tick keeps all of it, whether it succeeds or fails. -/
namespace Microprogram

namespace StatusRegister

private theorem flag_testBit (value mask : UInt8) (place : Nat) (masks : mask.toNat = 2 ^ place) :
    (value &&& mask != 0) = value.toNat.testBit place := by
  have zero : (0 : UInt8).toNat = 0 := rfl
  rw [Bool.eq_iff_iff,bne_iff_ne,ne_eq,← UInt8.toNat_inj,UInt8.toNat_and,masks,Nat.and_two_pow,zero]
  cases value.toNat.testBit place <;> simp

theorem shown_bits (sr : StatusRegister) : sr.shown =
    [(sr.lines.flags.carry,sr.value.toNat.testBit 0),(sr.lines.flags.zero,sr.value.toNat.testBit 1),
      (sr.lines.flags.negative,sr.value.toNat.testBit 7),
      (sr.lines.flags.overflow,sr.value.toNat.testBit 6)] := by
  rw [shown,carry,zero,negative,overflow,flag_testBit _ carryBit 0 rfl,flag_testBit _ zeroBit 1 rfl,
    flag_testBit _ negativeBit 7 rfl,flag_testBit _ overflowBit 6 rfl]

end StatusRegister

theorem Contents.shown_initial (hw : Layout) (program : List UInt8) (config : Config) :
    (initial program config).Shown hw := by
  intro pair member
  have clear : pair.2 = false := by
    simp only [shows,StatusRegister.shown,List.mem_cons,List.not_mem_nil,or_false] at member
    rcases member with rfl | rfl | rfl | rfl <;>
      simp [StatusRegister.carry,StatusRegister.zero,StatusRegister.negative,StatusRegister.overflow,
        initial]
  rw [clear]
  exact iff_of_false (SortedSet.not_mem_empty _) Bool.false_ne_true

theorem Moment.next_cycle {hw : Layout} {m after : Moment} (stepped : m.next hw = .ok after) :
    ∃ lines, m.contents.cycle hw m.cycle lines = .ok after.contents := by
  obtain ⟨controls,_,stepped⟩ := except_bind_ok.mp stepped
  obtain ⟨lines,_,stepped⟩ := except_bind_ok.mp stepped
  obtain ⟨contents,done,ended⟩ := except_bind_ok.mp stepped
  cases ended
  exact ⟨lines,done⟩

namespace Computer

/-- What holds of a computer between two ticks. -/
structure AtRest (c : Computer) : Prop where
  asserted : c.machine.signals.asserted = ∅
  driven : c.machine.signals.driven = ∅
  staged : c.machine.signals.staged = []
  /-- Four bits of the status register are on its status lines. -/
  shown : ∃ sr, c.statusRegister? = some sr ∧
    ∀ flag ∈ [(c.layout.statusRegister.flags.carry,0),(c.layout.statusRegister.flags.zero,1),
      (c.layout.statusRegister.flags.negative,7),(c.layout.statusRegister.flags.overflow,6)],
      flag.1 ∈ c.machine.signals.statuses ↔ sr.value.toNat.testBit flag.2 = true
  journal : ∃ m, c.memory? = some m ∧ m.journal = []

end Computer

namespace Moment
variable {hw : Layout} (wired : hw.Wired) {config : Config} {saved : UInt16} {m : Moment}
include wired

theorem atRest (shown : m.contents.Shown hw) : (m.computer hw config saved).AtRest := by
  refine ⟨rfl,rfl,rfl,⟨_,m.statusRegister_computer wired config saved,?_⟩,_,
    m.memory_computer wired config saved,rfl⟩
  have bits := StatusRegister.shown_bits (m.contents.statusUnit hw)
  intro flag member
  refine shown (flag.1,m.contents.status.toNat.testBit flag.2) ?_
  rw [show m.contents.shows hw m.contents.status = _ from bits]
  exact List.mem_map_of_mem
    (f := fun flag : StatusId × Nat => (flag.1,m.contents.status.toNat.testBit flag.2)) member

end Moment

namespace Computer
variable {hw : Layout} {program : List UInt8} {config : Config} {start c : Computer}

theorem assemble_driver (built : Layout.build = .ok hw) (driver : Driver)
    (assembled : assemble hw (driver.part hw 0) program config = .ok start) :
    start = (Moment.initial driver program config).computer hw config 0 := by
  have first := assembled
  obtain ⟨⟨⟩,valid,rest⟩ := except_bind_ok.mp first
  obtain ⟨⟨⟩,fits,_⟩ := except_bind_ok.mp rest
  rw [assemble_ok built driver (except_mapError_ok.mp valid) (except_mapError_ok.mp fits)] at assembled
  exact (Except.ok.inj assembled).symm

/-- Whatever a table or a script asserts, the ticks of a computer leave it at rest, those
that fail included, and none of them takes back that it has halted. -/
theorem reachable_rests (built : Layout.build = .ok hw)
    (made : (∃ table, withTable hw table program config = .ok start) ∨
      ∃ script, withScript hw script program config = .ok start) (reached : Reachable start c) :
    c.AtRest ∧ ∀ later, Reachable c later → c.machine.isHalted = true → later.machine.isHalted = true := by
  have wired := Layout.build_wired built
  obtain ⟨driver,rfl⟩ : ∃ driver, start = (Moment.initial driver program config).computer hw config 0 := by
    rcases made with ⟨table,assembled⟩ | ⟨script,assembled⟩
    · exact ⟨.byTable table 0,assemble_driver built _ assembled⟩
    · exact ⟨.byScript script,assemble_driver built _ assembled⟩
  obtain ⟨m,saved,rfl,moment⟩ := Moment.reachable_moment wired reached
  refine ⟨Moment.atRest wired ?_,?_⟩
  · refine moment.keeps (fun m => m.contents.Shown hw) (Contents.shown_initial hw program config) ?_
    intro m after shown stepped
    obtain ⟨lines,done⟩ := Moment.next_cycle stepped
    exact Contents.cycle_shown wired done shown
  · intro later reaches halted
    obtain ⟨after,saved,rfl,moment⟩ := Moment.reachable_moment wired reaches
    refine (SortedSet.contains_iff _ _).mpr ?_
    refine moment.keeps (fun m => hw.root.halted ∈ m.contents.lines)
      ((SortedSet.contains_iff _ _).mp halted) ?_
    intro m after halted stepped
    obtain ⟨lines,done⟩ := Moment.next_cycle stepped
    exact (Contents.cycle_halted wired done).mpr (.inr halted)

/-- A computer that halts and sets the carry in its first tick, and that in its second asserts
the latch and crashes. -/
def halting : Moment := .initial (.byScript [.ofList [⟨0⟩,⟨33⟩],.ofList [⟨1⟩,⟨32⟩]]) [] {}

theorem halting_rests : ∃ start,
    withScript Layout.standard [.ofList [⟨0⟩,⟨33⟩],.ofList [⟨1⟩,⟨32⟩]] [] {} = .ok start ∧
      start.tick.state.machine.isHalted = true ∧
      start.tick.state.tick.fault? = some (.crashed 1) ∧ start.tick.state.tick.state.AtRest ∧
      start.tick.state.tick.state.machine.isHalted = true := by
  let start : Computer := halting.computer Layout.standard {} 0
  have assembled : withScript Layout.standard [.ofList [⟨0⟩,⟨33⟩],.ofList [⟨1⟩,⟨32⟩]] [] {} = .ok start :=
    assemble_ok Layout.build_eq (.byScript _) (by decide +kernel) (by decide +kernel)
  have made : (∃ table, withTable Layout.standard table [] {} = .ok start) ∨
      ∃ script, withScript Layout.standard script [] {} = .ok start := .inr ⟨_,assembled⟩
  have halted : start.tick.state.machine.isHalted = true := by decide +kernel
  have crashed : start.tick.state.tick.fault? = some (.crashed 1) := by decide +kernel
  have first := reachable_rests Layout.build_eq made (.tick .start)
  have second := reachable_rests Layout.build_eq made (.tick (.tick .start))
  exact ⟨start,assembled,halted,crashed,second.1,first.2 _ (.tick .start) halted⟩

end Computer
end Microprogram

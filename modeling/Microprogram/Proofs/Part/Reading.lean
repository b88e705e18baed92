import Microprogram.Proofs.Machine.Rollback

/-! The read phase of each part by its results. A part takes a value off the bus at
each of its taps whose read line is asserted, and a bus may have none to take. -/
namespace Microprogram

def Tap.sense (tap : Tap) (reader : String) (hw : Registry) (asserted : Asserted) (driven : Driven) :
    Except Fault (Option UInt16) :=
  if asserted.contains tap.read then (hw.sense tap.bus reader driven).map some else .ok none

def stored {σ : Type} (taken : Option UInt16) (store : UInt16 → σ → σ) (s : σ) : σ :=
  taken.elim s (store · s)

def byteTaken (taken : Option UInt16) (old : UInt8) : UInt8 := taken.elim old UInt16.toUInt8

theorem RegisterLines.load_result {σ : Type} (lines : RegisterLines) (hw : Registry)
    (asserted : Asserted) (driven : Driven) (store : UInt16 → σ → σ) (s : σ) :
    (lines.load hw asserted driven store s).result =
      lines.sense hw asserted driven >>= fun taken => pure (stored taken store s) := by
  unfold load
  cases lines.sense hw asserted driven with
  | error fault => rfl
  | ok taken => cases taken <;> rfl

theorem Register.load_result (r : Register) (hw : Registry) (asserted : Asserted) (driven : Driven) :
    (r.load hw asserted driven).result = do
      let taken ← r.lines.sense hw asserted driven
      return { r with value := byteTaken taken r.value } := by
  unfold load
  rw [RegisterLines.load_result]
  refine bind_congr fun taken => ?_
  cases taken <;> rfl

namespace WordRegister

theorem load_result (lines : RegisterLines) (value : UInt16) (hw : Registry) (asserted : Asserted)
    (driven : Driven) :
    ((⟨lines,none,value⟩ : WordRegister).load hw asserted driven).result = do
      let taken ← lines.sense hw asserted driven
      return ⟨lines,none,taken.getD value⟩ := by
  unfold load
  dsimp only
  rw [RegisterLines.load_result]
  refine bind_congr fun taken => ?_
  cases taken <;> rfl

theorem load_halves (lines high low : RegisterLines) (value : UInt16) (hw : Registry)
    (asserted : Asserted) (driven : Driven) :
    ((⟨lines,some (high,low),value⟩ : WordRegister).load hw asserted driven).result = do
      let word ← lines.sense hw asserted driven
      let upper ← high.sense hw asserted driven
      let lower ← low.sense hw asserted driven
      return stored lower withLow (stored upper withHigh ⟨lines,some (high,low),word.getD value⟩) := by
  unfold load
  dsimp only
  simp only [Outcome.result_andThen,RegisterLines.load_result,bind_assoc,pure_bind]
  refine bind_congr fun word => ?_
  cases word <;> rfl

end WordRegister

def MemoryMap.storeTaken (regions : MemoryMap) (address : UInt16) : Option UInt16 → Except Fault MemoryMap
  | none => .ok regions
  | some byte => (write regions address byte.toUInt8).mapError .memory

theorem MemoryMap.write_of_read_error {regions : MemoryMap} {address : UInt16} {error : MemoryError}
    (unread : read regions address = .error error) (value : UInt8) :
    write regions address value = .error error := by
  induction regions with
  | nil => cases unread; rfl
  | cons region rest ih =>
    rw [read_cons] at unread
    rw [write]
    split at unread
    next inside =>
      have bound : address.toNat - region.base.toNat < region.cells.size := by
        rw [Region.contains_iff] at inside
        omega
      simp [Region.read,Array.getElem?_eq_getElem bound] at unread
    next outside =>
      rw [if_neg outside,ih unread]
      rfl

namespace Memory

theorem store_result (m : Memory) (value : UInt8) :
    ∃ journal, (m.store value).result = do
      let regions ← (MemoryMap.write m.regions m.address.value value).mapError Fault.memory
      return { m with regions, journal } := by
  unfold store
  dsimp only
  split
  next error unread =>
    rw [MemoryMap.write_of_read_error unread]
    exact ⟨[],rfl⟩
  next previous stood =>
    refine ⟨(m.address.value,previous) :: m.journal,?_⟩
    unfold write
    cases MemoryMap.write m.regions m.address.value value <;> rfl

/-- A byte is stored at the address held before another address is taken. -/
theorem load_result (path : String) (tap : Tap) (lines : RegisterLines) (address : UInt16)
    (regions : MemoryMap) (saved : UInt16) (journal : List (UInt16 × UInt8)) (hw : Registry)
    (asserted : Asserted) (driven : Driven) :
    ∃ after, (load ⟨path,tap,⟨lines,none,address⟩,regions,saved,journal⟩ hw asserted driven).result = do
      let cell ← tap.sense path hw asserted driven
      let regions ← MemoryMap.storeTaken regions address cell
      let taken ← lines.sense hw asserted driven
      return ⟨path,tap,⟨lines,none,taken.getD address⟩,regions,saved,after⟩ := by
  unfold load Tap.sense
  dsimp only
  simp only [Outcome.result_andThen,Outcome.result_map]
  have moved (m : Memory) (held : m.address = ⟨lines,none,address⟩) :
      ((m.address.load hw asserted driven).result).map (fun address => { m with address }) =
        lines.sense hw asserted driven >>= fun taken =>
          pure { m with address := ⟨lines,none,taken.getD address⟩ } := by
    rw [held,WordRegister.load_result]
    cases lines.sense hw asserted driven <;> rfl
  split
  · cases hw.sense tap.bus path driven with
    | error fault => exact ⟨[],rfl⟩
    | ok value =>
      let m : Memory := ⟨path,tap,⟨lines,none,address⟩,regions,saved,journal⟩
      obtain ⟨after,wrote⟩ := m.store_result value.toUInt8
      let kept := (MemoryMap.write regions address value.toUInt8).mapError Fault.memory
      have wrote : (m.store value.toUInt8).result =
          kept >>= fun regions => pure { m with regions, journal := after } := wrote
      refine ⟨after,?_⟩
      change ((m.store value.toUInt8).result >>= _) = (kept >>= _)
      rw [wrote,bind_assoc]
      exact bind_congr fun regions => moved { m with regions, journal := after } rfl
  · exact ⟨journal,moved _ rfl⟩

end Memory

/-- Status writes take effect in the order in which they were made. -/
def postAll (writes : Staged) (lines : SortedSet StatusId) : SortedSet StatusId :=
  writes.foldl (fun lines write => if write.2 then lines.insert write.1 else lines.erase write.1) lines

theorem Registry.stageAll_declared (hw : Registry) (writes staged : Staged)
    (declared : ∀ write ∈ writes, write.1.index < hw.statuses.size) :
    hw.stageAll writes staged = .done (staged ++ writes) := by
  unfold stageAll
  induction writes generalizing staged with
  | nil => rw [List.append_nil]; rfl
  | cons write rest ih =>
    obtain ⟨first,others⟩ := List.forall_mem_cons.mp declared
    rw [Outcome.each,stage,if_pos first]
    exact (ih (staged ++ [write]) others).trans (by simp)

namespace StatusRegister
variable {hw : Registry} {sr : StatusRegister}
  (declared : ∀ status ∈ sr.statuses, status.index < hw.statuses.size)
include declared

theorem store_declared (value : UInt8) (staged : Staged) :
    store hw value (sr,staged) =
      .done ({ sr with value },staged ++ { sr with value }.shown) := by
  unfold store
  dsimp only
  rw [Registry.stageAll_declared]
  · rfl
  · simp only [statuses,Flags.all,List.forall_mem_cons] at declared
    simp [shown,declared]

theorem load_result (asserted : Asserted) (driven : Driven) (staged : Staged) :
    (sr.load hw asserted driven staged).result = do
      let taken ← sr.lines.tap.sense sr.lines.path hw asserted driven
      return ({ sr with value := byteTaken taken sr.value },
        staged ++ taken.elim [] fun value => { sr with value := value.toUInt8 }.shown) := by
  unfold load Tap.sense
  split
  · cases hw.sense sr.lines.tap.bus sr.lines.path driven with
    | error fault => rfl
    | ok value =>
      change (store hw value.toUInt8 (sr,staged)).result = _
      rw [store_declared declared]
      rfl
  · change Except.ok (sr,staged) = Except.ok (sr,staged ++ [])
    rw [List.append_nil]

end StatusRegister

namespace Part
variable (hw : Registry) (number : Nat) (signals : Signals)

theorem act_read_register (r : Register) :
    (register r).act hw .read number signals = do
      let taken ← r.lines.sense hw signals.asserted signals.driven
      return (register { r with value := byteTaken taken r.value },signals) := by
  change (((r.load _ _ _).map _).map _).result = _
  rw [Outcome.result_map,Outcome.result_map,Register.load_result]
  cases r.lines.sense hw signals.asserted signals.driven <;> rfl

theorem act_read_alu (unit : AluUnit) :
    (alu unit).act hw .read number signals = do
      let lhs ← unit.lhs.lines.sense hw signals.asserted signals.driven
      let rhs ← unit.rhs.lines.sense hw signals.asserted signals.driven
      let result ← unit.result.lines.sense hw signals.asserted signals.driven
      return (alu { unit with
        lhs := { unit.lhs with value := byteTaken lhs unit.lhs.value }
        rhs := { unit.rhs with value := byteTaken rhs unit.rhs.value }
        result := { unit.result with value := byteTaken result unit.result.value } },signals) := by
  change ((((((unit.lhs.load _ _ _).map _).andThen _).andThen _).map _).map _).result = _
  simp only [Outcome.result_map,Outcome.result_andThen,Register.load_result]
  cases unit.lhs.lines.sense hw signals.asserted signals.driven with
  | error fault => rfl
  | ok lhs =>
    dsimp only [Except.map,bind,Except.bind,pure,Except.pure]
    cases unit.rhs.lines.sense hw signals.asserted signals.driven with
    | error fault => rfl
    | ok rhs =>
      dsimp only
      cases unit.result.lines.sense hw signals.asserted signals.driven <;> rfl

theorem act_read_statusRegister (sr : StatusRegister)
    (declared : ∀ status ∈ sr.statuses, status.index < hw.statuses.size) :
    (statusRegister sr).act hw .read number signals = do
      let taken ← sr.lines.tap.sense sr.lines.path hw signals.asserted signals.driven
      return (statusRegister { sr with value := byteTaken taken sr.value },{ signals with
        staged := signals.staged ++
          taken.elim [] fun value => { sr with value := value.toUInt8 }.shown }) := by
  change (((sr.load _ _ _ _).map _).map _).result = _
  rw [Outcome.result_map,Outcome.result_map,StatusRegister.load_result declared]
  cases sr.lines.tap.sense sr.lines.path hw signals.asserted signals.driven <;> rfl

theorem act_read_word (w : WordRegister) :
    (word w).act hw .read number signals = do
      let loaded ← (w.load hw signals.asserted signals.driven).result
      return (word loaded,signals) := by
  change (((w.load _ _ _).map _).map _).result = _
  rw [Outcome.result_map,Outcome.result_map]
  cases (w.load hw signals.asserted signals.driven).result <;> rfl

theorem act_read_memory (m : Memory) :
    (memory m).act hw .read number signals = do
      let loaded ← (m.load hw signals.asserted signals.driven).result
      return (memory loaded,signals) := by
  change (((m.load _ _ _).map _).map _).result = _
  rw [Outcome.result_map,Outcome.result_map]
  cases (m.load hw signals.asserted signals.driven).result <;> rfl

end Part
end Microprogram

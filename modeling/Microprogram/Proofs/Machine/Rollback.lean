import Mathlib.Data.List.Forall2
import Microprogram.Machine.Basic
import Microprogram.Proofs.Machine.Outcome

/-! Going back over a failed cycle. Whatever a part did since its checkpoint, it can
be restored to it: a copy was kept of most parts, and a memory undoes its journal.
So a cycle that fails leaves the machine as it was when the cycle began. -/
namespace Microprogram

namespace Region

theorem contains_iff (region : Region) (address : UInt16) :
    region.contains address = true ↔ region.base.toNat ≤ address.toNat ∧
      address.toNat < region.base.toNat + region.cells.size := by
  unfold contains
  rw [Bool.and_eq_true,decide_eq_true_eq,decide_eq_true_eq]
  exact .rfl

theorem write_eq_ok {region written : Region} {offset : Nat} {value : UInt8} :
    region.write offset value = .ok written ↔
      region.kind = .ram ∧ offset < region.size ∧
        { region with cells := region.cells.setIfInBounds offset value } = written := by
  unfold write
  cases kind : region.kind with
  | rom => simp
  | ram =>
    dsimp only
    split
    next bound => simp [bound]
    next bound => simp [bound]

theorem contains_write {region written : Region} {offset : Nat} {value : UInt8}
    (wrote : region.write offset value = .ok written) (address : UInt16) :
    written.contains address = region.contains address := by
  obtain ⟨_,_,rfl⟩ := write_eq_ok.mp wrote
  unfold contains size
  rw [Array.size_setIfInBounds]

theorem write_back {region written : Region} {offset : Nat} {value previous : UInt8}
    (stood : region.read offset = .ok previous) (wrote : region.write offset value = .ok written) :
    written.write offset previous = .ok region := by
  obtain ⟨ram,bound,rfl⟩ := write_eq_ok.mp wrote
  have inside : offset < region.cells.size := bound
  have cell : region.cells[offset] = previous := by
    have found := Array.getElem?_eq_getElem inside
    simp only [read,found,Except.ok.injEq] at stood
    exact stood
  refine write_eq_ok.mpr ⟨ram,by simpa [size] using bound,?_⟩
  have back : (region.cells.setIfInBounds offset value).setIfInBounds offset previous =
      region.cells := by
    rw [Array.setIfInBounds_setIfInBounds,← cell,Array.setIfInBounds,dif_pos inside]
    exact Array.set_getElem_self inside
  exact congrArg (fun cells => ({ region with cells } : Region)) back

end Region

namespace MemoryMap

theorem read_cons (region : Region) (rest : MemoryMap) (address : UInt16) :
    read (region :: rest) address = if region.contains address then
      region.read (address.toNat - region.base.toNat) else read rest address := by
  unfold read
  cases inside : region.contains address <;> simp [inside]

theorem write_back (regions : MemoryMap) (address : UInt16) (value previous : UInt8)
    (written : MemoryMap) (stood : read regions address = .ok previous)
    (wrote : write regions address value = .ok written) :
    write written address previous = .ok regions := by
  induction regions generalizing written with
  | nil => contradiction
  | cons region rest ih =>
    rw [read_cons] at stood
    rw [write] at wrote
    split at wrote
    next inside =>
      rw [if_pos inside] at stood
      obtain ⟨changed,stored,rfl⟩ := except_map_ok.mp wrote
      have base : changed.base = region.base := by
        obtain ⟨_,_,rfl⟩ := Region.write_eq_ok.mp stored
        rfl
      rw [write,Region.contains_write stored,if_pos inside,base,Region.write_back stood stored]
      rfl
    next outside =>
      rw [if_neg outside] at stood
      obtain ⟨others,stored,rfl⟩ := except_map_ok.mp wrote
      rw [write,if_neg outside,ih others stood stored]
      rfl

end MemoryMap

namespace Outcome
variable {σ τ ι : Type}

theorem state_map (f : σ → τ) (o : Outcome σ) : (o.map f).state = f o.state := by
  cases o <;> rfl

theorem andThen_keeps (kept : σ → Prop) {first : Outcome σ} {next : σ → Outcome σ}
    (start : kept first.state) (step : ∀ s, kept s → kept (next s).state) :
    kept (first.andThen next).state := by
  cases first with
  | done s => exact step s start
  | stopped fault s => exact start

theorem each_keeps (kept : σ → Prop) {action : ι → σ → Outcome σ}
    (step : ∀ item s, kept s → kept (action item s).state) (items : List ι) (s : σ)
    (start : kept s) : kept (each action items s).state := by
  induction items generalizing s with
  | nil => exact start
  | cons item rest ih =>
    have one := step item s start
    rw [each]
    cases ran : action item s with
    | done next => rw [ran] at one; exact ih next one
    | stopped fault next => rw [ran] at one; exact one

end Outcome

theorem RegisterLines.load_keeps {σ : Type} {kept : σ → Prop} (lines : RegisterLines) (hw : Registry)
    (asserted : Asserted) (driven : Driven) (store : UInt16 → σ → σ) (s : σ) (start : kept s)
    (step : ∀ value s, kept s → kept (store value s)) :
    kept (lines.load hw asserted driven store s).state := by
  unfold load
  cases lines.sense hw asserted driven with
  | error fault => exact start
  | ok taken =>
    cases taken with
    | none => exact start
    | some value => exact step value s start

theorem WordRegister.load_lines (w : WordRegister) (hw : Registry) (asserted : Asserted)
    (driven : Driven) : ∃ value, (w.load hw asserted driven).state = { w with value } := by
  let kept (s : WordRegister) : Prop := ∃ value, s = { w with value }
  have word : kept (w.lines.load hw asserted driven (fun value w => { w with value }) w).state := by
    refine RegisterLines.load_keeps _ _ _ _ _ _ ⟨w.value,rfl⟩ ?_
    rintro value s ⟨old,rfl⟩
    exact ⟨value,rfl⟩
  have low (high low : RegisterLines) : kept (((w.lines.load hw asserted driven
      (fun value w => { w with value }) w).andThen (high.load hw asserted driven withHigh)).andThen
      (low.load hw asserted driven withLow)).state := by
    refine Outcome.andThen_keeps kept (Outcome.andThen_keeps kept word ?_) ?_
    · intro s start
      refine RegisterLines.load_keeps _ _ _ _ _ _ start ?_
      rintro value t ⟨old,rfl⟩
      exact ⟨_,rfl⟩
    · intro s start
      refine RegisterLines.load_keeps _ _ _ _ _ _ start ?_
      rintro value t ⟨old,rfl⟩
      exact ⟨_,rfl⟩
  change kept (w.load hw asserted driven).state
  unfold load
  split
  · exact word
  · exact low _ _

namespace Memory

theorem store_rollback (m : Memory) (value : UInt8) : (m.store value).state.rollback = m.rollback := by
  unfold store
  dsimp only
  split
  next => rfl
  next previous stood =>
    split
    next => rfl
    next written wrote =>
      obtain ⟨regions,stored,rfl⟩ := except_map_ok.mp wrote
      have back := MemoryMap.write_back m.regions m.address.value value previous regions stood stored
      have undone : undo regions ((m.address.value,previous) :: m.journal) = undo m.regions m.journal := by
        rw [undo,back]
      exact congrArg (fun regions => { m with
        regions, journal := [], address := { m.address with value := m.savedAddress } }) undone

theorem load_rollback (m : Memory) (hw : Registry) (asserted : Asserted) (driven : Driven) :
    (m.load hw asserted driven).state.rollback = m.rollback := by
  unfold load
  refine Outcome.andThen_keeps (fun s : Memory => s.rollback = m.rollback) ?_ ?_
  · split
    · cases hw.sense m.tap.bus m.path driven with
      | error fault => rfl
      | ok value => exact store_rollback m value.toUInt8
    · rfl
  · intro s start
    obtain ⟨value,loaded⟩ := s.address.load_lines hw asserted driven
    rw [Outcome.state_map,loaded,← start]
    rfl

end Memory

namespace Part

/-- The part can still go back to the checkpoint of the origin. -/
def Restores (origin now : Part) : Prop := now.restore origin.checkpoint.2 = origin.checkpoint.1

theorem restores_checkpoint (part : Part) : Restores part part.checkpoint.1 := by
  cases part <;> rfl

theorem react_memory (m : Memory) (hw : Registry) (phase : Phase) (cycle : Nat) (signals : Signals) :
    ∃ after, ((memory m).react hw phase cycle signals).state.1 = memory after ∧
      after.rollback = m.rollback := by
  cases phase with
  | control => exact ⟨m,rfl,rfl⟩
  | write => exact ⟨m,by simp only [react,Outcome.state_map],rfl⟩
  | read =>
    refine ⟨(m.load hw signals.asserted signals.driven).state,?_,m.load_rollback hw _ _⟩
    simp only [react,load,Outcome.state_map]
  | process => exact ⟨m.count signals.asserted,rfl,rfl⟩
  | clear => exact ⟨m,rfl,rfl⟩

theorem react_restores (origin now : Part) (hw : Registry) (phase : Phase) (cycle : Nat)
    (signals : Signals) (start : Restores origin now) :
    Restores origin (now.react hw phase cycle signals).state.1 := by
  cases origin with
  | memory m =>
    cases now with
    | memory current =>
      obtain ⟨after,became,same⟩ := react_memory current hw phase cycle signals
      rw [became]
      exact (congrArg memory same).trans start
    | _ => contradiction
  | _ => rfl

theorem reactAll_restores (hw : Registry) (phase : Phase) (cycle : Nat) (origins parts : List Part)
    (signals : Signals) (start : List.Forall₂ Restores origins parts) :
    List.Forall₂ Restores origins (reactAll hw phase cycle parts signals).state.1 := by
  induction start generalizing signals with
  | nil => exact .nil
  | @cons origin part origins rest head tail ih =>
    rw [reactAll]
    split
    · have acted := react_restores origin part hw phase cycle signals head
      cases ran : part.react hw phase cycle signals with
      | done next =>
        rw [ran] at acted
        rw [Outcome.state_map]
        exact .cons acted (ih next.2)
      | stopped fault next =>
        rw [ran] at acted
        exact .cons acted tail
    · rw [Outcome.state_map]
      exact .cons head (ih signals)

theorem restore_all {origins parts : List Part} (start : List.Forall₂ Restores origins parts) :
    parts.zipWith restore (origins.map fun part => part.checkpoint.2) =
      origins.map fun part => part.checkpoint.1 := by
  induction start with
  | nil => rfl
  | cons head tail ih => exact congrArg₂ List.cons head ih

end Part

namespace Machine

/-- A failed cycle leaves the parts at their checkpoints and all else as it was. -/
theorem tick_stopped (m : Machine) {fault : Fault} {stopped : Machine}
    (failed : m.tick = .stopped fault stopped) :
    stopped = { m with parts := m.parts.map fun part => part.checkpoint.1 } := by
  have origin : List.Forall₂ Part.Restores m.parts (m.parts.map fun part => part.checkpoint.1) := by
    rw [List.forall₂_map_right_iff]
    exact List.forall₂_same.mpr fun part _ => Part.restores_checkpoint part
  have step (phase : Phase) (state : List Part × Signals)
      (start : List.Forall₂ Part.Restores m.parts state.1) :
      List.Forall₂ Part.Restores m.parts (runPhase m.hardware m.cycle phase state).state.1 := by
    rw [runPhase,Outcome.state_map]
    exact Part.reactAll_restores _ _ _ _ _ _ start
  have kept := Outcome.each_keeps (fun state => List.Forall₂ Part.Restores m.parts state.1) step
    Phase.all (m.parts.map (fun part => part.checkpoint.1),m.signals) origin
  have saved : (m.parts.map Part.checkpoint).map Prod.fst =
      m.parts.map fun part => part.checkpoint.1 := List.map_map
  have copies : (m.parts.map Part.checkpoint).map Prod.snd =
      m.parts.map fun part => part.checkpoint.2 := List.map_map
  unfold tick at failed
  dsimp only at failed
  rw [saved,copies] at failed
  split at failed
  · contradiction
  next parts signals ran =>
    rw [runPhases] at ran
    rw [ran] at kept
    cases failed
    exact congrArg (fun parts => { m with parts }) (Part.restore_all kept)

theorem tick_of_ok (m : Machine) {parts : List Part} {signals : Signals}
    (ran : (runPhases m.hardware m.cycle (m.parts.map (fun part => part.checkpoint.1),m.signals)).result =
      .ok (parts,signals)) :
    m.tick = .done { m with
      parts := parts.map Part.commit
      signals := signals.rest m.hardware
      cycle := m.cycle + 1 } := by
  have saved : (m.parts.map Part.checkpoint).map Prod.fst =
      m.parts.map fun part => part.checkpoint.1 := List.map_map
  unfold tick
  dsimp only
  rw [saved,Outcome.result_eq_ok.mp ran]

theorem tick_of_error (m : Machine) {fault : Fault}
    (ran : (runPhases m.hardware m.cycle (m.parts.map (fun part => part.checkpoint.1),m.signals)).result =
      .error fault) :
    m.tick = .stopped fault { m with parts := m.parts.map fun part => part.checkpoint.1 } := by
  have saved : (m.parts.map Part.checkpoint).map Prod.fst =
      m.parts.map fun part => part.checkpoint.1 := List.map_map
  obtain ⟨⟨parts,signals⟩,stopped⟩ := Outcome.result_eq_error.mp ran
  have failed : ∃ state, m.tick = .stopped fault state := by
    unfold tick
    dsimp only
    rw [saved,stopped]
    exact ⟨_,rfl⟩
  obtain ⟨state,ended⟩ := failed
  rw [ended,m.tick_stopped ended]

end Machine
end Microprogram

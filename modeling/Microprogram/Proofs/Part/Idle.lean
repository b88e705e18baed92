import Microprogram.Proofs.Part.Wiring

/-! Parts none of whose lines is asserted. Such a part does nothing in its turn, except that a
controller raises the lines of the cycle. -/
namespace Microprogram

def Idle (asserted : Asserted) (lines : List ControlId) : Prop := ∀ line ∈ lines, line ∉ asserted

variable {hw : Registry} {asserted : Asserted} {driven : Driven} {staged : Staged}
  {statuses : SortedSet StatusId}

namespace Idle
variable {lines others : List ControlId} {line : ControlId}

theorem contains (idle : Idle asserted lines) (member : line ∈ lines) : asserted.contains line = false :=
  (SortedSet.contains_eq_false _ _).mpr (idle line member)

theorem of_append (idle : Idle asserted (lines ++ others)) : Idle asserted lines ∧ Idle asserted others :=
  List.forall_mem_append.mp idle

theorem any (idle : Idle asserted lines) {maybe : Option ControlId}
    (member : ∀ line, maybe = some line → line ∈ lines) : maybe.any asserted.contains = false := by
  cases maybe with
  | none => rfl
  | some line => exact idle.contains (member line rfl)

end Idle

namespace RegisterLines
variable {lines : RegisterLines} (idle : Idle asserted lines.controls)
include idle

theorem drive_idle (value : UInt16) : lines.drive hw asserted value driven = .done driven := by
  rw [drive,idle.contains (by simp [controls])]
  rfl

theorem load_idle {σ : Type} (store : UInt16 → σ → σ) (s : σ) :
    lines.load hw asserted driven store s = .done s := by
  rw [load,sense,idle.contains (by simp [controls])]
  rfl

theorem count_idle {ω : Type} [OfNat ω 0] [OfNat ω 1] [Add ω] [Sub ω] (value : ω) :
    lines.count asserted value = value := by
  have reset : lines.reset.any asserted.contains = false := idle.any (by simp +contextual [controls])
  have increment : lines.increment.any asserted.contains = false :=
    idle.any (by simp +contextual [controls])
  have decrement : lines.decrement.any asserted.contains = false :=
    idle.any (by simp +contextual [controls])
  rw [count,reset,increment,decrement]
  rfl

end RegisterLines

namespace WordRegister
variable {w : WordRegister} (idle : Idle asserted w.controls)
include idle

theorem drive_idle : w.drive hw asserted driven = .done driven := by
  obtain ⟨lines,halves,value⟩ := w
  obtain ⟨word,halves_idle⟩ := idle.of_append
  cases halves with
  | none => exact RegisterLines.drive_idle word _
  | some halves =>
    obtain ⟨high,low⟩ := halves_idle.of_append
    simp only [drive,RegisterLines.drive_idle word,Outcome.andThen,RegisterLines.drive_idle high,
      RegisterLines.drive_idle low]

theorem load_idle : w.load hw asserted driven = .done w := by
  obtain ⟨lines,halves,value⟩ := w
  obtain ⟨word,halves_idle⟩ := idle.of_append
  cases halves with
  | none => simp only [load,RegisterLines.load_idle word]
  | some halves =>
    obtain ⟨high,low⟩ := halves_idle.of_append
    simp only [load,RegisterLines.load_idle word,Outcome.andThen,RegisterLines.load_idle high,
      RegisterLines.load_idle low]

theorem count_idle : w.count asserted = w := by
  rw [count,RegisterLines.count_idle idle.of_append.1]

end WordRegister

namespace Register
variable {r : Register} (idle : Idle asserted r.controls)
include idle

theorem drive_idle : r.drive hw asserted driven = .done driven := RegisterLines.drive_idle idle _

theorem load_idle : r.load hw asserted driven = .done r := RegisterLines.load_idle idle _ _

theorem count_idle : r.count asserted = r := by
  rw [count,RegisterLines.count_idle idle]

end Register

namespace AluUnit
variable {alu : AluUnit} (idle : Idle asserted alu.controls)
include idle

theorem registers_idle : Idle asserted alu.lhs.controls ∧ Idle asserted alu.rhs.controls ∧
    Idle asserted alu.result.controls := by
  obtain ⟨operands,result⟩ := idle.of_append
  obtain ⟨first,rhs⟩ := operands.of_append
  exact ⟨first.of_append.2,rhs,result⟩

theorem drive_idle : alu.drive hw asserted driven = .done driven := by
  obtain ⟨lhs,rhs,result⟩ := registers_idle idle
  simp only [drive,Register.drive_idle lhs,Outcome.andThen,Register.drive_idle rhs,Register.drive_idle result]

theorem load_idle : alu.load hw asserted driven = .done alu := by
  obtain ⟨lhs,rhs,result⟩ := registers_idle idle
  simp only [load,Register.load_idle lhs,Outcome.andThen,Register.load_idle rhs,Register.load_idle result,Outcome.map]

theorem process_idle : alu.process hw asserted statuses staged = .done (alu,staged) := by
  obtain ⟨lhs,rhs,result⟩ := registers_idle idle
  have still : alu.count asserted = alu := by
    rw [count,Register.count_idle lhs,Register.count_idle rhs,Register.count_idle result]
  have none : alu.selected asserted = [] := by
    refine List.filter_eq_nil_iff.mpr fun op _ => ?_
    have listed : alu.ops.get op.index ∈ alu.controls := by
      simp only [controls,List.mem_append,Vector.mem_toList_iff]
      exact .inl (.inl (.inl (Vector.getElem_mem op.index.isLt)))
    rw [idle.contains listed]
    exact Bool.false_ne_true
  simp only [process,still,none]

end AluUnit

namespace Memory
variable {m : Memory} (idle : Idle asserted m.controls)
include idle

theorem drive_idle : m.drive hw asserted driven = .done driven := by
  have silent : asserted.contains m.tap.write = false := idle.contains (by simp [controls])
  simp only [drive,silent,Bool.false_eq_true,if_false,Outcome.andThen,
    WordRegister.drive_idle idle.of_append.2]

theorem load_idle : m.load hw asserted driven = .done m := by
  have silent : asserted.contains m.tap.read = false := idle.contains (by simp [controls])
  simp only [load,silent,Bool.false_eq_true,if_false,Outcome.andThen,
    WordRegister.load_idle idle.of_append.2,Outcome.map]

theorem count_idle : m.count asserted = m := by
  rw [count,WordRegister.count_idle idle.of_append.2]

end Memory

namespace StatusRegister
variable {sr : StatusRegister} (idle : Idle asserted sr.controls)
include idle

theorem drive_idle : sr.drive hw asserted driven = .done driven := by
  rw [drive,idle.contains (by simp [controls])]
  rfl

theorem load_idle : sr.load hw asserted driven staged = .done (sr,staged) := by
  rw [load,idle.contains (by simp [controls])]
  rfl

theorem process_idle : sr.process hw asserted staged = .done (sr,staged) := by
  rw [process,idle.contains (by simp [controls]),idle.contains (by simp [controls])]
  rfl

theorem settle_idle : sr.settle hw asserted statuses staged = .done (sr,asserted,staged) := by
  rw [settle,idle.contains (by simp [controls])]
  rfl

end StatusRegister

namespace Controller
variable {c : Controller}

theorem advance_idle (idle : Idle asserted c.controls) : c.advance asserted = c := by
  rw [advance,idle.contains (by simp [controls]),idle.contains (by simp [controls])]
  rfl

end Controller

namespace Part
variable {phase : Phase} {cycle : Nat} {part : Part}

section Acting
variable (idle : Idle asserted part.controls)
include idle

theorem drive_idle : part.drive hw asserted driven = .done driven := by
  cases part with
  | root lines => rfl
  | register r => exact Register.drive_idle idle
  | word w => exact WordRegister.drive_idle idle
  | alu a => exact AluUnit.drive_idle idle
  | statusRegister sr => exact StatusRegister.drive_idle idle
  | memory m => exact Memory.drive_idle idle
  | controller c => exact Register.drive_idle idle.of_append.1
  | scripted c => exact Register.drive_idle idle.of_append.1

theorem load_idle : part.load hw asserted driven staged = .done (part,staged) := by
  cases part with
  | root lines => rfl
  | register r => rw [load,Register.load_idle idle]; rfl
  | word w => rw [load,WordRegister.load_idle idle]; rfl
  | alu a => rw [load,AluUnit.load_idle idle]; rfl
  | statusRegister sr => rw [load,StatusRegister.load_idle idle]; rfl
  | memory m => rw [load,Memory.load_idle idle]; rfl
  | controller c => rw [load,Register.load_idle idle.of_append.1]; rfl
  | scripted c => rw [load,Register.load_idle idle.of_append.1]; rfl

theorem work_idle : part.work hw cycle asserted statuses staged = .done (part,staged) := by
  cases part with
  | root lines =>
    rw [work,rootAct,idle.contains (by simp [Part.controls]),idle.contains (by simp [Part.controls])]
    rfl
  | register r => exact congrArg (fun r => Outcome.done (register r,staged)) (Register.count_idle idle)
  | word w => exact congrArg (fun w => Outcome.done (word w,staged)) (WordRegister.count_idle idle)
  | alu a => exact congrArg (Outcome.map _) (AluUnit.process_idle idle)
  | statusRegister sr => exact congrArg (Outcome.map _) (StatusRegister.process_idle idle)
  | memory m => exact congrArg (fun m => Outcome.done (memory m,staged)) (Memory.count_idle idle)
  | controller c =>
    exact congrArg (fun c => Outcome.done (controller c,staged)) (Controller.advance_idle idle)
  | scripted c => rfl

theorem settle_idle : part.settle hw statuses asserted staged = .done (part,asserted,staged) := by
  cases part with
  | statusRegister sr => exact congrArg (Outcome.map _) (StatusRegister.settle_idle idle)
  | _ => rfl

end Acting

theorem act_idle (later : phase ≠ .control) {signals : Signals}
    (idle : Idle signals.asserted part.controls) :
    part.act hw phase cycle signals = .ok (part,signals) := by
  cases phase with
  | control => contradiction
  | write =>
    rw [act_write,← drive_result,drive_idle idle]
    rfl
  | read =>
    rw [act_read,load_idle idle]
    rfl
  | process =>
    rw [act_process,work_idle idle]
    rfl
  | clear =>
    rw [act_clear,settle_idle idle]
    rfl

theorem act_rests {found left : Signals} {next : Part}
    (idle : phase ≠ .control → Idle found.asserted part.controls)
    (acts : part.act hw phase cycle found = .ok (next,left)) :
    next.resting = part.resting ∧ ∃ asserted, left = { found with asserted } := by
  by_cases first : phase = .control
  · subst first
    rw [act_control,except_map_ok] at acts
    obtain ⟨acted,selected,ended⟩ := acts
    cases ended
    exact ⟨select_resting selected,acted.2,rfl⟩
  · rw [act_idle first (idle first)] at acts
    cases acts
    exact ⟨rfl,_,rfl⟩

end Part
end Microprogram

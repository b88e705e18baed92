import Microprogram.Proofs.Machine.Ownership
import Microprogram.Proofs.Part.Lines
import Microprogram.Proofs.Part.Outlets
import Microprogram.Proofs.Part.Processing

/-! What each part does in a phase in which no bus is driven, on its own account. A part
sees of the others only what they did in earlier phases, so that a phase is the sum of
such deeds. -/
namespace Microprogram

/-- A part as it acted in a phase, the controls it raised and dropped, and its status writes. -/
structure Deed where
  part : Part
  raised : Asserted
  dropped : Asserted
  posts : Staged

namespace Deed

def apply (signals : Signals) (deed : Deed) : Signals :=
  { signals with
    asserted := (signals.asserted.union deed.raised).filter fun control => !deed.dropped.contains control
    staged := signals.staged ++ deed.posts }

theorem apply_raise (signals : Signals) (part : Part) (raised : Asserted) :
    apply signals ⟨part,raised,∅,[]⟩ = { signals with asserted := signals.asserted.union raised } := by
  have lines : (signals.asserted.union raised).filter (fun control => !(∅ : Asserted).contains control) =
      signals.asserted.union raised := SortedSet.ext_mem (by simp [SortedSet.contains_eq_false])
  rw [apply,lines,List.append_nil]

theorem apply_post (signals : Signals) (part : Part) (posts : Staged) :
    apply signals ⟨part,∅,∅,posts⟩ = { signals with staged := signals.staged ++ posts } := by
  have lines : (signals.asserted.union ∅).filter (fun control => !(∅ : Asserted).contains control) =
      signals.asserted := SortedSet.ext_mem (by simp [SortedSet.contains_eq_false])
  rw [apply,lines]

theorem apply_drop (signals : Signals) (part : Part) (others : Asserted) (dropped : ControlId → Bool)
    (posts : Staged) : apply signals ⟨part,∅,others.filter dropped,posts⟩ =
      { signals with
        asserted := signals.asserted.filter fun control => !(others.contains control && dropped control)
        staged := signals.staged ++ posts } := by
  have lines : (signals.asserted.union ∅).filter (fun control => !(others.filter dropped).contains control) =
      signals.asserted.filter fun control => !(others.contains control && dropped control) :=
    SortedSet.ext_mem fun control => by
      simp only [SortedSet.mem_filter,SortedSet.mem_union,SortedSet.not_mem_empty,or_false,
        Bool.not_eq_true',SortedSet.contains_eq_false,Bool.and_eq_false_iff,not_and_or,Bool.not_eq_true]
  rw [apply,lines]

end Deed

namespace Part
variable {hw : Registry} {cycle : Nat}

/-- The process phase of a part: the root crashes or halts, and a scripted controller rests. -/
def work (hw : Registry) (cycle : Nat) (asserted : Asserted) (statuses : SortedSet StatusId)
    (part : Part) (staged : Staged) : Outcome (Part × Staged) :=
  match part with
  | root lines => (rootAct lines hw cycle asserted staged).map (root lines,·)
  | scripted c => .done (scripted c,staged)
  | part => part.process hw asserted statuses staged

/-- What a part does where it acts alone. -/
def deed (hw : Registry) (phase : Phase) (cycle : Nat) (base : Signals) (part : Part) : Except Fault Deed :=
  match phase with
  | .control => (part.select hw base.statuses ∅).result.map fun acted => ⟨acted.1,acted.2,∅,[]⟩
  | .write => .ok ⟨part,∅,∅,[]⟩
  | .read => (part.load hw base.asserted base.driven []).result.map fun acted => ⟨acted.1,∅,∅,acted.2⟩
  | .process => (part.work hw cycle base.asserted base.statuses []).result.map fun acted =>
      ⟨acted.1,∅,∅,acted.2⟩
  | .clear => (part.settle hw base.statuses base.asserted []).result.map fun acted =>
      ⟨acted.1,∅,base.asserted.filter fun control => !acted.2.1.contains control,acted.2.2⟩

section Acting
variable (part : Part) (signals : Signals)

theorem act_control : part.act hw .control cycle signals =
    (part.select hw signals.statuses signals.asserted).result.map fun acted =>
      (acted.1,{ signals with asserted := acted.2 }) := by
  cases part with
  | controller c => exact Outcome.result_map _ _
  | scripted c => exact Outcome.result_map _ _
  | _ => rfl

theorem act_read : part.act hw .read cycle signals =
    (part.load hw signals.asserted signals.driven signals.staged).result.map fun acted =>
      (acted.1,{ signals with staged := acted.2 }) := by
  cases part with
  | root lines => rfl
  | _ => exact Outcome.result_map _ _

theorem act_process : part.act hw .process cycle signals =
    (part.work hw cycle signals.asserted signals.statuses signals.staged).result.map fun acted =>
      (acted.1,{ signals with staged := acted.2 }) := by
  cases part with
  | root lines =>
    change (Outcome.map _ (rootAct lines hw cycle signals.asserted signals.staged)).result = _
    rw [work,Outcome.result_map,Outcome.result_map]
    cases (rootAct lines hw cycle signals.asserted signals.staged).result <;> rfl
  | alu a => exact Outcome.result_map _ _
  | statusRegister sr => exact Outcome.result_map _ _
  | _ => rfl

theorem act_clear : part.act hw .clear cycle signals =
    (part.settle hw signals.statuses signals.asserted signals.staged).result.map fun acted =>
      (acted.1,{ signals with asserted := acted.2.1, staged := acted.2.2 }) := by
  cases part with
  | statusRegister sr => exact Outcome.result_map _ _
  | _ => rfl

end Acting

theorem select_union (part : Part) (statuses : SortedSet StatusId) (asserted : Asserted) :
    (part.select hw statuses asserted).result =
      (part.select hw statuses ∅).result.map fun acted => (acted.1,asserted.union acted.2) := by
  have alone : asserted.union ∅ = asserted := SortedSet.ext_mem (by simp)
  have raised (lines : List ControlId) : (hw.assertAll lines asserted).result =
      (hw.assertAll lines ∅).result.map asserted.union := by
    rw [← hw.assertAll_union lines asserted ∅,alone]
  cases part with
  | controller c =>
    rw [select,select,Outcome.result_map,Outcome.result_map,Controller.select,Controller.select]
    cases c.choose statuses with
    | error fault => rfl
    | ok controls =>
      dsimp only
      rw [raised]
      cases (hw.assertAll controls.toList ∅).result <;> rfl
  | scripted c =>
    rw [select,select,Outcome.result_map,Outcome.result_map,ScriptedController.select,
      ScriptedController.select]
    cases c.script with
    | nil => exact congrArg (fun asserted => Except.ok (scripted c,asserted)) alone.symm
    | cons controls rest =>
      dsimp only
      rw [Outcome.result_map,Outcome.result_map,raised]
      cases (hw.assertAll controls.toList ∅).result <;> rfl
  | _ => exact congrArg (fun asserted => Except.ok (_,asserted)) alone.symm

private theorem result_pass {σ : Type} (acted : Outcome σ) (part : σ → Part) (staged : Staged) :
    (acted.map fun s => (part s,staged)).result =
      (acted.map fun s => (part s,([] : Staged))).result.map fun acted => (acted.1,staged ++ acted.2) := by
  rw [Outcome.result_map,Outcome.result_map]
  cases acted.result with
  | error fault => rfl
  | ok s => exact congrArg (fun staged => Except.ok (part s,staged)) (List.append_nil staged).symm

section Declared
variable {part : Part} (declared : ∀ status ∈ part.statuses, status.index < hw.statuses.size)
include declared

theorem load_append (asserted : Asserted) (driven : Driven) (staged : Staged) :
    (part.load hw asserted driven staged).result =
      (part.load hw asserted driven []).result.map fun acted => (acted.1,staged ++ acted.2) := by
  cases part with
  | root lines => exact result_pass (.done lines) root staged
  | statusRegister sr =>
    rw [load,load,Outcome.result_map,Outcome.result_map,StatusRegister.load_result declared,
      StatusRegister.load_result declared]
    cases sr.lines.tap.sense sr.lines.path hw asserted driven <;> rfl
  | _ => exact result_pass _ _ staged

theorem work_append (asserted : Asserted) (statuses : SortedSet StatusId) (staged : Staged) :
    (part.work hw cycle asserted statuses staged).result =
      (part.work hw cycle asserted statuses []).result.map fun acted => (acted.1,staged ++ acted.2) := by
  cases part with
  | root lines =>
    have known : lines.halted.index < hw.statuses.size := declared _ (by simp [Part.statuses])
    rw [work,work,rootAct,rootAct]
    split
    · rfl
    split
    · rw [Registry.stage,Registry.stage,if_pos known,if_pos known]
      rfl
    · exact result_pass (.done lines) root staged
  | alu a =>
    change ((a.process hw asserted statuses staged).map _).result =
      ((a.process hw asserted statuses []).map _).result.map _
    rw [Outcome.result_map,Outcome.result_map,AluUnit.process_result _ _ _ _ _ declared,
      AluUnit.process_result _ _ _ _ _ declared]
    cases a.operate asserted statuses <;> rfl
  | statusRegister sr =>
    change ((sr.process hw asserted staged).map _).result = ((sr.process hw asserted []).map _).result.map _
    rw [StatusRegister.process_declared declared,StatusRegister.process_declared declared]
    rfl
  | _ => exact result_pass (.done _) (fun s => s) staged

theorem settle_append {asserted others : Asserted} (statuses : SortedSet StatusId) (staged : Staged)
    (known : ∀ control ∈ part.controls, control.index < hw.controls.size)
    (same : ∀ control ∈ part.controls, control ∈ asserted ↔ control ∈ others) :
    (part.settle hw statuses asserted staged).result =
      (part.settle hw statuses others []).result.map fun acted =>
        (acted.1,asserted.filter fun control => !(others.contains control && !acted.2.1.contains control),
          staged ++ acted.2.2) := by
  have kept : asserted.filter (fun control => !(others.contains control && !others.contains control)) =
      asserted := SortedSet.ext_mem (by simp)
  cases part with
  | statusRegister sr =>
    have latch : sr.lines.latch ∈ (statusRegister sr).controls := by
      simp [Part.controls,StatusRegister.controls]
    have seen := SortedSet.contains_congr (same _ latch)
    rw [settle,settle,Outcome.result_map,Outcome.result_map,
      StatusRegister.settle_declared declared _ _ _ (known _ latch),
      StatusRegister.settle_declared declared _ _ _ (known _ latch),seen]
    split
    next raised =>
      have dropped : asserted.erase sr.lines.latch = asserted.filter fun control =>
          !(others.contains control && !(others.erase sr.lines.latch).contains control) := by
        refine SortedSet.ext_mem fun control => ?_
        rw [SortedSet.contains_iff] at raised
        by_cases equal : control = sr.lines.latch
        · simp [equal,raised,SortedSet.contains_eq_false]
        · simpa [equal,SortedSet.contains_eq_false] using
            fun _ => (Classical.em (control ∈ others)).symm
      rw [dropped]
      rfl
    · exact congrArg₂ (fun asserted staged => Except.ok (statusRegister sr,asserted,staged)) kept.symm
        (List.append_nil staged).symm
  | _ =>
    exact congrArg₂ (fun asserted staged => Except.ok (_,asserted,staged)) kept.symm
      (List.append_nil staged).symm

end Declared

/-- What the part looks at in the phase is as it was in the base. -/
structure Sees (phase : Phase) (part : Part) (base now : Signals) : Prop where
  statuses : now.statuses = base.statuses
  driven : now.driven = base.driven
  asserted : phase = .read ∨ phase = .process → now.asserted = base.asserted
  owned : phase = .clear → ∀ control ∈ part.controls, control ∈ now.asserted ↔ control ∈ base.asserted

/-- A part acts as it would alone. -/
theorem act_deed {phase : Phase} (quiet : phase ≠ .write) {part : Part}
    (declared : ∀ line ∈ part.lines, hw.Declares line) {base now : Signals}
    (sees : Sees phase part base now) : part.act hw phase cycle now =
      (part.deed hw phase cycle base).map fun deed => (deed.part,deed.apply now) := by
  have statuses : ∀ status ∈ part.statuses, status.index < hw.statuses.size := fun status member =>
    declared _ (status_mem_lines.mpr member)
  have controls : ∀ control ∈ part.controls, control.index < hw.controls.size := fun control member =>
    declared _ (control_mem_lines.mpr member)
  obtain ⟨values,buses,lines,owned⟩ := sees
  cases phase with
  | control =>
    rw [act_control,select_union,deed,← values]
    cases (part.select hw now.statuses ∅).result with
    | error fault => rfl
    | ok acted => exact congrArg (fun signals => Except.ok (acted.1,signals)) (Deed.apply_raise _ _ _).symm
  | write => contradiction
  | read =>
    rw [act_read,load_append statuses,deed,← buses,← lines (.inl rfl)]
    cases (part.load hw now.asserted now.driven []).result with
    | error fault => rfl
    | ok acted => exact congrArg (fun signals => Except.ok (acted.1,signals)) (Deed.apply_post _ _ _).symm
  | process =>
    rw [act_process,work_append statuses,deed,← values,← lines (.inr rfl)]
    cases (part.work hw cycle now.asserted now.statuses []).result with
    | error fault => rfl
    | ok acted => exact congrArg (fun signals => Except.ok (acted.1,signals)) (Deed.apply_post _ _ _).symm
  | clear =>
    rw [act_clear,settle_append statuses _ _ controls (owned rfl),deed,← values]
    cases (part.settle hw now.statuses base.asserted []).result with
    | error fault => rfl
    | ok acted => exact congrArg (fun signals => Except.ok (acted.1,signals)) (Deed.apply_drop _ _ _ _ _).symm

end Part
end Microprogram

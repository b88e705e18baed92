import Microprogram.Microcode.Draft
import Microprogram.Proofs.Machine.Outcome
import Microprogram.Proofs.Sorted.Set

/-! Drafts by their edits. The control sets of a draft are those of its edits in order,
and a program holds the variants of its drafts and no others. -/
namespace Microprogram

def Edit.controls? : Edit → Option ControlSet
  | .step controls _ => some (.ofList controls)
  | .gate _ _ => none
  | .nextStage => none

namespace Draft

@[simp]
theorem edit_descriptor (draft : Draft) (change : Edit) :
    (draft.edit change).descriptor = draft.descriptor := by
  unfold edit
  split
  · rfl
  · split
    · split <;> rfl
    · rfl
  · rfl

theorem edit_gate_steps (draft : Draft) (status : StatusId) (value : Bool) :
    (draft.edit (.gate status value)).steps = draft.steps ∧
      (draft.edit (.gate status value)).stage = draft.stage := by
  simp only [edit]
  split
  · split <;> exact ⟨rfl,rfl⟩
  · exact ⟨rfl,rfl⟩

theorem stageAfter_toNat (stage : UInt8) : (stageAfter stage).toNat = min 255 (stage.toNat + 1) := by
  have bound := stage.toNat_lt
  unfold stageAfter
  split
  next last =>
    subst last
    rfl
  next early =>
    have other : stage.toNat ≠ 255 := fun same => early (UInt8.toNat_inj.mp same)
    rw [UInt8.toNat_add]
    change (stage.toNat + 1) % 256 = _
    omega

theorem le_stageAfter (stage : UInt8) : stage ≤ stageAfter stage := by
  have after := stageAfter_toNat stage
  have bound := stage.toNat_lt
  rw [UInt8.le_iff_toNat_le]
  omega

theorem edits_steps (draft : Draft) (changes : List Edit) :
    ∃ later, (draft.edits changes).steps = draft.steps ++ later ∧
      later.map Step.controls = changes.filterMap Edit.controls? ∧
      ∀ step ∈ later, draft.stage ≤ step.stage := by
  induction changes generalizing draft with
  | nil => exact ⟨[],(List.append_nil _).symm,rfl,by simp⟩
  | cons change rest ih =>
    obtain ⟨later,steps,controls,staged⟩ := ih (draft.edit change)
    change ((draft.edit change).edits rest).steps = _ at steps
    cases change with
    | step lines buses =>
      refine ⟨_,steps.trans (List.append_assoc _ _ _),congrArg _ controls,?_⟩
      exact List.forall_mem_cons.mpr ⟨UInt8.le_refl _,staged⟩
    | gate status value =>
      obtain ⟨same,stays⟩ := draft.edit_gate_steps status value
      exact ⟨later,same ▸ steps,controls,stays ▸ staged⟩
    | nextStage =>
      have onward := le_stageAfter draft.stage
      exact ⟨later,steps,controls,fun step member => UInt8.le_trans onward (staged step member)⟩

theorem ofEdits_controls (descriptor : Descriptor) (changes : List Edit) :
    (ofEdits descriptor changes).steps.map Step.controls = changes.filterMap Edit.controls? := by
  obtain ⟨later,steps,controls,_⟩ := (start descriptor).edits_steps changes
  change ((start descriptor).edits changes).steps.map _ = _
  rw [steps]
  exact controls

@[simp]
theorem ofEdits_descriptor (descriptor : Descriptor) (changes : List Edit) :
    (ofEdits descriptor changes).descriptor = descriptor := by
  have kept (draft : Draft) : (draft.edits changes).descriptor = draft.descriptor := by
    induction changes generalizing draft with
    | nil => rfl
    | cons change rest ih => exact (ih (draft.edit change)).trans (edit_descriptor draft change)
  exact kept _

end Draft

namespace Program
variable {hw : Registry}

theorem addDraft_ok {program after : Program} {draft : Draft} :
    program.addDraft hw draft = .ok after ↔ draft.check hw = .ok () ∧
      draft.variant ∉ program ∧ after = program.insert draft.variant := by
  rw [addDraft,except_bind_ok,← SortedSet.contains_eq_false]
  constructor
  · rintro ⟨⟨⟩,fine,added⟩
    refine ⟨fine,?_⟩
    cases known : program.contains draft.variant with
    | true => simp [known,bind,Except.bind] at added
    | false => simpa [known,pure,Except.pure,eq_comm] using added
  · rintro ⟨fine,fresh,rfl⟩
    exact ⟨(),fine,by rw [fresh]; rfl⟩

theorem ofDrafts_ok {drafts : List Draft} {program : Program} :
    ofDrafts hw drafts = .ok program ↔ (∀ draft ∈ drafts, draft.check hw = .ok ()) ∧
      (drafts.map Draft.variant).Nodup ∧ program = .ofList (drafts.map Draft.variant) := by
  have adds (start : Program) : drafts.foldlM (addDraft hw) start = .ok program ↔
      (∀ draft ∈ drafts, draft.check hw = .ok ()) ∧ (drafts.map Draft.variant).Nodup ∧
        (∀ draft ∈ drafts, draft.variant ∉ start) ∧
          program = start.insertAll (drafts.map Draft.variant) := by
    induction drafts generalizing start with
    | nil => simp [SortedSet.insertAll,pure,Except.pure,eq_comm]
    | cons draft rest ih =>
      rw [List.foldlM_cons,except_bind_ok]
      simp only [addDraft_ok,ih,List.forall_mem_cons,List.map_cons,List.nodup_cons]
      constructor
      · rintro ⟨_,⟨fine,fresh,rfl⟩,others,apart,later,rfl⟩
        simp only [SortedSet.mem_insert,not_or] at later
        refine ⟨⟨fine,others⟩,⟨?_,apart⟩,⟨fresh,fun other inside => (later other inside).2⟩,rfl⟩
        intro listed
        obtain ⟨other,inside,same⟩ := List.mem_map.mp listed
        exact (later other inside).1 same
      · rintro ⟨⟨fine,others⟩,⟨alone,apart⟩,⟨fresh,later⟩,rfl⟩
        refine ⟨_,⟨fine,fresh,rfl⟩,others,apart,?_,rfl⟩
        intro other inside
        rw [SortedSet.mem_insert]
        rintro (same | old)
        · exact alone (same ▸ List.mem_map_of_mem inside)
        · exact later other inside old
  rw [ofDrafts,adds]
  simp only [SortedSet.not_mem_empty,not_false_eq_true,implies_true,true_and]
  rfl

theorem mem_ofDrafts {drafts : List Draft} {program : Program}
    (made : ofDrafts hw drafts = .ok program) {variant : Variant} :
    variant ∈ program ↔ ∃ draft ∈ drafts, draft.variant = variant := by
  obtain ⟨_,_,rfl⟩ := ofDrafts_ok.mp made
  rw [SortedSet.mem_ofList,List.mem_map]

end Program
end Microprogram

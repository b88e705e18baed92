import Mathlib.Data.List.Forall2
import Mathlib.Data.List.Perm.Basic
import Microprogram.Computer.Microcode
import Microprogram.ControlTable.Encoding
import Microprogram.Proofs.Computer.Layout
import Microprogram.Proofs.ControlTable.Compilation
import Microprogram.Proofs.Microcode.Drafts
import Microprogram.Proofs.Sorted.Map

/-! The order of creation. Instructions may be created in any order, and so may the lines of
a step and the gates of an instruction be named in any order: the compiler makes the same
table of them, or refuses them alike. -/
namespace Microprogram

namespace Edit

def gate? : Edit → Option (StatusId × Bool)
  | step _ _ => none
  | gate status value => some (status,value)
  | nextStage => none

def gates (changes : List Edit) : List (StatusId × Bool) := changes.filterMap gate?

def ungated (changes : List Edit) : List Edit := changes.filter fun change => change.gate?.isNone

/-- The same edit, with the controls and the buses of a step in any order. -/
inductive SameCalls : Edit → Edit → Prop
  | step {controls lines : List ControlId} {buses taps : List BusId} (raised : controls.Perm lines)
      (moved : buses.Perm taps) : SameCalls (step controls buses) (step lines taps)
  | nextStage : SameCalls nextStage nextStage

/-- The same steps and stages one after the other, and the same gates in any order and at any place. -/
structure Rearranged (changes others : List Edit) : Prop where
  steps : List.Forall₂ SameCalls (ungated changes) (ungated others)
  gates : (gates changes).Perm (gates others)

theorem SameCalls.symm {change other : Edit} (same : SameCalls change other) : SameCalls other change := by
  cases same with
  | step raised moved => exact .step raised.symm moved.symm
  | nextStage => exact .nextStage

theorem Rearranged.symm {changes others : List Edit} (rearranged : Rearranged changes others) :
    Rearranged others changes :=
  ⟨rearranged.steps.flip.imp fun _ _ same => same.symm,rearranged.gates.symm⟩

/-- The steps laid so far, and the stage of the next one, after an edit. -/
def lay (laid : List Step × UInt8) : Edit → List Step × UInt8
  | step controls buses => (laid.1 ++ [Step.ofLists laid.2 controls buses],laid.2)
  | gate _ _ => laid
  | nextStage => (laid.1,Draft.stageAfter laid.2)

theorem SameCalls.lay_eq {change other : Edit} (same : SameCalls change other)
    (laid : List Step × UInt8) : lay laid other = lay laid change := by
  cases same with
  | step raised moved =>
    simp only [lay,Step.ofLists,SortedSet.ofList_perm raised,SortedSet.ofList_perm moved]
  | nextStage => rfl

theorem foldl_lay_ungated (changes : List Edit) (laid : List Step × UInt8) :
    (ungated changes).foldl lay laid = changes.foldl lay laid := by
  induction changes generalizing laid with
  | nil => rfl
  | cons change rest ih => cases change <;> exact ih _

theorem Rearranged.foldl_lay {changes others : List Edit} (rearranged : Rearranged changes others)
    (laid : List Step × UInt8) : others.foldl lay laid = changes.foldl lay laid := by
  rw [← foldl_lay_ungated,← foldl_lay_ungated changes]
  have related := rearranged.steps
  generalize ungated changes = steps at related
  generalize ungated others = rest at related
  induction related generalizing laid with
  | nil => rfl
  | cons same _ ih =>
    rw [List.foldl_cons,List.foldl_cons,same.lay_eq]
    exact ih _

end Edit

attribute [ext] Draft

namespace Draft

theorem edits_laid (draft : Draft) (changes : List Edit) :
    ((draft.edits changes).steps,(draft.edits changes).stage) =
      changes.foldl Edit.lay (draft.steps,draft.stage) := by
  induction changes generalizing draft with
  | nil => rfl
  | cons change rest ih =>
    refine (ih (draft.edit change)).trans (congrArg (rest.foldl Edit.lay) ?_)
    cases change with
    | gate status value =>
      simp only [edit,Edit.lay]
      split
      · split <;> rfl
      · rfl
    | step controls buses => rfl
    | nextStage => rfl

section Gates
variable {draft : Draft} {status : StatusId} {value : Bool}

theorem edit_guard (change : Edit) (held : draft.guard.get? status = some value) :
    (draft.edit change).guard.get? status = some value := by
  cases change with
  | gate other given =>
    simp only [edit]
    cases named : draft.guard.get? other with
    | some existing =>
      by_cases same : existing = given <;> simpa [same] using held
    | none =>
      have apart : status ≠ other := by
        rintro rfl
        simp [named] at held
      simpa [SortedMap.get?_insert_of_ne _ _ _ _ apart] using held
  | step controls buses => exact held
  | nextStage => exact held

theorem edits_guard (changes : List Edit) (held : draft.guard.get? status = some value) :
    (draft.edits changes).guard.get? status = some value := by
  induction changes generalizing draft with
  | nil => exact held
  | cons change rest ih => exact ih (edit_guard change held)

theorem edit_conflicts {change : Edit} (agreed : (draft.edit change).conflicts = []) :
    draft.conflicts = [] ∧ ∀ gate, change.gate? = some gate →
      (draft.edit change).guard.get? gate.1 = some gate.2 := by
  cases change with
  | gate other given =>
    simp only [edit] at agreed ⊢
    cases named : draft.guard.get? other with
    | some existing =>
      by_cases same : existing = given
      · subst same
        simpa [named,Edit.gate?] using agreed
      · simp [named,same] at agreed
    | none => simpa [named,Edit.gate?,SortedMap.get?_insert_self] using agreed
  | step controls buses => simpa [edit,Edit.gate?] using agreed
  | nextStage => simpa [edit,Edit.gate?] using agreed

theorem edits_conflicts {changes : List Edit} (agreed : (draft.edits changes).conflicts = []) :
    draft.conflicts = [] ∧ ∀ gate ∈ Edit.gates changes,
      (draft.edits changes).guard.get? gate.1 = some gate.2 := by
  induction changes generalizing draft with
  | nil => exact ⟨agreed,by simp [Edit.gates]⟩
  | cons change rest ih =>
    obtain ⟨earlier,later⟩ := ih agreed
    obtain ⟨none,first⟩ := edit_conflicts earlier
    refine ⟨none,?_⟩
    intro gate member
    obtain ⟨other,inside,given⟩ := List.mem_filterMap.mp member
    rcases List.mem_cons.mp inside with rfl | among
    · exact edits_guard rest (first gate given)
    · exact later gate (List.mem_filterMap.mpr ⟨other,among,given⟩)

end Gates

theorem edit_gate {draft : Draft} {guard : Guard} (settled : draft.conflicts = [])
    (within : ∀ status value, draft.guard.get? status = some value → guard.get? status = some value)
    {other : StatusId} {given : Bool} (agrees : guard.get? other = some given) :
    (draft.edit (.gate other given)).conflicts = [] ∧ ∀ status value,
      (draft.edit (.gate other given)).guard.get? status = some value ↔
        draft.guard.get? status = some value ∨ (status,value) = (other,given) := by
  cases named : draft.guard.get? other with
  | some existing =>
    obtain rfl : given = existing := by simpa [within other existing named] using agrees.symm
    have same : draft.edit (.gate other given) = draft := by simp [edit,named]
    rw [same]
    refine ⟨settled,fun status value => ⟨.inl,?_⟩⟩
    rintro (held | pair)
    · exact held
    · cases pair
      exact named
  | none =>
    have added : draft.edit (.gate other given) =
        { draft with guard := draft.guard.insert other given } := by simp [edit,named]
    rw [added]
    refine ⟨settled,fun status value => ?_⟩
    by_cases same : status = other
    · subst same
      simp [SortedMap.get?_insert_self,named,eq_comm]
    · simp [SortedMap.get?_insert_of_ne _ _ _ _ same,same]

theorem edits_gates {draft : Draft} {guard : Guard} (settled : draft.conflicts = [])
    (within : ∀ status value, draft.guard.get? status = some value → guard.get? status = some value)
    {changes : List Edit} (agrees : ∀ gate ∈ Edit.gates changes, guard.get? gate.1 = some gate.2) :
    (draft.edits changes).conflicts = [] ∧ ∀ status value,
      (draft.edits changes).guard.get? status = some value ↔
        draft.guard.get? status = some value ∨ (status,value) ∈ Edit.gates changes := by
  induction changes generalizing draft with
  | nil => exact ⟨settled,by simp [Edit.gates,edits]⟩
  | cons change rest ih =>
    cases change with
    | gate other given =>
      obtain ⟨agreed,among⟩ := List.forall_mem_cons.mp agrees
      obtain ⟨calm,gated⟩ := edit_gate settled within agreed
      have inside : ∀ status value, (draft.edit (.gate other given)).guard.get? status = some value →
          guard.get? status = some value := by
        intro status value held
        rcases (gated status value).mp held with before | pair
        · exact within status value before
        · cases pair
          exact agreed
      obtain ⟨peaceful,held⟩ := ih calm inside among
      refine ⟨peaceful,fun status value => ?_⟩
      change ((draft.edit (.gate other given)).edits rest).guard.get? status = some value ↔
        _ ∨ (status,value) ∈ (other,given) :: Edit.gates rest
      rw [held,gated,List.mem_cons,or_assoc]
    | step controls buses => exact ih settled within agrees
    | nextStage => exact ih settled within agrees

/-- Drafts whose gates do not conflict are the same, in whatever order their calls were made. -/
theorem ofEdits_rearranged {descriptor : Descriptor} {changes others : List Edit}
    (rearranged : Edit.Rearranged changes others)
    (agreed : (ofEdits descriptor changes).conflicts = []) :
    ofEdits descriptor others = ofEdits descriptor changes := by
  have laid := (edits_laid (start descriptor) others).trans ((rearranged.foldl_lay _).trans
    (edits_laid (start descriptor) changes).symm)
  obtain ⟨steps,stage⟩ := Prod.mk.inj laid
  -- The guard that the first order leaves is one that the gates agree with in either order.
  have agrees := (edits_conflicts agreed).2
  have unnamed : ∀ status value, (start descriptor).guard.get? status = some value →
      (ofEdits descriptor changes).guard.get? status = some value := by
    intro status value held
    cases held
  obtain ⟨_,held⟩ := edits_gates rfl unnamed agrees
  obtain ⟨calm,also⟩ := edits_gates rfl unnamed fun gate member =>
    agrees gate (rearranged.gates.mem_iff.mpr member)
  apply Draft.ext
  · rw [ofEdits_descriptor,ofEdits_descriptor]
  · exact steps
  · apply SortedMap.ext_get
    intro status
    apply Option.ext
    intro value
    exact (also status value).trans ((or_congr_right rearranged.gates.mem_iff.symm).trans
      (held status value).symm)
  · exact calm.trans agreed.symm
  · exact stage

theorem check_conflicts {hw : Registry} {draft : Draft} (fine : draft.check hw = .ok ()) :
    draft.conflicts = [] := by
  cases found : draft.conflicts with
  | nil => rfl
  | cons conflict rest => simp [check,found,bind,Except.bind] at fine

end Draft

/-- An instruction as it is created: its descriptor and the edits made to it. -/
structure Creation where
  descriptor : Descriptor
  edits : List Edit

namespace Creation
variable {hw : Registry} {creations others : List Creation}

def draft (creation : Creation) : Draft := .ofEdits creation.descriptor creation.edits

def Rearranged (creation other : Creation) : Prop :=
  other.descriptor = creation.descriptor ∧ Edit.Rearranged creation.edits other.edits

/-- The same instructions created in another order, each with its calls in another order. -/
def Reordered (creations others : List Creation) : Prop :=
  ∃ among, creations.Perm among ∧ List.Forall₂ Rearranged among others

theorem Rearranged.symm {creation other : Creation} (rearranged : creation.Rearranged other) :
    other.Rearranged creation := ⟨rearranged.1.symm,rearranged.2.symm⟩

theorem Reordered.symm (reordered : Reordered creations others) : Reordered others creations := by
  obtain ⟨middle,related,perm⟩ := List.perm_comp_forall₂ reordered.choose_spec.1 reordered.choose_spec.2
  exact ⟨middle,perm.symm,related.flip.imp fun _ _ => Rearranged.symm⟩

theorem Rearranged.draft_eq {creation other : Creation} (rearranged : creation.Rearranged other)
    (fine : creation.draft.check hw = .ok ()) : other.draft = creation.draft := by
  obtain ⟨same,edits⟩ := rearranged
  rw [draft,same]
  exact Draft.ofEdits_rearranged edits (Draft.check_conflicts fine)

theorem Reordered.drafts_perm (reordered : Reordered creations others)
    (fine : ∀ made ∈ creations.map draft, made.check hw = .ok ()) :
    (creations.map draft).Perm (others.map draft) := by
  obtain ⟨among,perm,related⟩ := reordered
  have checked : ∀ creation ∈ among, creation.draft.check hw = .ok () := by
    intro creation member
    exact fine _ (List.mem_map_of_mem (perm.mem_iff.mpr member))
  refine (perm.map draft).trans (List.Perm.of_eq ?_)
  clear perm
  induction related with
  | nil => rfl
  | cons same _ ih =>
    obtain ⟨first,rest⟩ := List.forall_mem_cons.mp checked
    rw [List.map_cons,List.map_cons,same.draft_eq first,ih rest]

theorem Reordered.program_ok (reordered : Reordered creations others) {program : Program}
    (made : Program.ofDrafts hw (creations.map draft) = .ok program) :
    Program.ofDrafts hw (others.map draft) = .ok program := by
  obtain ⟨fine,apart,rfl⟩ := Program.ofDrafts_ok.mp made
  have perm := reordered.drafts_perm fine
  apply Program.ofDrafts_ok.mpr
  refine ⟨?_,?_,SortedSet.ofList_perm (perm.map Draft.variant)⟩
  · intro draft member
    exact fine draft (perm.mem_iff.mpr member)
  · exact (perm.map Draft.variant).nodup_iff.mp apart

end Creation

namespace Compiler
variable {creations others : List Creation}

theorem program_of_compile {compiler : Compiler} {drafts : List Draft} {table : ControlTable}
    (compiled : compiler.compile drafts = .ok table) :
    ∃ program, Program.ofDrafts compiler.hardware drafts = .ok program := by
  obtain ⟨_,ended,_⟩ := compile_ok.mp compiled
  obtain ⟨plain,listed,_⟩ := compileProgram_ok.mp ended
  exact ⟨plain,listed⟩

/-- Reordered creations compile to the same table, with the same bytes and the same listing, or
neither of them compiles. Where the first become a program, the outcome is the same, down to the
reason for which it is refused. -/
theorem creation_order_irrelevant (compiler : Compiler) (reordered : Creation.Reordered creations others) :
    let compiled := compiler.compile (creations.map Creation.draft)
    let also := compiler.compile (others.map Creation.draft)
    (compiled.isOk = true ↔ also.isOk = true) ∧
      (∀ table other, compiled = .ok table → also = .ok other → other = table ∧
        other.encode = table.encode ∧ ∀ hw, other.listing hw = table.listing hw) ∧
      ∀ program, Program.ofDrafts compiler.hardware (creations.map Creation.draft) = .ok program →
        also = compiled := by
  intro compiled also
  have alike : ∀ program, Program.ofDrafts compiler.hardware (creations.map Creation.draft) = .ok program →
      also = compiled := by
    intro program made
    simp only [also,compiled,compile,compileProgram,Compiler.program,made,reordered.program_ok made]
  have carries {table : ControlTable} (made : compiled = .ok table) : also = compiled := by
    obtain ⟨plain,listed⟩ := program_of_compile made
    exact alike plain listed
  have back {table : ControlTable} (made : also = .ok table) : also = compiled := by
    obtain ⟨plain,listed⟩ := program_of_compile made
    exact alike plain (reordered.symm.program_ok listed)
  refine ⟨⟨fun fine => ?_,fun fine => ?_⟩,fun table other first second => ?_,alike⟩
  · obtain ⟨table,made⟩ := except_of_isOk fine
    rw [carries made]
    exact fine
  · obtain ⟨table,made⟩ := except_of_isOk fine
    rw [← back made]
    exact fine
  · obtain rfl := Except.ok.inj (second.symm.trans ((carries first).trans first))
    exact ⟨rfl,rfl,fun _ => rfl⟩

/-- A move from A to X, for each value of the carry and of zero. -/
def moves (edits : Bool → Bool → List Edit) : List Creation :=
  [(false,false),(false,true),(true,false),(true,true)].map fun values =>
    ⟨⟨0,"mov",.none,""⟩,edits values.1 values.2⟩

def gatesFirst (carry zero : Bool) : List Edit :=
  [.gate Layout.standard.statusRegister.flags.carry carry,
    .gate Layout.standard.statusRegister.flags.zero zero,
    .step [Layout.standard.a.tap.write,Layout.standard.x.tap.read] [Layout.standard.dataBus]]

def gatesAround (carry zero : Bool) : List Edit :=
  [.gate Layout.standard.statusRegister.flags.zero zero,
    .step [Layout.standard.x.tap.read,Layout.standard.a.tap.write] [Layout.standard.dataBus],
    .gate Layout.standard.statusRegister.flags.carry carry]

theorem moves_reordered : Creation.Reordered (moves gatesFirst) (moves gatesAround).reverse := by
  have each (carry zero : Bool) : Edit.Rearranged (gatesFirst carry zero) (gatesAround carry zero) :=
    ⟨.cons (.step (List.Perm.swap _ _ _) (.refl _)) .nil,List.Perm.swap _ _ _⟩
  refine ⟨(moves gatesFirst).reverse,(List.reverse_perm _).symm,?_⟩
  rw [List.forall₂_reverse_iff]
  simp only [moves,List.forall₂_map_left_iff,List.forall₂_map_right_iff]
  exact List.forall₂_same.mpr fun values _ => ⟨rfl,each values.1 values.2⟩

theorem moves_compile_alike : Creation.Reordered (moves gatesFirst) (moves gatesAround).reverse ∧
    ∃ catalog table, Catalog.ofList [⟨0,"mov",.none,""⟩] = .ok catalog ∧
      (Computer.compiler .standard catalog).compile ((moves gatesFirst).map Creation.draft) =
        .ok table ∧
      (Computer.compiler .standard catalog).compile ((moves gatesAround).reverse.map Creation.draft) =
        .ok table := by
  obtain ⟨catalog,table,cataloged,compiled⟩ := @compiles_of_isOk ((moves gatesFirst).map Creation.draft)
    (Computer.compiler .standard) [⟨0,"mov",.none,""⟩] (by decide +kernel)
  obtain ⟨program,listed⟩ := program_of_compile compiled
  obtain ⟨_,_,alike⟩ := creation_order_irrelevant (Computer.compiler .standard catalog) moves_reordered
  exact ⟨moves_reordered,catalog,table,cataloged,compiled,(alike program listed).trans compiled⟩

end Compiler
end Microprogram

import Microprogram.Computer.Microcode
import Microprogram.Proofs.Hardware.Idents
import Microprogram.Proofs.Microcode.BusUse

/-! The check of bus use, exactly. It accepts the programs whose steps drive every bus they use,
and tells of the first bus that is not driven: in the least variant, then in its first step,
then the lowest. -/
namespace Microprogram

section Checks
variable {ε α : Type} {error : ε}

theorem except_forM_ascending [Ord α] [Std.TransOrd α] {check : α → Except ε Unit} {items : List α}
    (ascending : Sorted.Ascending id items) : items.forM check = .error error ↔
      ∃ item ∈ items, (∀ other ∈ items, compare other item = .lt → check other = .ok ()) ∧
        check item = .error error := by
  rw [except_forM_error_iff]
  constructor
  · rintro ⟨before,item,after,rfl,fine,found⟩
    refine ⟨item,by simp,fun other member less => ?_,found⟩
    obtain ⟨above,_⟩ := List.pairwise_cons.mp (List.pairwise_append.mp ascending).2.1
    rcases List.mem_append.mp member with earlier | later
    · exact fine other earlier
    · rcases List.mem_cons.mp later with rfl | behind
      · rw [Std.ReflOrd.compare_self] at less
        cases less
      · have greater := Std.OrientedCmp.gt_of_lt (above other behind)
        change compare other item = .gt at greater
        rw [less] at greater
        cases greater
  · rintro ⟨item,member,fine,found⟩
    obtain ⟨before,after,rfl⟩ := List.append_of_mem member
    refine ⟨before,item,after,rfl,fun other earlier => ?_,found⟩
    exact fine other (List.mem_append_left _ earlier)
      ((List.pairwise_append.mp ascending).2.2 other earlier item List.mem_cons_self)

theorem except_forM_zipIdx {check : α × Nat → Except ε Unit} {items : List α} :
    items.zipIdx.forM check = .error error ↔ ∃ place item, items[place]? = some item ∧
      (∀ earlier ∈ (items.take place).zipIdx, check earlier = .ok ()) ∧
        check (item,place) = .error error := by
  rw [except_forM_error_iff]
  constructor
  · rintro ⟨numbered,item,later,order,fine,found⟩
    obtain ⟨before,others,rfl,rfl,rest⟩ := List.zipIdx_eq_append_iff.mp order
    obtain ⟨item,after,rfl,rfl,rfl⟩ := List.zipIdx_eq_cons_iff.mp rest.symm
    rw [Nat.zero_add] at found
    exact ⟨before.length,item,by simp,by rwa [List.take_left],found⟩
  · rintro ⟨place,item,at_place,fine,found⟩
    obtain ⟨small,rfl⟩ := List.getElem?_eq_some_iff.mp at_place
    refine ⟨(items.take place).zipIdx,(items[place],place),(items.drop (place + 1)).zipIdx (place + 1),
      ?_,fine,found⟩
    conv => lhs; rw [← List.take_append_drop place items,List.drop_eq_getElem_cons small]
    rw [List.zipIdx_append,List.zipIdx_cons,Nat.zero_add,List.length_take_of_le (Nat.le_of_lt small)]

end Checks

namespace Step

/-- Every bus that the step uses is driven. -/
def WellDriven (hw : Registry) (step : Step) : Prop := ∀ bus, step.Uses hw bus → step.Drives hw bus

/-- Why a bus is not driven, and the refusal that tells of it. -/
inductive Misdriven (hw : Registry) (label : String) (place : Nat) (step : Step) (bus : BusId) :
    Rejection → Prop
  | unwritten (silent : ∀ line ∈ step.controls, hw.actionOf line ≠ some (.write bus)) :
      Misdriven hw label place step bus (.busNotWritten label place (hw.busPath bus))
  | contested {writers : List ControlId}
      (ordered : writers.Pairwise fun line other => line.index < other.index)
      (all : ∀ line, line ∈ writers ↔ line ∈ step.controls ∧ hw.actionOf line = some (.write bus))
      (several : 2 ≤ writers.length) : Misdriven hw label place step bus
        (.busMultipleWriters label place (hw.busPath bus) (writers.map hw.controlPath))
  | unread (single : ∃! line, line ∈ step.controls ∧ hw.actionOf line = some (.write bus))
      (unheard : ∀ line ∈ step.controls, hw.actionOf line ≠ some (.read bus)) :
      Misdriven hw label place step bus (.busNotRead label place (hw.busPath bus))

variable {hw : Registry} {label : String} {place : Nat} {step : Step} {bus : BusId}
  {rejection : Rejection}

theorem checkBus_error : step.checkBus hw label place bus = .error rejection ↔
    Misdriven hw label place step bus rejection := by
  constructor
  · intro failed
    unfold checkBus at failed
    split at failed
    next none =>
      cases failed
      refine .unwritten fun line member writes => ?_
      exact List.not_mem_nil (none ▸ mem_writers.mpr ⟨member,writes⟩)
    next writer single =>
      split at failed
      next unheard =>
        cases failed
        exact .unread (writers_single.mp ⟨writer,single⟩) (readers_nil.mp unheard)
      · cases failed
    next some several =>
      cases failed
      refine .contested ?_ (fun _ => mem_writers) ?_
      · exact writers_ascending.imp Ident.compare_lt.mp
      · match found : step.writers hw bus with
        | [] => exact absurd found some
        | [writer] => exact absurd found (several writer)
        | _ :: _ :: _ => exact Nat.le_add_left 2 _
  · rintro (silent | ⟨ordered,all,several⟩ | ⟨single,unheard⟩)
    · have none : step.writers hw bus = [] :=
        List.eq_nil_iff_forall_not_mem.mpr fun line writes =>
          silent line (mem_writers.mp writes).1 (mem_writers.mp writes).2
      rw [checkBus,none]
    · next writers =>
      have same : step.writers hw bus = writers := by
        refine writers_ascending.ext (ordered.imp Ident.compare_lt.mpr) fun line => ?_
        exact mem_writers.trans (all line).symm
      rw [checkBus,same]
      match writers with
      | _ :: _ :: _ => rfl
    · obtain ⟨writer,only⟩ := writers_single.mpr single
      rw [checkBus,only]
      exact if_pos (readers_nil.mpr unheard)

section Declared
variable (declared : ∀ line ∈ step.controls, (hw.control? line).isSome = true)
include declared

theorem checkBuses_eq : step.checkBuses hw label place =
    (step.touched hw).toList.forM (step.checkBus hw label place) := by
  have declares : step.controls.toList.forM (fun line => (hw.stepControl line).map fun _ => ()) = .ok () := by
    refine except_forM_ok.mpr fun line member => ?_
    obtain ⟨decl,found⟩ := Option.isSome_iff_exists.mp (declared line member)
    exact except_map_ok.mpr ⟨decl,Registry.stepControl_ok.mpr found,rfl⟩
  rw [checkBuses,declares]
  rfl

theorem checkBuses_ok : step.checkBuses hw label place = .ok () ↔ step.WellDriven hw := by
  rw [checkBuses_eq declared,except_forM_ok]
  exact forall_congr' fun bus => imp_congr mem_touched checkBus_ok

theorem checkBuses_error : step.checkBuses hw label place = .error rejection ↔
    ∃ bus, step.Uses hw bus ∧
      (∀ other : BusId, other.index < bus.index → step.Uses hw other → step.Drives hw other) ∧
        Misdriven hw label place step bus rejection := by
  rw [checkBuses_eq declared,except_forM_ascending (step.touched hw).ascending]
  refine exists_congr fun bus => and_congr mem_touched (and_congr ?_ checkBus_error)
  refine forall_congr' fun other => ?_
  rw [Ident.compare_lt,checkBus_ok,← mem_touched]
  exact forall_comm

end Declared

section Steps
variable {steps : List Step}
  (declared : ∀ step ∈ steps, ∀ line ∈ step.controls, (hw.control? line).isSome = true)
include declared

theorem checkAll_ok : (∀ entry ∈ steps.zipIdx, entry.1.checkBuses hw label entry.2 = .ok ()) ↔
    ∀ step ∈ steps, step.WellDriven hw := by
  constructor
  · intro checked step member
    obtain ⟨place,found⟩ := List.mem_iff_getElem?.mp member
    exact (checkBuses_ok (declared step member)).mp
      (checked (step,place) (List.mk_mem_zipIdx_iff_getElem?.mpr found))
  · intro driven entry numbered
    have member := List.fst_mem_of_mem_zipIdx numbered
    exact (checkBuses_ok (declared entry.1 member)).mpr (driven entry.1 member)

theorem checkAll_error :
    (steps.zipIdx.forM fun entry => entry.1.checkBuses hw label entry.2) = .error rejection ↔
      ∃ place step, steps[place]? = some step ∧ (∀ earlier ∈ steps.take place, earlier.WellDriven hw) ∧
        step.checkBuses hw label place = .error rejection := by
  rw [except_forM_zipIdx]
  refine exists_congr fun place => exists_congr fun step => and_congr_right fun _ => and_congr_left fun _ => ?_
  exact checkAll_ok fun earlier member => declared earlier (List.mem_of_mem_take member)

end Steps
end Step

/-- A bus of the program that is used and not driven, with none like it before it. -/
structure Program.FirstMisuse (hw : Registry) (program : Program) (variant : Variant) (place : Nat)
    (step : Step) (bus : BusId) : Prop where
  member : variant ∈ program
  variants : ∀ other ∈ program, compare other variant = .lt → ∀ step ∈ other.steps, step.WellDriven hw
  found : variant.steps[place]? = some step
  steps : ∀ earlier ∈ variant.steps.take place, earlier.WellDriven hw
  used : step.Uses hw bus
  buses : ∀ other : BusId, other.index < bus.index → step.Uses hw other → step.Drives hw other

/-- The check of bus use accepts the programs whose steps have one writer and a reader for every
bus they use, and tells of the first fault of the others. -/
theorem Pass.busUse_exact (compiler : Compiler) (program : Program)
    (declared : ∀ variant ∈ program, ∀ step ∈ variant.steps, ∀ line ∈ step.controls,
      (compiler.hardware.control? line).isSome = true) :
    (Pass.busUse.run compiler program = .ok program ↔
      ∀ variant ∈ program, ∀ step ∈ variant.steps, step.WellDriven compiler.hardware) ∧
    ∀ rejection, Pass.busUse.run compiler program = .error rejection ↔
      ∃ variant place step bus, program.FirstMisuse compiler.hardware variant place step bus ∧
        step.Misdriven compiler.hardware variant.label place bus rejection := by
  have accepts (variant : Variant) (member : variant ∈ program) :
      (variant.steps.zipIdx.forM fun entry =>
        entry.1.checkBuses compiler.hardware variant.label entry.2) = .ok () ↔
        ∀ step ∈ variant.steps, step.WellDriven compiler.hardware :=
    except_forM_ok.trans (Step.checkAll_ok (declared variant member))
  constructor
  · have all : program.checkBusUse compiler.hardware = .ok () ↔
        ∀ variant ∈ program, ∀ step ∈ variant.steps, step.WellDriven compiler.hardware :=
      except_forM_ok.trans (forall₂_congr accepts)
    rw [Pass.run,except_map_ok,← all]
    exact ⟨fun ⟨_,checked,_⟩ => checked,fun checked => ⟨(),checked,rfl⟩⟩
  · intro rejection
    rw [Pass.run,except_map_error,Program.checkBusUse,except_forM_ascending program.ascending]
    constructor
    · rintro ⟨variant,member,fine,failed⟩
      obtain ⟨place,step,found,steps,failed⟩ :=
        (Step.checkAll_error (declared variant member)).mp failed
      obtain ⟨bus,used,buses,fault⟩ := (Step.checkBuses_error
        (declared variant member step (List.mem_of_getElem? found))).mp failed
      refine ⟨variant,place,step,bus,⟨member,?_,found,steps,used,buses⟩,fault⟩
      intro other among less
      exact (accepts other among).mp (fine other among less)
    · rintro ⟨variant,place,step,bus,first,fault⟩
      refine ⟨variant,first.member,?_,?_⟩
      · intro other among less
        exact (accepts other among).mpr (first.variants other among less)
      · refine (Step.checkAll_error (declared variant first.member)).mpr
          ⟨place,step,first.found,first.steps,?_⟩
        exact (Step.checkBuses_error (declared variant first.member step
          (List.mem_of_getElem? first.found))).mpr ⟨bus,first.used,first.buses,fault⟩

/-- A transfer of A to X, and then one of both A and X to Y. -/
def clashing : Program := .ofList [⟨⟨0x20,"tax",.none,"Transfer A to X"⟩,∅,
  [.ofLists 0 [Layout.standard.a.tap.write,Layout.standard.x.tap.read] [Layout.standard.dataBus],
    .ofLists 0 [Layout.standard.a.tap.write,Layout.standard.x.tap.write,Layout.standard.y.tap.read] []]⟩]

theorem clashing_misused : (∀ variant ∈ clashing, ∀ step ∈ variant.steps, ∀ line ∈ step.controls,
      (Layout.standard.hardware.control? line).isSome = true) ∧
    ∃ variant place step bus, clashing.FirstMisuse Layout.standard.hardware variant place step bus ∧
      step.Misdriven Layout.standard.hardware variant.label place bus
        (.busMultipleWriters "tax (none)" 1 "/data_bus" ["/cpu/a/write","/cpu/x/write"]) := by
  have declared : ∀ variant ∈ clashing, ∀ step ∈ variant.steps, ∀ line ∈ step.controls,
      (Layout.standard.hardware.control? line).isSome = true := by
    simp only [← SortedSet.mem_toList]
    decide +kernel
  have failed : Pass.busUse.run (Computer.compiler Layout.standard default) clashing =
      .error (.busMultipleWriters "tax (none)" 1 "/data_bus" ["/cpu/a/write","/cpu/x/write"]) := by
    decide +kernel
  exact ⟨declared,((Pass.busUse_exact _ clashing declared).2 _).mp failed⟩

end Microprogram

import Mathlib.Data.List.Nodup
import Microprogram.Microcode.BusUse
import Microprogram.Proofs.Computer.Wiring
import Microprogram.Proofs.Machine.Outcome
import Microprogram.Proofs.Sorted.Set

/-! What the check of bus use establishes: a set of declared lines in which no bus has
two writers, and a bus is written just when it is read. -/
namespace Microprogram

/-- Lines that share the buses: one writer for each bus that is used, and a reader. -/
structure BusSound (hw : Registry) (lines : ControlSet) : Prop where
  declared : ∀ line ∈ lines, ∃ action, hw.actionOf line = some action
  single : ∀ line ∈ lines, ∀ other ∈ lines, ∀ bus, hw.actionOf line = some (.write bus) →
    hw.actionOf other = some (.write bus) → line = other
  written : ∀ line ∈ lines, ∀ bus, hw.actionOf line = some (.read bus) →
    ∃ writer ∈ lines, hw.actionOf writer = some (.write bus)
  taken : ∀ line ∈ lines, ∀ bus, hw.actionOf line = some (.write bus) →
    ∃ reader ∈ lines, hw.actionOf reader = some (.read bus)

theorem except_forM_ok {ε α : Type} {check : α → Except ε Unit} {items : List α} :
    items.forM check = .ok () ↔ ∀ item ∈ items, check item = .ok () := by
  induction items with
  | nil => simp [List.forM,pure,Except.pure]
  | cons item rest ih =>
    rw [List.forM,except_bind_ok,List.forall_mem_cons,← ih]
    constructor
    · rintro ⟨⟨⟩,first,later⟩
      exact ⟨first,later⟩
    · rintro ⟨first,later⟩
      exact ⟨(),first,later⟩

theorem except_forM_error_iff {ε α : Type} {check : α → Except ε Unit} {items : List α} {error : ε} :
    items.forM check = .error error ↔ ∃ before item after, items = before ++ item :: after ∧
      (∀ earlier ∈ before, check earlier = .ok ()) ∧ check item = .error error := by
  constructor
  · intro failed
    induction items with
    | nil => cases failed
    | cons item rest ih =>
      rw [List.forM,except_bind_error] at failed
      rcases failed with first | ⟨⟨⟩,passed,later⟩
      · exact ⟨[],item,rest,rfl,nofun,first⟩
      · obtain ⟨before,other,after,rfl,fine,found⟩ := ih later
        exact ⟨item :: before,other,after,rfl,List.forall_mem_cons.mpr ⟨passed,fine⟩,found⟩
  · rintro ⟨before,item,after,rfl,fine,found⟩
    induction before with
    | nil =>
      rw [List.nil_append,List.forM,found]
      rfl
    | cons first rest ih =>
      obtain ⟨passed,others⟩ := List.forall_mem_cons.mp fine
      rw [List.cons_append,List.forM,passed]
      exact ih others

theorem except_forM_error {ε α : Type} {check : α → Except ε Unit} {items : List α} {error : ε}
    (failed : items.forM check = .error error) : ∃ item ∈ items, check item = .error error := by
  obtain ⟨before,item,after,rfl,_,found⟩ := except_forM_error_iff.mp failed
  exact ⟨item,by simp,found⟩

theorem Registry.stepControl_ok {hw : Registry} {line : ControlId} {decl : ControlDecl} :
    hw.stepControl line = .ok decl ↔ hw.control? line = some decl := by
  rw [stepControl,except_mapError_ok,control]
  cases hw.control? line <;> simp [known]

theorem Registry.actionOf_of_declared {hw : Registry} {line : ControlId} {decl : ControlDecl}
    (declared : hw.control? line = some decl) : hw.actionOf line = some decl.action := by
  rw [actionOf,declared]
  rfl

namespace Step

theorem written?_eq_some {hw : Registry} {line : ControlId} {bus : BusId} :
    written? hw line = some bus ↔ hw.actionOf line = some (.write bus) := by
  unfold written? Registry.actionOf
  rcases (hw.control? line).map ControlDecl.action with _ | _ | _ | _ | _ <;> simp

theorem readFrom?_eq_some {hw : Registry} {line : ControlId} {bus : BusId} :
    readFrom? hw line = some bus ↔ hw.actionOf line = some (.read bus) := by
  unfold readFrom? Registry.actionOf
  rcases (hw.control? line).map ControlDecl.action with _ | _ | _ | _ | _ <;> simp

theorem mem_writers {hw : Registry} {step : Step} {bus : BusId} {line : ControlId} :
    line ∈ step.writers hw bus ↔ line ∈ step.controls ∧ hw.actionOf line = some (.write bus) := by
  rw [writers,List.mem_filter,decide_eq_true_eq,written?_eq_some]
  exact .rfl

theorem mem_readers {hw : Registry} {step : Step} {bus : BusId} {line : ControlId} :
    line ∈ step.readers hw bus ↔ line ∈ step.controls ∧ hw.actionOf line = some (.read bus) := by
  rw [readers,List.mem_filter,decide_eq_true_eq,readFrom?_eq_some]
  exact .rfl

/-- The step annotates the bus, or has a line that writes it or reads it. -/
def Uses (hw : Registry) (step : Step) (bus : BusId) : Prop :=
  bus ∈ step.buses ∨ ∃ line ∈ step.controls,
    hw.actionOf line = some (.write bus) ∨ hw.actionOf line = some (.read bus)

/-- One line of the step writes the bus, and at least one reads it. -/
structure Drives (hw : Registry) (step : Step) (bus : BusId) : Prop where
  writer : ∃! line, line ∈ step.controls ∧ hw.actionOf line = some (.write bus)
  reader : ∃ line ∈ step.controls, hw.actionOf line = some (.read bus)

section Buses
variable {hw : Registry} {label : String} {place : Nat} {step : Step} {bus : BusId}

theorem mem_touched : bus ∈ step.touched hw ↔ step.Uses hw bus := by
  simp only [touched,SortedSet.mem_insertAll,List.mem_filterMap,written?_eq_some,readFrom?_eq_some,
    Uses,or_assoc,and_or_left,exists_or]
  exact .rfl

theorem writers_ascending : Sorted.Ascending id (step.writers hw bus) := step.controls.ascending.filter _

theorem writers_single : (∃ writer, step.writers hw bus = [writer]) ↔
    ∃! line, line ∈ step.controls ∧ hw.actionOf line = some (.write bus) := by
  simp only [← mem_writers]
  constructor
  · rintro ⟨writer,single⟩
    rw [single]
    exact ⟨writer,List.mem_singleton_self writer,fun line => List.mem_singleton.mp⟩
  · rintro ⟨writer,member,only⟩
    refine ⟨writer,List.perm_singleton.mp ?_⟩
    refine (List.perm_ext_iff_of_nodup writers_ascending.nodup (List.nodup_singleton writer)).mpr
      fun line => ?_
    rw [List.mem_singleton]
    exact ⟨only line,fun same => same ▸ member⟩

theorem readers_nil : step.readers hw bus = [] ↔
    ∀ line ∈ step.controls, hw.actionOf line ≠ some (.read bus) := by
  simp only [List.eq_nil_iff_forall_not_mem,mem_readers,not_and,ne_eq]

theorem checkBus_ok : step.checkBus hw label place bus = .ok () ↔ step.Drives hw bus := by
  have driven : step.Drives hw bus ↔
      (∃ writer, step.writers hw bus = [writer]) ∧ step.readers hw bus ≠ [] := by
    rw [writers_single,ne_eq,readers_nil]
    simp only [not_forall,ne_eq,not_not,exists_prop]
    exact ⟨fun drives => ⟨drives.writer,drives.reader⟩,fun ⟨writer,reader⟩ => ⟨writer,reader⟩⟩
  rw [driven]
  unfold checkBus
  split
  next none => simp [none]
  next writer single =>
    rw [single]
    split <;> simp [*]
  next several =>
    simp only [reduceCtorEq,false_iff,not_and]
    rintro ⟨writer,single⟩
    exact absurd single (several writer)

theorem checkBuses_sound (checked : step.checkBuses hw label place = .ok ()) :
    BusSound hw step.controls := by
  obtain ⟨_,declares,uses⟩ := except_bind_ok.mp checked
  have declares := except_forM_ok.mp declares
  have uses := except_forM_ok.mp uses
  have drives {line : ControlId} {bus : BusId} (member : line ∈ step.controls)
      (used : hw.actionOf line = some (.write bus) ∨ hw.actionOf line = some (.read bus)) :
      step.Drives hw bus :=
    checkBus_ok.mp (uses bus (mem_touched.mpr (.inr ⟨line,member,used⟩)))
  refine ⟨?_,?_,?_,?_⟩
  · intro line member
    obtain ⟨decl,found,_⟩ := except_map_ok.mp (declares line member)
    exact ⟨_,Registry.actionOf_of_declared (Registry.stepControl_ok.mp found)⟩
  · intro line member other inside shared writes also
    exact (drives member (.inl writes)).writer.unique ⟨member,writes⟩ ⟨inside,also⟩
  · intro line member shared reads
    exact (drives member (.inr reads)).writer.exists
  · intro line member shared writes
    exact (drives member (.inl writes)).reader

end Buses
end Step

namespace BusSound
variable {hw : Registry} {lines others : ControlSet}

theorem of_same (sound : BusSound hw lines)
    (declared : ∀ line ∈ others, ∃ action, hw.actionOf line = some action)
    (same : ∀ line bus, hw.actionOf line = some (.write bus) ∨ hw.actionOf line = some (.read bus) →
      (line ∈ others ↔ line ∈ lines)) : BusSound hw others := by
  refine ⟨declared,?_,?_,?_⟩
  · intro line member other inside bus writes also
    exact sound.single line ((same line bus (.inl writes)).mp member) other
      ((same other bus (.inl also)).mp inside) bus writes also
  · intro line member bus reads
    obtain ⟨writer,inside,writes⟩ :=
      sound.written line ((same line bus (.inr reads)).mp member) bus reads
    exact ⟨writer,(same writer bus (.inl writes)).mpr inside,writes⟩
  · intro line member bus writes
    obtain ⟨reader,inside,reads⟩ :=
      sound.taken line ((same line bus (.inl writes)).mp member) bus writes
    exact ⟨reader,(same reader bus (.inr reads)).mpr inside,reads⟩

theorem insert (sound : BusSound hw lines) {line : ControlId}
    (acts : hw.actionOf line = some .process) : BusSound hw (lines.insert line) := by
  refine sound.of_same ?_ ?_
  · intro other member
    rcases (SortedSet.mem_insert _ _ _).mp member with rfl | inside
    · exact ⟨_,acts⟩
    · exact sound.declared other inside
  · intro other bus uses
    rw [SortedSet.mem_insert,or_iff_right_iff_imp]
    rintro rfl
    simp [acts] at uses

end BusSound
end Microprogram

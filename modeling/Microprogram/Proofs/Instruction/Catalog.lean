import Mathlib.Data.List.Nodup
import Microprogram.Instruction.Catalog
import Microprogram.Proofs.Machine.Outcome
import Microprogram.Proofs.Sorted.Map

/-! Catalogs by the lists they are made of. A list makes a catalog exactly if no two of its
descriptors clash. Both indexes of the catalog then hold what is listed and nothing else, and
whichever way a descriptor is looked up, the listed one is found. -/
namespace Microprogram

namespace Descriptor

structure Unique (listed : List Descriptor) : Prop where
  opcodes : (listed.map opcode).Nodup
  names : (listed.map fun d => (d.name,d.mode)).Nodup

/-- Why a descriptor cannot follow those listed. That its mnemonic and mode are taken is said
even if its opcode is taken too. -/
inductive Clash (listed : List Descriptor) (d : Descriptor) : StructuralError → Prop
  | descriptor {other : Descriptor} (member : other ∈ listed) (name : other.name = d.name)
      (mode : other.mode = d.mode) : Clash listed d (.duplicateDescriptor d.name d.mode)
  | opcode {first : Descriptor}
      (fresh : ∀ other ∈ listed, ¬(other.name = d.name ∧ other.mode = d.mode))
      (member : first ∈ listed) (same : first.opcode = d.opcode) :
      Clash listed d (.duplicateOpcode d.opcode first.label d.label)

/-- What a search gives: the only listed descriptor of a kind, or nothing if there is none. -/
def Finds (listed : List Descriptor) (kind : Descriptor → Prop) : Option Descriptor → Prop
  | some d => d ∈ listed ∧ kind d ∧ ∀ other ∈ listed, kind other → other = d
  | none => ∀ d ∈ listed, ¬kind d

theorem finds_of_iff {listed : List Descriptor} {kind : Descriptor → Prop} {found : Option Descriptor}
    (finds : ∀ d, found = some d ↔ d ∈ listed ∧ kind d) : Finds listed kind found := by
  cases found with
  | none =>
    intro d member is
    have known := (finds d).mpr ⟨member,is⟩
    contradiction
  | some d =>
    obtain ⟨member,is⟩ := (finds d).mp rfl
    refine ⟨member,is,fun other inside also => ?_⟩
    exact (Option.some.inj ((finds other).mpr ⟨inside,also⟩)).symm

theorem unique_concat {listed : List Descriptor} {d : Descriptor} :
    Unique (listed ++ [d]) ↔ Unique listed ∧ (∀ other ∈ listed, other.opcode ≠ d.opcode) ∧
      ∀ other ∈ listed, ¬(other.name = d.name ∧ other.mode = d.mode) := by
  have concat {α : Type} (key : Descriptor → α) : ((listed ++ [d]).map key).Nodup ↔
      (listed.map key).Nodup ∧ ∀ other ∈ listed, key other ≠ key d := by
    simp [List.nodup_append]
  constructor
  · rintro ⟨opcodes,names⟩
    obtain ⟨opcodes,apart⟩ := (concat _).mp opcodes
    obtain ⟨names,fresh⟩ := (concat _).mp names
    exact ⟨⟨opcodes,names⟩,apart,fun other member same =>
      fresh other member (Prod.ext same.1 same.2)⟩
  · rintro ⟨⟨opcodes,names⟩,apart,fresh⟩
    refine ⟨(concat _).mpr ⟨opcodes,apart⟩,(concat _).mpr ⟨names,fun other member same => ?_⟩⟩
    exact fresh other member (Prod.mk.inj same)

theorem Unique.sublist {listed others : List Descriptor} (unique : Unique listed)
    (part : others.Sublist listed) : Unique others :=
  ⟨unique.opcodes.sublist (part.map _),unique.names.sublist (part.map _)⟩

theorem Clash.not_unique {listed : List Descriptor} {d : Descriptor} {error : StructuralError}
    (clash : Clash listed d error) : ¬Unique (listed ++ [d]) := by
  intro unique
  obtain ⟨_,apart,fresh⟩ := unique_concat.mp unique
  cases clash with
  | descriptor member name mode => exact fresh _ member ⟨name,mode⟩
  | opcode _ member same => exact apart _ member same

end Descriptor

namespace Catalog
open Descriptor

/-- Both indexes of the catalog hold the listed descriptors and no others. -/
structure Indexes (catalog : Catalog) (listed : List Descriptor) : Prop where
  members : ∀ d, d ∈ catalog.descriptors ↔ d ∈ listed
  opcodes : ∀ opcode d, catalog.opcodes.get? opcode = some d ↔ d ∈ listed ∧ d.opcode = opcode
  unique : Unique listed

theorem indexes_default : (default : Catalog).Indexes [] where
  members d := iff_of_false (SortedSet.not_mem_empty d) List.not_mem_nil
  opcodes opcode d := by simp [default]
  unique := ⟨.nil,.nil⟩

namespace Indexes
variable {catalog : Catalog} {listed : List Descriptor} (indexes : catalog.Indexes listed)
include indexes

theorem get?_eq_some {name : String} {mode : Mode} {d : Descriptor} :
    catalog.get? name mode = some d ↔ d ∈ listed ∧ d.name = name ∧ d.mode = mode := by
  have sound {d : Descriptor} (found : catalog.get? name mode = some d) :
      d ∈ listed ∧ d.name = name ∧ d.mode = mode := by
    refine ⟨(indexes.members d).mp (List.mem_of_find?_eq_some found),?_⟩
    simpa using List.find?_some found
  constructor
  · exact sound
  · rintro ⟨member,rfl,rfl⟩
    obtain ⟨other,found⟩ : ∃ other, catalog.get? d.name d.mode = some other := by
      apply Option.isSome_iff_exists.mp
      exact List.find?_isSome.mpr ⟨d,(indexes.members d).mpr member,by simp⟩
    obtain ⟨inside,name,mode⟩ := sound found
    rw [found,List.inj_on_of_nodup_map indexes.unique.names inside member (Prod.ext name mode)]

theorem get?_isSome {name : String} {mode : Mode} : (catalog.get? name mode).isSome = true ↔
    ∃ other ∈ listed, other.name = name ∧ other.mode = mode := by
  simp [Option.isSome_iff_exists,indexes.get?_eq_some]

theorem add_error {d : Descriptor} {error : StructuralError} :
    catalog.add d = .error error ↔ Clash listed d error := by
  unfold add byOpcode?
  constructor
  · intro failed
    split at failed
    next known =>
      cases failed
      obtain ⟨other,member,name,mode⟩ := indexes.get?_isSome.mp known
      exact .descriptor member name mode
    next fresh =>
      split at failed
      next first found =>
        cases failed
        obtain ⟨member,same⟩ := (indexes.opcodes _ _).mp found
        exact .opcode (fun other inside taken => fresh (indexes.get?_isSome.mpr ⟨other,inside,taken⟩))
          member same
      next => cases failed
  · intro clash
    cases clash with
    | descriptor member name mode => rw [if_pos (indexes.get?_isSome.mpr ⟨_,member,name,mode⟩)]
    | opcode fresh member same =>
      have free : ¬(catalog.get? d.name d.mode).isSome = true := by
        intro known
        obtain ⟨other,inside,taken⟩ := indexes.get?_isSome.mp known
        exact fresh other inside taken
      rw [if_neg free,(indexes.opcodes _ _).mpr ⟨member,same⟩]

theorem add {d : Descriptor} {after : Catalog} (added : catalog.add d = .ok after) :
    after.Indexes (listed ++ [d]) := by
  have calm (error : StructuralError) : ¬Clash listed d error := by
    intro clash
    rw [indexes.add_error.mpr clash] at added
    cases added
  have fresh : ∀ other ∈ listed, ¬(other.name = d.name ∧ other.mode = d.mode) :=
    fun other member taken => calm _ (.descriptor member taken.1 taken.2)
  have apart : ∀ other ∈ listed, other.opcode ≠ d.opcode :=
    fun other member same => calm _ (.opcode fresh member same)
  unfold Catalog.add at added
  split at added
  · cases added
  split at added
  · cases added
  cases added
  refine ⟨fun other => ?_,fun opcode other => ?_,unique_concat.mpr ⟨indexes.unique,apart,fresh⟩⟩
  · rw [SortedSet.mem_insert,indexes.members,List.mem_append,List.mem_singleton,or_comm]
  · rw [List.mem_append,List.mem_singleton]
    by_cases same : opcode = d.opcode
    · subst same
      rw [SortedMap.get?_insert_self,Option.some.injEq]
      constructor
      · rintro rfl
        exact ⟨.inr rfl,rfl⟩
      · rintro ⟨member | rfl,equal⟩
        · exact absurd equal (apart other member)
        · rfl
    · rw [SortedMap.get?_insert_of_ne _ _ _ _ same,indexes.opcodes]
      constructor
      · rintro ⟨member,equal⟩
        exact ⟨.inl member,equal⟩
      · rintro ⟨member | rfl,equal⟩
        · exact ⟨member,equal⟩
        · exact absurd equal.symm same

theorem addAll {rest : List Descriptor} {after : Catalog}
    (added : rest.foldlM Catalog.add catalog = .ok after) : after.Indexes (listed ++ rest) := by
  induction rest generalizing catalog listed with
  | nil =>
    cases added
    rwa [List.append_nil]
  | cons d rest ih =>
    obtain ⟨next,first,later⟩ := except_bind_ok.mp added
    have all := ih (indexes.add first) later
    rwa [List.append_assoc] at all

end Indexes

theorem ofList_indexes {listed : List Descriptor} {catalog : Catalog}
    (made : ofList listed = .ok catalog) : catalog.Indexes listed := indexes_default.addAll made

def Distinct (catalog : Catalog) : Prop :=
  ∀ d ∈ catalog.descriptors, ∀ other ∈ catalog.descriptors, d.opcode = other.opcode → d = other

theorem ofList_distinct {listed : List Descriptor} {catalog : Catalog}
    (made : ofList listed = .ok catalog) : catalog.Distinct := by
  have indexes := ofList_indexes made
  intro d member other inside same
  exact List.inj_on_of_nodup_map indexes.unique.opcodes ((indexes.members d).mp member)
    ((indexes.members other).mp inside) same

theorem ofList_ok {listed : List Descriptor} :
    (∃ catalog, ofList listed = .ok catalog) ↔ Unique listed := by
  constructor
  · rintro ⟨catalog,made⟩
    exact (ofList_indexes made).unique
  · intro unique
    cases made : ofList listed with
    | ok catalog => exact ⟨catalog,rfl⟩
    | error error =>
      obtain ⟨before,d,after,catalog,rfl,reached,failed⟩ := except_foldlM_error_iff.mp made
      -- The list up to the descriptor that was refused is not unique, so the whole is not.
      have clash := (ofList_indexes reached).add_error.mp failed
      refine absurd (unique.sublist ?_) clash.not_unique
      exact (List.Sublist.refl before).append (List.singleton_sublist.mpr List.mem_cons_self)

theorem ofList_error {listed : List Descriptor} {error : StructuralError} :
    ofList listed = .error error ↔ ∃ before d after, listed = before ++ d :: after ∧
      Unique before ∧ Clash before d error := by
  rw [ofList,except_foldlM_error_iff]
  constructor
  · rintro ⟨before,d,after,catalog,rfl,reached,failed⟩
    have indexes := ofList_indexes reached
    exact ⟨before,d,after,rfl,indexes.unique,indexes.add_error.mp failed⟩
  · rintro ⟨before,d,after,rfl,unique,clash⟩
    obtain ⟨catalog,reached⟩ := ofList_ok.mpr unique
    exact ⟨before,d,after,catalog,rfl,reached,(ofList_indexes reached).add_error.mpr clash⟩

/-- The ways to look at a catalog agree with the list it was made of. -/
structure Lists (catalog : Catalog) (listed : List Descriptor) : Prop where
  contains : ∀ d, catalog.contains d = true ↔ d ∈ listed
  byOpcode : ∀ opcode, Finds listed (fun d => d.opcode = opcode) (catalog.byOpcode? opcode)
  get : ∀ name mode, Finds listed (fun d => d.name = name ∧ d.mode = mode) (catalog.get? name mode)
  /-- Every listed descriptor comes once. -/
  once : catalog.toList.Perm listed
  ascends : catalog.toList.Pairwise fun d other => d.opcode < other.opcode

theorem Indexes.ascends {catalog : Catalog} {listed : List Descriptor}
    (indexes : catalog.Indexes listed) :
    catalog.toList.Pairwise fun d other => d.opcode < other.opcode := by
  refine catalog.descriptors.ascending.imp_of_mem fun {d other} member inside less => ?_
  -- Descriptors of one opcode are one, so the other fields decide nothing.
  rcases Ordering.then_eq_lt.mp less with first | ⟨same,_⟩
  · exact Std.compare_eq_lt.mp first
  · have equal := List.inj_on_of_nodup_map indexes.unique.opcodes ((indexes.members d).mp member)
      ((indexes.members other).mp inside) (Std.LawfulEqOrd.eq_of_compare same)
    subst equal
    rw [id,Std.ReflOrd.compare_self] at less
    contradiction

theorem Indexes.lists {catalog : Catalog} {listed : List Descriptor}
    (indexes : catalog.Indexes listed) : catalog.Lists listed where
  contains d := (SortedSet.contains_iff _ d).trans (indexes.members d)
  byOpcode opcode := finds_of_iff (indexes.opcodes opcode)
  get _ _ := finds_of_iff fun _ => indexes.get?_eq_some
  once := SortedSet.toList_perm indexes.unique.opcodes.of_map indexes.members
  ascends := indexes.ascends

/-- A list makes a catalog exactly if its descriptors are unique, and then the catalog is that
list in every view. Otherwise the first clash says why not. -/
theorem ofList_exact (listed : List Descriptor) :
    ((∃ catalog, ofList listed = .ok catalog) ↔ Unique listed) ∧
    (∀ catalog, ofList listed = .ok catalog → catalog.Lists listed) ∧
    ∀ error, ofList listed = .error error ↔ ∃ before d after, listed = before ++ d :: after ∧
      Unique before ∧ Clash before d error :=
  ⟨ofList_ok,fun _ made => (ofList_indexes made).lists,fun _ => ofList_error⟩

def loads : List Descriptor :=
  [⟨0x11,"lda",.absolute,"Load A from memory"⟩,⟨0x10,"lda",.immediate,"Load A with immediate value"⟩]

/-- A load that clashes with both others, with each in a way of its own. -/
def thirdLoad : Descriptor := ⟨0x10,"lda",.absolute,"Load A"⟩

theorem loads_exact : ∃ catalog, ofList loads = .ok catalog ∧ catalog.Lists loads ∧
    ofList (loads ++ [thirdLoad]) = .error (.duplicateDescriptor "lda" .absolute) := by
  have unique : Unique loads := ⟨by decide,by decide⟩
  obtain ⟨accepts,lists,_⟩ := ofList_exact loads
  obtain ⟨_,_,refuses⟩ := ofList_exact (loads ++ [thirdLoad])
  obtain ⟨catalog,made⟩ := accepts.mpr unique
  refine ⟨catalog,made,lists catalog made,(refuses _).mpr ⟨loads,thirdLoad,[],rfl,unique,?_⟩⟩
  exact .descriptor List.mem_cons_self rfl rfl

end Catalog
end Microprogram

import Mathlib.Logic.Basic
import Microprogram.ControlTable.Basic
import Microprogram.Proofs.Machine.Outcome
import Microprogram.Proofs.Sorted.Map
import Microprogram.Proofs.Sorted.Set

/-! Control tables by what they answer. A table that was made from entries holds just
those, a row holds the entries of its opcode, and a lookup finds one that answers. -/
namespace Microprogram

namespace ControlTable

private theorem rowsOf_size (entries : List Entry) : (rowsOf entries).size = 256 := by
  induction entries with
  | nil => exact Array.size_replicate
  | cons entry rest ih => exact Array.size_modify.trans ih

theorem row_ofSorted (entries : List Entry) (opcode : UInt8) :
    (ofSorted entries).row opcode = entries.filter fun entry => entry.descriptor.opcode = opcode := by
  change (rowsOf entries).getD opcode.toNat [] = _
  have inside : opcode.toNat < 256 := opcode.toNat_lt
  induction entries with
  | nil => simp [rowsOf,Array.getD]
  | cons entry rest ih =>
    have size := rowsOf_size rest
    have step : (rowsOf (entry :: rest)).getD opcode.toNat [] =
        if entry.descriptor.opcode.toNat = opcode.toNat then
          entry :: (rowsOf rest).getD opcode.toNat [] else (rowsOf rest).getD opcode.toNat [] := by
      change ((rowsOf rest).modify _ _).getD _ _ = _
      simp only [Array.getD_eq_getD_getElem?,Array.getElem?_modify]
      rw [Array.getElem?_eq_getElem (by omega)]
      split <;> rfl
    rw [step,ih,List.filter_cons]
    simp only [UInt8.toNat_inj,decide_eq_true_eq]

theorem lookup_ofSorted (entries : List Entry) (opcode step : UInt8) (status : StatusId → Bool) :
    (ofSorted entries).lookup opcode step status =
      (entries.filter fun entry => entry.descriptor.opcode = opcode).find?
        fun entry => entry.answers step status := by
  rw [lookup,row_ofSorted]

theorem lookup_some {entries : List Entry} {opcode step : UInt8} {status : StatusId → Bool}
    {entry : Entry} (found : (ofSorted entries).lookup opcode step status = some entry) :
    entry ∈ entries ∧ entry.descriptor.opcode = opcode ∧ entry.answers step status = true := by
  rw [lookup_ofSorted] at found
  obtain ⟨member,of⟩ := List.mem_filter.mp (List.mem_of_find?_eq_some found)
  have answers := List.find?_some found
  exact ⟨member,of_decide_eq_true of,answers⟩

theorem lookup_unique {entries : List Entry} {opcode step : UInt8} {status : StatusId → Bool}
    {entry : Entry} (member : entry ∈ entries) (of : entry.descriptor.opcode = opcode)
    (answers : entry.answers step status = true)
    (unique : ∀ other ∈ entries, other.descriptor.opcode = opcode → other.answers step status = true →
      other = entry) : (ofSorted entries).lookup opcode step status = some entry := by
  cases found : (ofSorted entries).lookup opcode step status with
  | none =>
    rw [lookup_ofSorted,List.find?_eq_none] at found
    exact absurd answers (found entry (List.mem_filter.mpr ⟨member,decide_eq_true of⟩))
  | some other =>
    obtain ⟨inside,same,also⟩ := lookup_some found
    rw [unique other inside same also]

theorem lookup_none {entries : List Entry} {opcode step : UInt8} {status : StatusId → Bool}
    (silent : ∀ entry ∈ entries, entry.descriptor.opcode = opcode → entry.answers step status = false) :
    (ofSorted entries).lookup opcode step status = none := by
  rw [← Option.not_isSome_iff_eq_none,Option.isSome_iff_exists]
  rintro ⟨entry,found⟩
  obtain ⟨member,of,answers⟩ := lookup_some found
  rw [silent entry member of] at answers
  contradiction

theorem place_ok {sorted placed : List Entry} {entry : Entry}
    (ascending : Sorted.Ascending Entry.key sorted) (done : place sorted entry = .ok placed) :
    Sorted.Ascending Entry.key placed ∧ ∀ other, other ∈ placed ↔ other = entry ∨ other ∈ sorted := by
  unfold place at done
  split at done
  · cases done
  next absent =>
    cases done
    refine ⟨Sorted.ascending_insert _ _ _ ascending,?_⟩
    intro other
    rw [Sorted.mem_insert _ _ _ _ ascending]
    refine or_congr_right (and_iff_left_of_imp ?_)
    intro member same
    have found := (Sorted.find?_isSome Entry.key entry.key sorted).mpr ⟨other,member,same⟩
    rw [absent] at found
    contradiction

theorem place_length {sorted placed : List Entry} {entry : Entry}
    (done : place sorted entry = .ok placed) : placed.length = sorted.length + 1 := by
  unfold place at done
  split at done
  · cases done
  next absent =>
    cases done
    exact Sorted.length_insert _ _ _ absent

theorem place_total {sorted : List Entry} {entry : Entry}
    (fresh : ∀ other ∈ sorted, other.key ≠ entry.key) : ∃ placed, place sorted entry = .ok placed := by
  unfold place
  split
  next other found =>
    obtain ⟨member,same⟩ := (Sorted.find?_isSome Entry.key entry.key sorted).mp
      (found ▸ rfl)
    exact absurd same.2 (fresh member same.1)
  · exact ⟨_,rfl⟩

private theorem placeAll_ok {entries sorted placed : List Entry}
    (ascending : Sorted.Ascending Entry.key sorted) (done : entries.foldlM place sorted = .ok placed) :
    ∀ other, other ∈ placed ↔ other ∈ sorted ∨ other ∈ entries := by
  induction entries generalizing sorted with
  | nil =>
    cases done
    simp
  | cons entry rest ih =>
    rw [List.foldlM_cons] at done
    obtain ⟨next,first,later⟩ := except_bind_ok.mp done
    obtain ⟨ordered,members⟩ := place_ok ascending first
    intro other
    rw [ih ordered later,members,List.mem_cons]
    grind

private theorem placeAll_total {entries sorted : List Entry}
    (ascending : Sorted.Ascending Entry.key sorted) (apart : (entries.map Entry.key).Nodup)
    (fresh : ∀ entry ∈ entries, ∀ other ∈ sorted, other.key ≠ entry.key) :
    ∃ placed, entries.foldlM place sorted = .ok placed := by
  induction entries generalizing sorted with
  | nil => exact ⟨sorted,rfl⟩
  | cons entry rest ih =>
    obtain ⟨first,others⟩ := List.forall_mem_cons.mp fresh
    rw [List.map_cons,List.nodup_cons] at apart
    obtain ⟨next,placed⟩ := place_total first
    obtain ⟨ordered,members⟩ := place_ok ascending placed
    obtain ⟨done,finished⟩ := ih ordered apart.2 (by
      intro later member other inside
      rcases (members other).mp inside with rfl | old
      · intro same
        exact apart.1 (same ▸ List.mem_map_of_mem member)
      · exact others later member other old)
    refine ⟨done,?_⟩
    rw [List.foldlM_cons,placed]
    exact finished

theorem ofEntries_ok {entries : List Entry} {table : ControlTable}
    (made : ofEntries entries = .ok table) :
    table = ofSorted table.entries ∧ ∀ entry, entry ∈ table.entries ↔ entry ∈ entries := by
  obtain ⟨sorted,placed,rfl⟩ := except_map_ok.mp made
  refine ⟨rfl,fun entry => ?_⟩
  change entry ∈ sorted ↔ _
  rw [placeAll_ok (Sorted.ascending_nil _) placed]
  simp

theorem ofEntries_size {entries : List Entry} {table : ControlTable}
    (made : ofEntries entries = .ok table) : table.size = entries.length := by
  have adds (entries sorted placed : List Entry) (done : entries.foldlM place sorted = .ok placed) :
      placed.length = sorted.length + entries.length := by
    induction entries generalizing sorted with
    | nil =>
      cases done
      rfl
    | cons entry rest ih =>
      rw [List.foldlM_cons] at done
      obtain ⟨next,first,later⟩ := except_bind_ok.mp done
      rw [ih next later,place_length first,List.length_cons]
      omega
  obtain ⟨sorted,placed,rfl⟩ := except_map_ok.mp made
  exact (adds entries [] sorted placed).trans (Nat.zero_add _)

theorem ofEntries_total {entries : List Entry} (apart : (entries.map Entry.key).Nodup) :
    ∃ table, ofEntries entries = .ok table := by
  obtain ⟨sorted,placed⟩ := placeAll_total (Sorted.ascending_nil _) apart (by simp)
  exact ⟨ofSorted sorted,by rw [ofEntries,placed]; rfl⟩

theorem mem_entriesOf {variant : Variant} {entry : Entry} :
    entry ∈ entriesOf variant ↔ ∃ place step, variant.steps[place]? = some step ∧
      entry = ⟨variant.descriptor,UInt8.ofNat place,variant.guard,step.controls⟩ := by
  simp only [entriesOf,List.mem_map,Prod.exists,List.mk_mem_zipIdx_iff_getElem?]
  constructor
  · rintro ⟨step,place,found,rfl⟩
    exact ⟨place,step,found,rfl⟩
  · rintro ⟨place,step,found,rfl⟩
    exact ⟨step,place,found,rfl⟩

theorem lowerVariant_ok {variant : Variant} {entries : List Entry} :
    lowerVariant variant = .ok entries ↔ variant.steps.length ≤ 256 ∧ entries = entriesOf variant := by
  unfold lowerVariant
  split
  next long => simp [Nat.not_le_of_gt long]
  next short => simp [Nat.le_of_not_gt short,eq_comm]

theorem lower_ok {program : Program} {table : ControlTable} (lowered : lower program = .ok table) :
    table = ofSorted table.entries ∧
      ∀ entry, entry ∈ table.entries ↔ ∃ variant ∈ program, entry ∈ entriesOf variant := by
  obtain ⟨lists,listed,made⟩ := except_bind_ok.mp lowered
  obtain ⟨sorted,members⟩ := ofEntries_ok made
  obtain ⟨into,onto⟩ := except_mapM_ok listed
  refine ⟨sorted,fun entry => ?_⟩
  rw [members,List.mem_flatten]
  constructor
  · rintro ⟨entries,listed,inside⟩
    obtain ⟨variant,member,made⟩ := onto entries listed
    obtain ⟨_,rfl⟩ := lowerVariant_ok.mp made
    exact ⟨variant,member,inside⟩
  · rintro ⟨variant,member,inside⟩
    obtain ⟨entries,listed,made⟩ := into variant member
    obtain ⟨_,rfl⟩ := lowerVariant_ok.mp made
    exact ⟨_,listed,inside⟩

end ControlTable
end Microprogram

import Microprogram.Proofs.Part.Reading
import Microprogram.Proofs.Sorted.Set

/-! The shared lines under what parts do to them: controls that are asserted, and status
writes that take effect in order. Writes of lines of their own commute. -/
namespace Microprogram

namespace Registry

theorem assertAll_eq_ok (hw : Registry) (lines : List ControlId) (asserted after : Asserted) :
    (hw.assertAll lines asserted).result = .ok after ↔
      (∀ line ∈ lines, line.index < hw.controls.size) ∧ after = asserted.insertAll lines := by
  unfold assertAll
  induction lines generalizing asserted with
  | nil => simp [Outcome.each,SortedSet.insertAll,eq_comm]
  | cons line rest ih =>
    rw [Outcome.each,setControl]
    by_cases known : line.index < hw.controls.size
    · rw [if_pos known]
      refine (ih (asserted.insert line)).trans ?_
      simp [known,SortedSet.insertAll]
    · rw [if_neg known]
      simp [Outcome.attempt,known]

theorem assertAll_declared (hw : Registry) (lines : ControlSet)
    (declared : ∀ line ∈ lines, line.index < hw.controls.size) :
    (hw.assertAll lines.toList ∅).result = .ok lines :=
  (hw.assertAll_eq_ok _ _ _).mpr ⟨declared,(SortedSet.insertAll_toList lines).symm⟩

theorem assertAll_union (hw : Registry) (lines : List ControlId) (others asserted : Asserted) :
    (hw.assertAll lines (others.union asserted)).result =
      (hw.assertAll lines asserted).result.map others.union := by
  unfold assertAll
  induction lines generalizing asserted with
  | nil => rfl
  | cons line rest ih =>
    have one : (others.union asserted).insert line = others.union (asserted.insert line) :=
      SortedSet.ext_mem fun control => by
        simp only [SortedSet.mem_insert,SortedSet.mem_union]
        exact or_left_comm
    rw [Outcome.each,Outcome.each,setControl,setControl]
    by_cases known : line.index < hw.controls.size
    · rw [if_pos known,if_pos known,if_pos rfl,if_pos rfl,one]
      exact ih (asserted.insert line)
    · rw [if_neg known,if_neg known]
      rfl

end Registry

theorem postAll_append (first second : Staged) (lines : SortedSet StatusId) :
    postAll (first ++ second) lines = postAll second (postAll first lines) := List.foldl_append

theorem mem_post (write : StatusId × Bool) (lines : SortedSet StatusId) (status : StatusId) :
    status ∈ postAll [write] lines ↔
      if status = write.1 then write.2 = true else status ∈ lines := by
  obtain ⟨line,value⟩ := write
  cases value with
  | true =>
    change status ∈ lines.insert line ↔ _
    rw [SortedSet.mem_insert]
    split
    next same => simp [same]
    next other => simp [other]
  | false =>
    change status ∈ lines.erase line ↔ _
    rw [SortedSet.mem_erase]
    split
    next same => simp [same]
    next other => simp [other]

theorem mem_postAll_apart {writes : Staged} {status : StatusId}
    (apart : ∀ write ∈ writes, write.1 ≠ status) (lines : SortedSet StatusId) :
    status ∈ postAll writes lines ↔ status ∈ lines := by
  induction writes generalizing lines with
  | nil => exact .rfl
  | cons write rest ih =>
    obtain ⟨other,others⟩ := List.forall_mem_cons.mp apart
    rw [← List.singleton_append,postAll_append,ih others,mem_post,if_neg other.symm]

theorem mem_postAll_of_mem {writes : Staged} (apart : (writes.map Prod.fst).Nodup)
    {write : StatusId × Bool} (member : write ∈ writes) (lines : SortedSet StatusId) :
    write.1 ∈ postAll writes lines ↔ write.2 = true := by
  induction writes generalizing lines with
  | nil => contradiction
  | cons first rest ih =>
    rw [List.map_cons,List.nodup_cons] at apart
    rw [← List.singleton_append,postAll_append]
    rcases List.mem_cons.mp member with rfl | later
    · rw [mem_postAll_apart,mem_post,if_pos rfl]
      intro other inside same
      exact apart.1 (List.mem_map.mpr ⟨other,inside,same⟩)
    · exact ih apart.2 later _

theorem eq_postAll {writes : Staged} (apart : (writes.map Prod.fst).Nodup)
    {before after : SortedSet StatusId} (posted : ∀ write ∈ writes, write.1 ∈ after ↔ write.2 = true)
    (kept : ∀ status, status ∉ writes.map Prod.fst → (status ∈ after ↔ status ∈ before)) :
    after = postAll writes before := by
  refine SortedSet.ext_mem fun status => ?_
  by_cases member : status ∈ writes.map Prod.fst
  · obtain ⟨write,inside,rfl⟩ := List.mem_map.mp member
    rw [posted write inside,mem_postAll_of_mem apart inside]
  · rw [kept status member,mem_postAll_apart]
    rintro write inside rfl
    exact member (List.mem_map_of_mem inside)

theorem mem_postAll_congr (writes : Staged) {lines others : SortedSet StatusId} {status : StatusId}
    (same : status ∈ lines ↔ status ∈ others) :
    status ∈ postAll writes lines ↔ status ∈ postAll writes others := by
  induction writes generalizing lines others with
  | nil => exact same
  | cons write rest ih =>
    refine ih ?_
    change status ∈ postAll [write] lines ↔ status ∈ postAll [write] others
    rw [mem_post,mem_post,same]

theorem postAll_comm {first second : Staged} (apart : ∀ write ∈ first, ∀ other ∈ second, write.1 ≠ other.1)
    (lines : SortedSet StatusId) :
    postAll first (postAll second lines) = postAll second (postAll first lines) := by
  refine SortedSet.ext_mem fun status => ?_
  by_cases shared : ∃ other ∈ second, other.1 = status
  · have untouched : ∀ write ∈ first, write.1 ≠ status := by
      obtain ⟨other,member,rfl⟩ := shared
      exact fun write inside => apart write inside other member
    rw [mem_postAll_apart untouched]
    exact mem_postAll_congr second (mem_postAll_apart untouched lines).symm
  · have untouched : ∀ other ∈ second, other.1 ≠ status := fun other member same =>
      shared ⟨other,member,same⟩
    rw [mem_postAll_apart untouched (postAll first lines)]
    exact mem_postAll_congr first (mem_postAll_apart untouched lines)

end Microprogram

import Mathlib.Data.List.Nodup
import Microprogram.Proofs.ControlTable.Encoding

/-! Lookup held against a scan of all entries. The entries of a table stand in ascending order,
however they came, and among those that serve an opcode at a step the lookup finds the first in
that order. Descriptors may share an opcode, and several guards may hold. -/
namespace Microprogram

namespace Entry

/-- By key, then controls. -/
instance : Ord Entry := ⟨compareLex (compareOn key) (compareOn controls)⟩

instance : Std.TransOrd Entry :=
  inferInstanceAs (Std.TransCmp (compareLex (compareOn key) (compareOn controls)))

instance : Std.LawfulEqOrd Entry where
  compare_self := Ordering.then_eq_eq.mpr ⟨Std.ReflOrd.compare_self,Std.ReflOrd.compare_self⟩
  eq_of_compare {a b} same := by
    obtain ⟨keys,lines⟩ := Ordering.then_eq_eq.mp same
    have key : a.key = b.key := Std.LawfulEqOrd.eq_of_compare keys
    have controls : a.controls = b.controls := Std.LawfulEqOrd.eq_of_compare lines
    cases a; cases b
    simp_all [Entry.key]

/-- The entry is for the opcode and the step, and the statuses have all values that it asks for. -/
structure Serves (entry : Entry) (opcode step : UInt8) (status : StatusId → Bool) : Prop where
  opcode : entry.descriptor.opcode = opcode
  step : entry.step = step
  statuses : ∀ gate ∈ entry.guard.toList, status gate.1 = gate.2

theorem serves_iff {entry : Entry} {opcode step : UInt8} {status : StatusId → Bool} :
    (entry.descriptor.opcode = opcode && entry.answers step status) = true ↔
      entry.Serves opcode step status := by
  simp only [answers,Guard.holds,Bool.and_eq_true,decide_eq_true_eq,List.all_eq_true,beq_iff_eq]
  constructor
  · intro ⟨opcode,step,statuses⟩
    exact ⟨opcode,step,statuses⟩
  · intro ⟨opcode,step,statuses⟩
    exact ⟨opcode,step,statuses⟩

instance (entry : Entry) (opcode step : UInt8) (status : StatusId → Bool) :
    Decidable (entry.Serves opcode step status) := decidable_of_iff _ serves_iff

end Entry

namespace ControlTable
variable {entries : List Entry} {table : ControlTable}

theorem ofEntries_ordered (made : ofEntries entries = .ok table) : Sorted.Ascending id table.entries := by
  apply List.Pairwise.imp _ (ofEntries_ascending made)
  intro a b less
  have keys : compareOn Entry.key a b = .lt := less
  change (compareOn Entry.key a b).then (compareOn Entry.controls a b) = .lt
  rw [keys]
  rfl

theorem ofEntries_iff : (∃ table, ofEntries entries = .ok table) ↔ (entries.map Entry.key).Nodup := by
  constructor
  · intro ⟨table,made⟩
    have keys := (ofEntries_ascending made).nodup_keys
    exact ((ofEntries_perm made).map Entry.key).nodup_iff.mp keys
  · exact ofEntries_total

theorem ofEntries_reordered {others : List Entry} (order : others.Perm entries)
    (made : ofEntries entries = .ok table) : ofEntries others = .ok table := by
  have distinct := (order.map Entry.key).nodup_iff.mpr (ofEntries_iff.mp ⟨table,made⟩)
  obtain ⟨other,also⟩ := ofEntries_total distinct
  have same : other.entries = table.entries := by
    apply (ofEntries_ascending also).ext (ofEntries_ascending made)
    intro entry
    rw [(ofEntries_ok also).2,(ofEntries_ok made).2,order.mem_iff]
  rw [also,(ofEntries_ok also).1,(ofEntries_ok made).1,same]

theorem lookup_scan (made : ofEntries entries = .ok table) (opcode step : UInt8)
    (status : StatusId → Bool) : table.lookup opcode step status =
      table.entries.find? fun entry => entry.descriptor.opcode = opcode && entry.answers step status := by
  have sorted := (ofEntries_ok made).1
  rw [sorted,lookup_ofSorted,List.find?_filter]
  simp [ofSorted]

/-- A table is made of entries unless two have the same key. It holds them in ascending order,
whatever order they came in, and a lookup gives the least of those that serve, if there are any. -/
theorem lookup_finds_least (entries : List Entry) :
    ((∃ table, ofEntries entries = .ok table) ↔ entries.Pairwise fun a b =>
      ¬(a.descriptor = b.descriptor ∧ a.step = b.step ∧ a.guard = b.guard)) ∧
    ∀ table, ofEntries entries = .ok table →
      table.entries.Perm entries ∧ (table.entries.Pairwise fun a b => compare a b = .lt) ∧
      (∀ others, others.Perm entries → ofEntries others = .ok table) ∧
      ∀ opcode step status,
        (∀ entry, table.lookup opcode step status = some entry ↔
          entry ∈ table.entries ∧ entry.Serves opcode step status ∧
            ∀ other ∈ table.entries, other.Serves opcode step status →
              (compare entry other).isLE = true) ∧
        (table.lookup opcode step status = none ↔
          ∀ entry ∈ table.entries, ¬entry.Serves opcode step status) := by
  constructor
  · rw [ofEntries_iff,List.Nodup,List.pairwise_map]
    simp [Entry.key]
  · intro table made
    refine ⟨ofEntries_perm made,ofEntries_ordered made,?_,?_⟩
    · intro others order
      exact ofEntries_reordered order made
    · intro opcode step status
      rw [lookup_scan made]
      constructor
      · intro entry
        rw [Sorted.find?_eq_some_least (ofEntries_ordered made)]
        simp only [Entry.serves_iff]
      · rw [List.find?_eq_none]
        simp only [Entry.serves_iff]

/-- Two instructions with one opcode. One of them has an entry for each of two statuses, and the
other one has an entry for all. -/
def sharing : List Entry :=
  [⟨⟨7,"wait",.none,""⟩,0,∅,.ofList [⟨1⟩]⟩,
    ⟨⟨7,"skip",.immediate,""⟩,0,.ofList [(⟨4⟩,true)],.ofList [⟨2⟩]⟩,
    ⟨⟨7,"skip",.immediate,""⟩,0,.ofList [(⟨3⟩,true)],.ofList [⟨3⟩]⟩]

theorem sharing_finds_least : ∃ table, ofEntries sharing = .ok table ∧
    ofEntries sharing.reverse = .ok table ∧ table.lookup 7 0 (fun _ => true) = some sharing[2] ∧
    table.lookup 7 0 (fun status => status = ⟨4⟩) = some sharing[1] ∧
    table.lookup 7 0 (fun _ => false) = some sharing[0] ∧ table.lookup 7 1 (fun _ => true) = none := by
  obtain ⟨accepts,holds⟩ := lookup_finds_least sharing
  obtain ⟨table,made⟩ := accepts.mpr (by decide +kernel)
  obtain ⟨order,_,reordered,finds⟩ := holds table made
  simp only [order.mem_iff] at finds
  refine ⟨table,made,reordered _ (List.reverse_perm sharing),?_,?_,?_,?_⟩
  · exact ((finds 7 0 _).1 _).mpr (by decide +kernel)
  · exact ((finds 7 0 _).1 _).mpr (by decide +kernel)
  · exact ((finds 7 0 _).1 _).mpr (by decide +kernel)
  · exact (finds 7 1 _).2.mpr (by decide +kernel)

end ControlTable
end Microprogram

import Microprogram.Sorted.Basic

/-! Finite sets in ascending order. Equal sets are equal values, and a set is
itself ordered by comparing members from the least on. -/
namespace Microprogram

/-- A finite set, written as its members in ascending order. -/
structure SortedSet (α : Type) [Ord α] where
  toList : List α
  ascending : Sorted.Ascending id toList

namespace SortedSet
variable {α : Type} [Ord α]

theorem ext {s t : SortedSet α} (same : s.toList = t.toList) : s = t := by
  cases s; cases t; cases same; rfl

instance [DecidableEq α] : DecidableEq (SortedSet α) := fun s t =>
  decidable_of_iff (s.toList = t.toList) ⟨ext,fun same => same ▸ rfl⟩

instance : Ord (SortedSet α) := ⟨compareOn toList⟩

instance [Std.TransOrd α] : Std.TransOrd (SortedSet α) :=
  inferInstanceAs (Std.TransCmp (compareOn toList))

instance [Std.LawfulEqOrd α] : Std.LawfulEqOrd (SortedSet α) where
  compare_self {s} := Std.ReflOrd.compare_self (a := s.toList)
  eq_of_compare {s t} same := ext (Std.LawfulEqOrd.eq_of_compare (a := s.toList) (b := t.toList) same)

def empty : SortedSet α := ⟨[],Sorted.ascending_nil _⟩

instance : EmptyCollection (SortedSet α) := ⟨empty⟩
instance : Inhabited (SortedSet α) := ⟨empty⟩

@[inline]
def contains (s : SortedSet α) (a : α) : Bool := (Sorted.find? id a s.toList).isSome

@[inline]
def erase (s : SortedSet α) (a : α) : SortedSet α :=
  ⟨Sorted.erase id a s.toList,Sorted.ascending_erase _ _ _ s.ascending⟩

def size (s : SortedSet α) : Nat := s.toList.length

def filter (keep : α → Bool) (s : SortedSet α) : SortedSet α :=
  ⟨s.toList.filter keep,List.Pairwise.filter _ s.ascending⟩

variable [Std.TransOrd α]

@[inline]
def insert (s : SortedSet α) (a : α) : SortedSet α :=
  ⟨Sorted.insert id a s.toList,Sorted.ascending_insert _ _ _ s.ascending⟩

def insertAll (s : SortedSet α) (items : List α) : SortedSet α := items.foldl insert s

def ofList (items : List α) : SortedSet α := empty.insertAll items

def union (s t : SortedSet α) : SortedSet α := s.insertAll t.toList

end SortedSet
end Microprogram

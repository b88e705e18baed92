import Microprogram.Sorted.Basic

/-! Finite maps in ascending order of their keys. Equal maps are equal values,
and maps are ordered by comparing key and value pairs from the least key on. -/
namespace Microprogram

/-- A finite map, written as its pairs in ascending order of their keys. -/
structure SortedMap (κ β : Type) [Ord κ] where
  toList : List (κ × β)
  ascending : Sorted.Ascending Prod.fst toList

namespace SortedMap
variable {κ β : Type} [Ord κ]

theorem ext {m n : SortedMap κ β} (same : m.toList = n.toList) : m = n := by
  cases m; cases n; cases same; rfl

instance [DecidableEq κ] [DecidableEq β] : DecidableEq (SortedMap κ β) := fun m n =>
  decidable_of_iff (m.toList = n.toList) ⟨ext,fun same => same ▸ rfl⟩

def comparePairs [Ord β] : κ × β → κ × β → Ordering :=
  compareLex (compareOn Prod.fst) (compareOn Prod.snd)

instance [Std.TransOrd κ] [Ord β] [Std.TransOrd β] :
    Std.TransCmp (@comparePairs κ β _ _) :=
  inferInstanceAs (Std.TransCmp (compareLex (compareOn Prod.fst) (compareOn Prod.snd)))

instance [Std.LawfulEqOrd κ] [Ord β] [Std.LawfulEqOrd β] :
    Std.LawfulEqCmp (@comparePairs κ β _ _) where
  compare_self := by simp [comparePairs,compareLex,compareOn]
  eq_of_compare {a b} same := by
    obtain ⟨first,second⟩ := Ordering.then_eq_eq.mp same
    exact Prod.ext (Std.LawfulEqOrd.eq_of_compare first) (Std.LawfulEqOrd.eq_of_compare second)

instance [Ord β] : Ord (SortedMap κ β) :=
  ⟨fun m n => List.compareLex comparePairs m.toList n.toList⟩

instance [Std.TransOrd κ] [Ord β] [Std.TransOrd β] : Std.TransOrd (SortedMap κ β) where
  eq_swap := (inferInstance : Std.OrientedCmp (List.compareLex comparePairs)).eq_swap
  isLE_trans := (inferInstance : Std.TransCmp (List.compareLex comparePairs)).isLE_trans

instance [Std.LawfulEqOrd κ] [Ord β] [Std.LawfulEqOrd β] : Std.LawfulEqOrd (SortedMap κ β) where
  compare_self := (inferInstance : Std.ReflCmp (List.compareLex comparePairs)).compare_self
  eq_of_compare same := ext ((inferInstance :
    Std.LawfulEqCmp (List.compareLex comparePairs)).eq_of_compare same)

def empty : SortedMap κ β := ⟨[],Sorted.ascending_nil _⟩

instance : EmptyCollection (SortedMap κ β) := ⟨empty⟩
instance : Inhabited (SortedMap κ β) := ⟨empty⟩

@[inline]
def get? (m : SortedMap κ β) (k : κ) : Option β := (Sorted.find? Prod.fst k m.toList).map Prod.snd

def keys (m : SortedMap κ β) : List κ := m.toList.map Prod.fst

def size (m : SortedMap κ β) : Nat := m.toList.length

def erase (m : SortedMap κ β) (k : κ) : SortedMap κ β :=
  ⟨Sorted.erase Prod.fst k m.toList,Sorted.ascending_erase _ _ _ m.ascending⟩

variable [Std.TransOrd κ]

/-- The last value given to a key holds. -/
def insert (m : SortedMap κ β) (k : κ) (v : β) : SortedMap κ β :=
  ⟨Sorted.insert Prod.fst (k,v) m.toList,Sorted.ascending_insert _ _ _ m.ascending⟩

def ofList (pairs : List (κ × β)) : SortedMap κ β :=
  pairs.foldl (fun m pair => m.insert pair.1 pair.2) empty

end SortedMap
end Microprogram

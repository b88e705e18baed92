import Microprogram.Proofs.Sorted.Set
import Microprogram.Sorted.Map

/-! Ordered maps through their values. An insertion decides the value of its key and
leaves the others. -/
namespace Microprogram.SortedMap
variable {κ β : Type} [Ord κ]

@[simp]
theorem get?_empty (k : κ) : (∅ : SortedMap κ β).get? k = none := rfl

theorem nodup_keys [Std.ReflOrd κ] (m : SortedMap κ β) : m.keys.Nodup := m.ascending.nodup_keys

section Lists
variable [Std.TransOrd κ]

private theorem toList_ofList (pairs : List (κ × β)) : (ofList pairs).toList =
    pairs.foldl (fun sorted pair => Sorted.insert Prod.fst pair sorted) [] := by
  have listed (m : SortedMap κ β) : (pairs.foldl (fun m pair => m.insert pair.1 pair.2) m).toList =
      pairs.foldl (fun sorted pair => Sorted.insert Prod.fst pair sorted) m.toList := by
    induction pairs generalizing m with
    | nil => rfl
    | cons pair rest ih => exact ih (m.insert pair.1 pair.2)
  exact listed empty

theorem size_ofList_le (pairs : List (κ × β)) : (ofList pairs).size ≤ pairs.length := by
  have bound := Sorted.length_insertAll_le Prod.fst pairs []
  rw [List.length_nil,Nat.zero_add] at bound
  rw [size,toList_ofList]
  exact bound

theorem ofList_toList (m : SortedMap κ β) : ofList m.toList = m := by
  apply ext
  rw [toList_ofList]
  exact Sorted.insertAll_ascending Prod.fst [] m.toList m.ascending

end Lists

variable [Std.TransOrd κ] [Std.LawfulEqOrd κ]

theorem get?_eq_some (m : SortedMap κ β) (k : κ) (v : β) :
    m.get? k = some v ↔ (k,v) ∈ m.toList := by
  simp only [get?,Option.map_eq_some_iff,Sorted.find?_eq_some _ _ _ _ m.ascending]
  constructor
  · rintro ⟨pair,⟨member,rfl⟩,rfl⟩
    exact member
  · intro member
    exact ⟨(k,v),⟨member,rfl⟩,rfl⟩

theorem mem_insert (m : SortedMap κ β) (k : κ) (v : β) (pair : κ × β) :
    pair ∈ (m.insert k v).toList ↔ pair = (k,v) ∨ pair ∈ m.toList ∧ pair.1 ≠ k :=
  Sorted.mem_insert Prod.fst (k,v) pair m.toList m.ascending

theorem get?_insert_self (m : SortedMap κ β) (k : κ) (v : β) : (m.insert k v).get? k = some v := by
  rw [get?_eq_some,mem_insert]
  exact .inl rfl

theorem get?_insert_of_ne (m : SortedMap κ β) (k other : κ) (v : β) (apart : other ≠ k) :
    (m.insert k v).get? other = m.get? other := by
  refine Option.ext fun w => ?_
  rw [get?_eq_some,get?_eq_some,mem_insert]
  simp [apart]

theorem mem_keys (m : SortedMap κ β) (k : κ) : k ∈ m.keys ↔ (m.get? k).isSome = true := by
  simp [keys,Option.isSome_iff_exists,get?_eq_some]

theorem keys_eq_iff {m n : SortedMap κ β} :
    m.keys = n.keys ↔ ∀ k, (m.get? k).isSome = (n.get? k).isSome := by
  have ascends (m : SortedMap κ β) : Sorted.Ascending id m.keys := List.pairwise_map.mpr m.ascending
  constructor
  · intro same k
    rw [Bool.eq_iff_iff,← mem_keys,← mem_keys,same]
  · intro same
    apply (ascends m).ext (ascends n)
    intro k
    rw [mem_keys,mem_keys,same]

theorem ext_get {m n : SortedMap κ β} (same : ∀ k, m.get? k = n.get? k) : m = n := by
  refine ext (m.ascending.ext n.ascending fun pair => ?_)
  rw [← get?_eq_some,← get?_eq_some,same]

end Microprogram.SortedMap

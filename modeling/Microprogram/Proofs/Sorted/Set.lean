import Microprogram.Sorted.Set

/-! Ordered sets through their members. Each operation is known by the members it
leaves, and a set is determined by its members. -/
namespace Microprogram

namespace Sorted
variable {α κ : Type} [Ord κ]

theorem mem_insert [Std.TransOrd κ] [Std.LawfulEqOrd κ] (key : α → κ) (a b : α) (items : List α)
    (sorted : Ascending key items) :
    b ∈ insert key a items ↔ b = a ∨ b ∈ items ∧ key b ≠ key a := by
  induction items with
  | nil => simp [insert]
  | cons c rest ih =>
    obtain ⟨below,tail⟩ := List.pairwise_cons.mp sorted
    have apart {d : α} (first : compare (key a) (key d) = .lt) : key d ≠ key a := by
      intro same
      rw [same,Std.ReflOrd.compare_self] at first
      contradiction
    unfold insert
    split
    next less =>
      have above (d : α) (member : d ∈ c :: rest) : key d ≠ key a := by
        rcases List.mem_cons.mp member with rfl | inside
        · exact apart less
        · exact apart (Std.TransCmp.lt_trans less (below d inside))
      rw [List.mem_cons]
      exact or_congr_right ⟨fun member => ⟨member,above b member⟩,And.left⟩
    next equal =>
      have same : key a = key c := Std.LawfulEqOrd.eq_of_compare equal
      have above (d : α) (inside : d ∈ rest) : key d ≠ key a := by
        refine apart ?_
        rw [same]
        exact below d inside
      simp only [List.mem_cons]
      constructor
      · rintro (rfl | inside)
        · exact .inl rfl
        · exact .inr ⟨.inr inside,above b inside⟩
      · rintro (rfl | ⟨rfl | inside,other⟩)
        · exact .inl rfl
        · exact absurd same.symm other
        · exact .inr inside
    next greater =>
      have distinct : key c ≠ key a := by
        intro same
        rw [same,Std.ReflOrd.compare_self] at greater
        contradiction
      simp only [List.mem_cons,ih tail]
      constructor
      · rintro (rfl | rfl | ⟨inside,other⟩)
        · exact .inr ⟨.inl rfl,distinct⟩
        · exact .inl rfl
        · exact .inr ⟨.inr inside,other⟩
      · rintro (rfl | ⟨rfl | inside,other⟩)
        · exact .inr (.inl rfl)
        · exact .inl rfl
        · exact .inr (.inr ⟨inside,other⟩)

theorem same_key_iff [Std.LawfulEqOrd κ] (k l : κ) : (compare k l == .eq) = true ↔ l = k := by
  rw [beq_iff_eq,Std.LawfulEqOrd.compare_eq_iff_eq]
  exact ⟨Eq.symm,Eq.symm⟩

theorem mem_erase [Std.LawfulEqOrd κ] (key : α → κ) (k : κ) (b : α) (items : List α) :
    b ∈ erase key k items ↔ b ∈ items ∧ key b ≠ k := by
  simp only [erase,List.mem_filter,bne,Bool.not_eq_true',← Bool.not_eq_true,same_key_iff,ne_eq]

theorem find?_isSome [Std.LawfulEqOrd κ] (key : α → κ) (k : κ) (items : List α) :
    (find? key k items).isSome ↔ ∃ b ∈ items, key b = k := by
  simp only [find?,List.find?_isSome,same_key_iff]

theorem length_insert (key : α → κ) (a : α) (items : List α)
    (absent : find? key (key a) items = none) : (insert key a items).length = items.length + 1 := by
  induction items with
  | nil => rfl
  | cons b rest ih =>
    rw [find?,List.find?_cons] at absent
    unfold insert
    split
    · rfl
    next equal =>
      rw [equal] at absent
      cases absent
    next greater =>
      rw [greater] at absent
      exact congrArg (· + 1) (ih absent)

theorem length_insert_le (key : α → κ) (a : α) (items : List α) :
    (insert key a items).length ≤ items.length + 1 := by
  induction items with
  | nil => exact Nat.le_refl _
  | cons b rest ih =>
    unfold insert
    split
    · exact Nat.le_refl _
    · exact Nat.le_succ _
    · exact Nat.succ_le_succ ih

theorem length_insertAll_le (key : α → κ) (items sorted : List α) :
    (items.foldl (fun sorted a => insert key a sorted) sorted).length ≤ sorted.length + items.length := by
  induction items generalizing sorted with
  | nil => exact Nat.le_refl _
  | cons a rest ih =>
    have one := length_insert_le key a sorted
    have all := ih (insert key a sorted)
    rw [List.foldl_cons,List.length_cons]
    omega

theorem insert_last [Std.OrientedOrd κ] (key : α → κ) (a : α) (items : List α)
    (above : ∀ b ∈ items, compare (key b) (key a) = .lt) : insert key a items = items ++ [a] := by
  induction items with
  | nil => rfl
  | cons b rest ih =>
    obtain ⟨first,others⟩ := List.forall_mem_cons.mp above
    rw [insert,Std.OrientedCmp.gt_of_lt first]
    exact congrArg (b :: ·) (ih others)

theorem insertAll_ascending [Std.OrientedOrd κ] (key : α → κ) (sorted items : List α)
    (ascending : Ascending key (sorted ++ items)) :
    items.foldl (fun sorted a => insert key a sorted) sorted = sorted ++ items := by
  induction items generalizing sorted with
  | nil => exact (List.append_nil sorted).symm
  | cons a rest ih =>
    have above := (List.pairwise_append.mp ascending).2.2
    rw [List.foldl_cons,insert_last key a sorted fun b member => above b member a List.mem_cons_self,
      ih _ (by rwa [List.append_assoc]),List.append_assoc]
    rfl

theorem find?_eq_some [Std.TransOrd κ] [Std.LawfulEqOrd κ] (key : α → κ) (k : κ) (b : α)
    (items : List α) (sorted : Ascending key items) :
    find? key k items = some b ↔ b ∈ items ∧ key b = k := by
  induction items with
  | nil => simp [find?]
  | cons c rest ih =>
    obtain ⟨below,tail⟩ := List.pairwise_cons.mp sorted
    by_cases same : key c = k
    · subst same
      have found : find? key (key c) (c :: rest) = some c := by simp [find?]
      simp only [found,Option.some.injEq,List.mem_cons]
      constructor
      · rintro rfl
        exact ⟨.inl rfl,rfl⟩
      · rintro ⟨rfl | inside,equal⟩
        · rfl
        · have less := below b inside
          rw [equal,Std.ReflOrd.compare_self] at less
          contradiction
    · have other : (compare k (key c) == .eq) = false := by
        rwa [← Bool.not_eq_true,same_key_iff]
      have step : find? key k (c :: rest) = find? key k rest := by
        simp [find?,other]
      rw [step,ih tail,List.mem_cons]
      constructor
      · rintro ⟨inside,equal⟩
        exact ⟨.inr inside,equal⟩
      · rintro ⟨rfl | inside,equal⟩
        · exact absurd equal same
        · exact ⟨inside,equal⟩

theorem Ascending.nodup_keys [Std.ReflOrd κ] {key : α → κ} {items : List α}
    (sorted : Ascending key items) : (items.map key).Nodup := by
  refine List.pairwise_map.mpr (List.Pairwise.imp ?_ sorted)
  intro a b less same
  rw [same,Std.ReflOrd.compare_self] at less
  contradiction

theorem Ascending.nodup [Std.ReflOrd κ] {key : α → κ} {items : List α}
    (sorted : Ascending key items) : items.Nodup :=
  (List.pairwise_map.mp sorted.nodup_keys).imp fun different same => different (congrArg key same)

theorem Ascending.ext [Std.TransOrd κ] {key : α → κ} {items others : List α}
    (sorted : Ascending key items) (ordered : Ascending key others)
    (same : ∀ a, a ∈ items ↔ a ∈ others) : items = others := by
  refine List.Perm.eq_of_pairwise ?_ sorted ordered
    ((List.perm_ext_iff_of_nodup sorted.nodup ordered.nodup).mpr same)
  intro a b _ _ less greater
  have loop := Std.TransCmp.lt_trans less greater
  rw [Std.ReflOrd.compare_self] at loop
  contradiction

section Least
variable [Ord α] [Std.TransOrd α] {items : List α} {test : α → Bool}

theorem find?_isLE (ascending : Ascending id items) {a b : α} (found : items.find? test = some a)
    (member : b ∈ items) (passes : test b = true) : (compare a b).isLE = true := by
  obtain ⟨_,before,after,rfl,failing⟩ := List.find?_eq_some_iff_append.mp found
  rcases List.mem_append.mp member with earlier | later
  · have fails := failing b earlier
    simp [passes] at fails
  · rcases List.mem_cons.mp later with rfl | behind
    · exact Std.ReflOrd.isLE_rfl
    · have above := (List.pairwise_cons.mp (List.pairwise_append.mp ascending).2.1).1
      exact Ordering.isLE_of_eq_lt (above b behind)

theorem find?_eq_some_least [Std.LawfulEqOrd α] (ascending : Ascending id items) {a : α} :
    items.find? test = some a ↔ a ∈ items ∧ test a = true ∧
      ∀ b ∈ items, test b = true → (compare a b).isLE = true := by
  constructor
  · intro found
    refine ⟨List.mem_of_find?_eq_some found,List.find?_some found,?_⟩
    intro b member passes
    exact find?_isLE ascending found member passes
  · rintro ⟨member,passes,least⟩
    obtain ⟨first,found⟩ := Option.isSome_iff_exists.mp (List.find?_isSome.mpr ⟨a,member,passes⟩)
    have below := find?_isLE ascending found member passes
    have above := least first (List.mem_of_find?_eq_some found) (List.find?_some found)
    have same : first = a :=
      Std.LawfulEqOrd.eq_of_compare (Std.OrientedCmp.isLE_antisymm below above)
    rw [found,same]

end Least

end Sorted

namespace SortedSet
variable {α : Type} [Ord α]

instance : Membership α (SortedSet α) := ⟨fun s a => a ∈ s.toList⟩

@[simp]
theorem mem_toList (s : SortedSet α) (a : α) : a ∈ s.toList ↔ a ∈ s := .rfl

@[simp]
theorem not_mem_empty (a : α) : a ∉ (∅ : SortedSet α) := List.not_mem_nil

@[simp]
theorem mem_filter (keep : α → Bool) (s : SortedSet α) (a : α) :
    a ∈ s.filter keep ↔ a ∈ s ∧ keep a = true := List.mem_filter

theorem nodup [Std.ReflOrd α] (s : SortedSet α) : s.toList.Nodup := s.ascending.nodup

theorem toList_perm [Std.ReflOrd α] {s : SortedSet α} {items : List α} (distinct : items.Nodup)
    (same : ∀ a, a ∈ s ↔ a ∈ items) : s.toList.Perm items :=
  (List.perm_ext_iff_of_nodup s.nodup distinct).mpr same

theorem ext_mem [Std.TransOrd α] {s t : SortedSet α} (same : ∀ a, a ∈ s ↔ a ∈ t) : s = t :=
  ext (s.ascending.ext t.ascending same)

theorem size_ofList_le [Std.TransOrd α] (items : List α) : (ofList items).size ≤ items.length := by
  have listed (s : SortedSet α) : (s.insertAll items).toList =
      items.foldl (fun sorted a => Sorted.insert id a sorted) s.toList := by
    induction items generalizing s with
    | nil => rfl
    | cons a rest ih => exact ih (s.insert a)
  have bound := Sorted.length_insertAll_le id items []
  rw [List.length_nil,Nat.zero_add] at bound
  rw [size,ofList,listed]
  exact bound

section Lawful
variable [Std.LawfulEqOrd α]

@[simp]
theorem contains_iff (s : SortedSet α) (a : α) : s.contains a = true ↔ a ∈ s := by
  rw [contains,Sorted.find?_isSome]
  simp

theorem contains_eq_false (s : SortedSet α) (a : α) : s.contains a = false ↔ a ∉ s := by
  rw [← Bool.not_eq_true,contains_iff]

theorem contains_congr {s t : SortedSet α} {a b : α} (same : a ∈ s ↔ b ∈ t) :
    s.contains a = t.contains b := by
  rw [Bool.eq_iff_iff,contains_iff,contains_iff]
  exact same

@[simp]
theorem mem_erase (s : SortedSet α) (a b : α) : b ∈ s.erase a ↔ b ∈ s ∧ b ≠ a :=
  Sorted.mem_erase id a b s.toList

variable [Std.TransOrd α]

@[simp]
theorem mem_insert (s : SortedSet α) (a b : α) : b ∈ s.insert a ↔ b = a ∨ b ∈ s := by
  have member := Sorted.mem_insert id a b s.toList s.ascending
  change b ∈ Sorted.insert id a s.toList ↔ _
  rw [member]
  by_cases same : b = a <;> simp [same]

@[simp]
theorem mem_insertAll (items : List α) (s : SortedSet α) (a : α) :
    a ∈ s.insertAll items ↔ a ∈ s ∨ a ∈ items := by
  induction items generalizing s with
  | nil => simp [insertAll]
  | cons b rest ih =>
    change a ∈ (s.insert b).insertAll rest ↔ _
    rw [ih,mem_insert,List.mem_cons,or_comm (a := a = b),or_assoc]

@[simp]
theorem mem_ofList (items : List α) (a : α) : a ∈ ofList items ↔ a ∈ items := by
  change a ∈ (∅ : SortedSet α).insertAll items ↔ _
  simp

theorem ofList_perm {items others : List α} (perm : items.Perm others) : ofList items = ofList others :=
  ext_mem fun a => by rw [mem_ofList,mem_ofList,perm.mem_iff]

@[simp]
theorem mem_union (s t : SortedSet α) (a : α) : a ∈ s.union t ↔ a ∈ s ∨ a ∈ t := by
  simp [union]

theorem insertAll_toList (s : SortedSet α) : (∅ : SortedSet α).insertAll s.toList = s :=
  ext_mem (by simp)

end Lawful
end SortedSet
end Microprogram

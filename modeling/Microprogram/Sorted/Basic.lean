/-! Lists whose keys ascend strictly. Such a list is the one written form of a
finite set or map: two of them with the same members are the same list. The
operations here keep that form; `Sorted.Set` and `Sorted.Map` package it. -/
namespace Microprogram.Sorted

variable {α κ : Type} [Ord κ]

/-- Keys ascend strictly, so no key repeats. -/
def Ascending (key : α → κ) (items : List α) : Prop :=
  items.Pairwise fun a b => compare (key a) (key b) = .lt

/-- Puts an item at the place of its key; an item already there gives way. -/
@[specialize]
def insert (key : α → κ) (a : α) : List α → List α
  | [] => [a]
  | b :: rest =>
    match compare (key a) (key b) with
    | .lt => a :: b :: rest
    | .eq => a :: rest
    | .gt => b :: insert key a rest

@[inline]
def erase (key : α → κ) (k : κ) (items : List α) : List α :=
  items.filter fun b => compare k (key b) != .eq

@[inline]
def find? (key : α → κ) (k : κ) (items : List α) : Option α :=
  items.find? fun b => compare k (key b) == .eq

theorem mem_of_mem_insert (key : α → κ) (a b : α) (items : List α)
    (member : b ∈ insert key a items) : b = a ∨ b ∈ items := by
  induction items with
  | nil => simpa [insert] using member
  | cons c rest ih =>
    unfold insert at member
    split at member
    · simpa using member
    · rcases List.mem_cons.mp member with same | inside
      · exact .inl same
      · exact .inr (List.mem_cons_of_mem _ inside)
    · rcases List.mem_cons.mp member with same | inside
      · exact .inr (same ▸ List.mem_cons_self)
      · exact (ih inside).imp_right (List.mem_cons_of_mem _)

theorem ascending_nil (key : α → κ) : Ascending key [] := .nil

theorem ascending_insert [Std.TransOrd κ] (key : α → κ) (a : α) (items : List α)
    (sorted : Ascending key items) : Ascending key (insert key a items) := by
  induction items with
  | nil => exact List.pairwise_singleton _ _
  | cons b rest ih =>
    obtain ⟨below,tail⟩ := List.pairwise_cons.mp sorted
    unfold insert
    split
    next less =>
      refine List.pairwise_cons.mpr ⟨?_,sorted⟩
      intro c member
      rcases List.mem_cons.mp member with same | inside
      · exact same ▸ less
      · exact Std.TransCmp.lt_trans less (below c inside)
    next equal =>
      refine List.pairwise_cons.mpr ⟨?_,tail⟩
      intro c member
      exact Std.TransCmp.lt_of_eq_of_lt equal (below c member)
    next greater =>
      refine List.pairwise_cons.mpr ⟨?_,ih tail⟩
      intro c member
      rcases mem_of_mem_insert key a c rest member with same | inside
      · exact same ▸ Std.OrientedCmp.lt_of_gt greater
      · exact below c inside

theorem ascending_erase (key : α → κ) (k : κ) (items : List α)
    (sorted : Ascending key items) : Ascending key (erase key k items) :=
  List.Pairwise.filter _ sorted

end Microprogram.Sorted

import Microprogram.Hardware.Registry
import Microprogram.Proofs.Sorted.Set

/-! The order of numbers of one kind, and the declared ones in that order. -/
namespace Microprogram

namespace Ident
variable {kind : Kind} {id other : Ident kind}

theorem compare_lt : compare id other = .lt ↔ id.index < other.index := by
  change compareOfLessAndEq id.num other.num = .lt ↔ _
  rw [compareOfLessAndEq_eq_lt]
  exact UInt16.lt_iff_toNat_lt

theorem compare_isLE : (compare id other).isLE = true ↔ id.index ≤ other.index := by
  rw [← Nat.not_lt,← compare_lt,Ordering.isLE_iff_ne_gt,Std.OrientedCmp.gt_iff_lt]

end Ident

namespace Registry
variable {hw : Registry} {kind : Kind}

theorem index_ofNat {n : Nat} (small : n < 65536) : (⟨.ofNat n⟩ : Ident kind).index = n :=
  UInt16.toNat_ofNat_of_lt' small

variable (limit : hw.count kind ≤ 65536)
include limit

theorem mem_idents {id : Ident kind} : id ∈ hw.idents kind ↔ id.index < hw.count kind := by
  simp only [idents,List.mem_map,List.mem_range]
  constructor
  · rintro ⟨n,small,rfl⟩
    rwa [index_ofNat (by omega)]
  · intro small
    exact ⟨id.index,small,congrArg Ident.mk UInt16.ofNat_toNat⟩

theorem idents_ascending : Sorted.Ascending id (hw.idents kind) := by
  apply List.pairwise_map.mpr
  refine List.pairwise_lt_range.imp_of_mem ?_
  intro n other low high less
  rw [List.mem_range] at low high
  change compare (⟨.ofNat n⟩ : Ident kind) ⟨.ofNat other⟩ = .lt
  rwa [Ident.compare_lt,index_ofNat (by omega),index_ofNat (by omega)]

variable {test : Ident kind → Bool} {chosen : Ident kind → Prop} (tests : ∀ id, test id = true ↔ chosen id)
include tests

theorem find?_idents {id : Ident kind} : (hw.idents kind).find? test = some id ↔
    id.index < hw.count kind ∧ chosen id ∧ ∀ other, other.index < id.index → ¬chosen other := by
  rw [Sorted.find?_eq_some_least (idents_ascending limit),mem_idents limit,tests]
  refine and_congr_right fun small => and_congr_right fun _ => ?_
  simp only [mem_idents limit,Ident.compare_isLE,tests]
  constructor
  · intro least other less passes
    exact absurd (least other (by omega) passes) (Nat.not_le_of_lt less)
  · intro fails other _ passes
    exact Nat.le_of_not_lt fun less => fails other less passes

theorem find?_idents_none : (hw.idents kind).find? test = none ↔
    ∀ id, id.index < hw.count kind → ¬chosen id := by
  simp only [List.find?_eq_none,mem_idents limit,tests]

end Registry

end Microprogram

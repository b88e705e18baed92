import Mathlib.Data.List.Pairwise
import Microprogram.Proofs.Machine.Atomicity
import Microprogram.Proofs.Part.Arbitration
import Microprogram.Proofs.Part.Wiring

/-! The order of the parts does not matter. In each phase parts of different lines act
apart from each other, so that they may act in any order, and so may a whole machine. -/
namespace Microprogram

namespace Deed

def settle (signals : Signals) (deed : Deed) : Signals := (deed.apply signals).commit

theorem settle_eq (signals : Signals) (deed : Deed) : settle signals deed =
    ⟨(signals.asserted.union deed.raised).filter fun control => !deed.dropped.contains control,
      postAll deed.posts (postAll signals.staged signals.statuses),[],signals.driven⟩ := by
  rw [← postAll_append]
  rfl

theorem applyAll_commit (deeds : List Deed) (signals : Signals) :
    (deeds.foldl apply signals).commit = deeds.foldl settle signals.commit := by
  induction deeds generalizing signals with
  | nil => rfl
  | cons deed rest ih =>
    have one : settle signals.commit deed = settle signals deed := by
      rw [settle_eq,settle_eq]
      rfl
    rw [List.foldl_cons,List.foldl_cons,ih,one]
    rfl

theorem settleAll_driven (deeds : List Deed) (signals : Signals) :
    (deeds.foldl settle signals).driven = signals.driven := by
  induction deeds generalizing signals with
  | nil => rfl
  | cons deed rest ih => exact ih (settle signals deed)

theorem settle_comm {phase : Phase} {part other : Part} {deed also : Deed} (own : deed.Own phase part)
    (others : also.Own phase other) (apart : ∀ line ∈ part.lines, line ∉ other.lines) (signals : Signals) :
    settle (settle signals deed) also = settle (settle signals also) deed := by
  have posts : ∀ write ∈ deed.posts, ∀ later ∈ also.posts, write.1 ≠ later.1 := by
    intro write member later inside same
    refine apart _ (Part.status_mem_lines.mpr (own.posts write member)) ?_
    rw [same]
    exact Part.status_mem_lines.mpr (others.posts later inside)
  have lines (control : ControlId) : (control ∈ deed.dropped → control ∉ also.raised) ∧
      (control ∈ also.dropped → control ∉ deed.raised) := by
    refine ⟨fun dropped => ?_,fun dropped => ?_⟩
    · rw [others.raised (by rw [(own.dropped control dropped).1]; decide)]
      exact SortedSet.not_mem_empty control
    · rw [own.raised (by rw [(others.dropped control dropped).1]; decide)]
      exact SortedSet.not_mem_empty control
  have controls : (((signals.asserted.union deed.raised).filter
      fun control => !deed.dropped.contains control).union also.raised).filter
      (fun control => !also.dropped.contains control) = (((signals.asserted.union also.raised).filter
      fun control => !also.dropped.contains control).union deed.raised).filter
      fun control => !deed.dropped.contains control := by
    refine SortedSet.ext_mem fun control => ?_
    simp only [SortedSet.mem_filter,SortedSet.mem_union,Bool.not_eq_true',SortedSet.contains_eq_false]
    have := lines control
    tauto
  simp only [settle_eq]
  rw [controls]
  exact congrArg (Signals.mk _ · _ _) (postAll_comm posts _).symm

end Deed

/-- Parts that together own every line, and drive buses under names of their own. -/
structure Arranged (hw : Registry) (parts : List Part) : Prop where
  owned : Owned hw parts
  setters : ((parts.flatMap Part.outlets).map Outlet.setter).Nodup

namespace Arranged
variable {hw : Registry} {parts others : List Part}

theorem perm (arranged : Arranged hw parts) (order : parts.Perm others) : Arranged hw others :=
  ⟨arranged.owned.perm order,
    ((order.flatMap_right Part.outlets).map Outlet.setter).nodup_iff.mp arranged.setters⟩

theorem map (arranged : Arranged hw parts) {next : Part → Part}
    (wired : ∀ part ∈ parts, (next part).wiring = part.wiring) : Arranged hw (parts.map next) := by
  have lines : (parts.map next).map Part.lines = parts.map Part.lines := by
    rw [List.map_map]
    exact List.map_congr_left fun part member => congrArg Prod.fst (wired part member)
  have setters : ((parts.map next).flatMap Part.outlets).map Outlet.setter =
      (parts.flatMap Part.outlets).map Outlet.setter := by
    rw [List.flatMap_map,List.map_flatMap,List.map_flatMap]
    exact List.flatMap_congr fun part member => congrArg Prod.snd (wired part member)
  refine ⟨arranged.owned.of_lines lines,?_⟩
  rw [setters]
  exact arranged.setters

theorem lines_apart (arranged : Arranged hw parts) {part other : Part} (member : part ∈ parts)
    (inside : other ∈ parts) (different : part ≠ other) : ∀ line ∈ part.lines, line ∉ other.lines := by
  have disjoint := (List.nodup_flatMap.mp arranged.owned.apart).2
  have : Std.Symm (Function.onFun List.Disjoint Part.lines) :=
    ⟨fun _ _ apart _ here there => apart there here⟩
  intro line here there
  exact disjoint.forall member inside different here there

end Arranged

namespace Part

theorem checkpoint_wiring (part : Part) : part.checkpoint.1.wiring = part.wiring := by
  cases part <;> rfl

theorem commit_wiring (part : Part) : part.commit.wiring = part.wiring := by
  cases part <;> rfl

end Part

namespace Machine
variable {hw : Registry} {cycle : Nat} {phase : Phase} {parts after : List Part} {signals left : Signals}

theorem runPhase_deeds (quiet : phase ≠ .write) (owned : Owned hw parts) :
    (runPhase hw cycle phase (parts,signals)).result =
      (parts.mapM (Part.deed hw phase cycle signals)).map fun deeds =>
        (deeds.map Deed.part,deeds.foldl Deed.settle signals.commit) := by
  have alone : ∀ part ∈ parts, Part.Sees phase part signals signals :=
    fun _ _ => ⟨rfl,rfl,fun _ => rfl,fun _ _ _ => .rfl⟩
  rw [runPhase,Outcome.result_map,Part.reactAll_deeds quiet owned.declared owned.apart alone]
  cases parts.mapM (Part.deed hw phase cycle signals) with
  | error fault => rfl
  | ok deeds => exact congrArg (fun left => Except.ok (_,left)) (Deed.applyAll_commit deeds signals)

theorem runPhase_write : (runPhase hw cycle .write (parts,signals)).result =
    ((parts.flatMap Part.outlets).foldlM (Outlet.offer hw signals.asserted) signals.driven).map
      fun driven => (parts,{ signals.commit with driven }) := by
  rw [runPhase,Outcome.result_map,Part.reactAll_write]
  cases (parts.flatMap Part.outlets).foldlM (Outlet.offer hw signals.asserted) signals.driven <;> rfl

/-- A phase that succeeds does so in any order of the parts, and the order shows neither on
the lines nor in any part. -/
theorem runPhase_perm (arranged : Arranged hw parts) (opened : phase = .write → signals.driven = ∅)
    (ran : (runPhase hw cycle phase (parts,signals)).result = .ok (after,left)) :
    ∃ next : Part → Part, (∀ part ∈ parts, (next part).wiring = part.wiring) ∧ after = parts.map next ∧
      (phase ≠ .write → left.driven = signals.driven) ∧
      ∀ others, parts.Perm others →
        (runPhase hw cycle phase (others,signals)).result = .ok (others.map next,left) := by
  by_cases writing : phase = .write
  · -- The parts stay, and the outlets of all of them settle the buses in any order.
    subst writing
    rw [runPhase_write,opened rfl,except_map_ok] at ran
    obtain ⟨driven,offers,ended⟩ := ran
    cases ended
    refine ⟨id,fun _ _ => rfl,(List.map_id _).symm,fun other => absurd rfl other,fun others order => ?_⟩
    have moved := (offers_perm (order.flatMap_right Part.outlets) arranged.setters).mp offers
    rw [runPhase_write,opened rfl,moved,List.map_id]
    rfl
  · -- Each part does its deed, and deeds of different parts may change places.
    rw [runPhase_deeds writing arranged.owned,except_map_ok] at ran
    obtain ⟨deeds,mapped,ended⟩ := ran
    obtain ⟨deed,each⟩ := except_mapM_choose (fun part => ⟨part,∅,∅,[]⟩) mapped
    rw [except_mapM_map each,Except.ok.injEq] at mapped
    cases ended
    subst mapped
    have own (part : Part) (member : part ∈ parts) : (deed part).Own phase part :=
      Part.deed_own (fun line inside => arranged.owned.declared line
        (List.mem_flatMap.mpr ⟨part,member,inside⟩)) (each part member)
    refine ⟨fun part => (deed part).part,fun part member => (own part member).wiring,List.map_map,
      fun _ => Deed.settleAll_driven _ _,fun others order => ?_⟩
    have sums : (others.map deed).foldl Deed.settle signals.commit =
        (parts.map deed).foldl Deed.settle signals.commit := by
      rw [List.foldl_map,List.foldl_map]
      refine (order.foldl_eq' (fun part member other inside now => ?_) _).symm
      by_cases same : part = other
      · rw [same]
      · exact Deed.settle_comm (own part member) (own other inside)
          (arranged.lines_apart member inside same) now
    rw [runPhase_deeds writing (arranged.owned.perm order),
      except_mapM_map fun part member => each part (order.mem_iff.mpr member),← sums]
    exact congrArg (fun after => Except.ok (after,_)) List.map_map

theorem phases_perm {phases : List Phase} (distinct : phases.Nodup) (arranged : Arranged hw parts)
    (opened : .write ∈ phases → signals.driven = ∅)
    (ran : (Outcome.each (runPhase hw cycle) phases (parts,signals)).result = .ok (after,left)) :
    ∃ next : Part → Part, (∀ part ∈ parts, (next part).wiring = part.wiring) ∧ after = parts.map next ∧
      ∀ others, parts.Perm others →
        (Outcome.each (runPhase hw cycle) phases (others,signals)).result = .ok (others.map next,left) := by
  induction phases generalizing parts signals with
  | nil =>
    cases ran
    exact ⟨id,fun _ _ => rfl,(List.map_id _).symm,fun others _ => by rw [List.map_id]; rfl⟩
  | cons phase rest ih =>
    rw [List.nodup_cons] at distinct
    rw [Outcome.result_each,List.foldlM_cons,except_bind_ok] at ran
    obtain ⟨⟨middle,reached⟩,first,later⟩ := ran
    rw [← Outcome.result_each] at later
    obtain ⟨next,wired,rfl,kept,moved⟩ := runPhase_perm arranged
      (fun writing => opened (writing ▸ List.mem_cons_self)) first
    have bare : .write ∈ rest → reached.driven = ∅ := fun member =>
      (kept fun writing => distinct.1 (writing ▸ member)).trans (opened (List.mem_cons_of_mem _ member))
    obtain ⟨final,still,ended,others⟩ := ih distinct.2 (arranged.map wired) bare later
    refine ⟨final ∘ next,fun part member => ?_,by rw [ended,List.map_map],fun otherwise order => ?_⟩
    · exact (still _ (List.mem_map_of_mem member)).trans (wired part member)
    · rw [Outcome.result_each,List.foldlM_cons,moved otherwise order,except_ok_bind,← Outcome.result_each,
        others _ (order.map next),List.map_map]

theorem tick_hardware (m : Machine) : m.tick.state.hardware = m.hardware := by
  unfold tick
  dsimp only
  split <;> rfl

theorem tick_driven {m : Machine} (opened : m.signals.driven = ∅) : m.tick.state.signals.driven = ∅ := by
  unfold tick
  dsimp only
  split
  · rfl
  · exact opened

section Reordering
variable {m : Machine} {others : List Part} (arranged : Arranged m.hardware m.parts)
  (opened : m.signals.driven = ∅) (order : m.parts.Perm others)
include arranged opened order

theorem tick_done_perm {reached : Machine} (done : m.tick = .done reached) :
    ∃ next : Part → Part, (∀ part ∈ m.parts, (next part).wiring = part.wiring) ∧
      reached.parts = m.parts.map next ∧
      { m with parts := others }.tick = .done { reached with parts := others.map next } := by
  cases ran : (runPhases m.hardware m.cycle
      (m.parts.map (fun part => part.checkpoint.1),m.signals)).result with
  | error fault =>
    rw [m.tick_of_error ran] at done
    cases done
  | ok acted =>
    obtain ⟨after,left⟩ := acted
    rw [m.tick_of_ok ran] at done
    cases done
    have saved : ∀ part ∈ m.parts, part.checkpoint.1.wiring = part.wiring := fun part _ =>
      part.checkpoint_wiring
    obtain ⟨next,wired,rfl,moved⟩ := phases_perm (by decide) (arranged.map saved) (fun _ => opened) ran
    refine ⟨fun part => (next part.checkpoint.1).commit,fun part member => ?_,?_,?_⟩
    · rw [Part.commit_wiring,wired _ (List.mem_map_of_mem member),saved part member]
    · simp only [List.map_map,Function.comp_def]
    · refine (tick_of_ok { m with parts := others } (moved _ (order.map _))).trans ?_
      simp only [List.map_map,Function.comp_def]

theorem tick_perm : ∃ next : Part → Part, (∀ part ∈ m.parts, (next part).wiring = part.wiring) ∧
    m.tick.state.parts = m.parts.map next ∧
    { m with parts := others }.tick.state = { m.tick.state with parts := others.map next } ∧
    { m with parts := others }.tick.fault?.isSome = m.tick.fault?.isSome := by
  cases done : m.tick with
  | done reached =>
    obtain ⟨next,wired,moved,also⟩ := tick_done_perm arranged opened order done
    refine ⟨next,wired,moved,?_⟩
    rw [also]
    exact ⟨rfl,rfl⟩
  | stopped fault reached =>
    obtain rfl := m.tick_stopped done
    refine ⟨fun part => part.checkpoint.1,fun part _ => part.checkpoint_wiring,rfl,?_⟩
    cases also : { m with parts := others }.tick with
    | done reached =>
      -- A tick that succeeds in the other order would succeed in this one.
      obtain ⟨_,_,_,back⟩ := tick_done_perm (m := { m with parts := others }) (arranged.perm order)
        opened order.symm also
      rw [done] at back
      cases back
    | stopped other reached =>
      rw [Machine.tick_stopped { m with parts := others } also]
      exact ⟨rfl,rfl⟩

end Reordering

/-- The machine after a number of ticks, some of which may fail. -/
def afterTicks : Nat → Machine → Machine
  | 0, m => m
  | n + 1, m => afterTicks n m.tick.state

theorem afterTicks_perm {m : Machine} {others : List Part} (arranged : Arranged m.hardware m.parts)
    (opened : m.signals.driven = ∅) (order : m.parts.Perm others) (ticks : Nat) :
    ∃ next : Part → Part, (afterTicks ticks m).parts = m.parts.map next ∧
      afterTicks ticks { m with parts := others } = { afterTicks ticks m with parts := others.map next } ∧
      (afterTicks ticks { m with parts := others }).tick.fault?.isSome =
        (afterTicks ticks m).tick.fault?.isSome := by
  induction ticks generalizing m others with
  | zero =>
    obtain ⟨_,_,_,_,alike⟩ := tick_perm arranged opened order
    exact ⟨id,(List.map_id _).symm,by rw [List.map_id]; rfl,alike⟩
  | succ n ih =>
    obtain ⟨next,wired,moved,also,_⟩ := tick_perm arranged opened order
    have kept : Arranged m.tick.state.hardware m.tick.state.parts := by
      rw [tick_hardware,moved]
      exact arranged.map wired
    have again : m.tick.state.parts.Perm (others.map next) := moved ▸ order.map next
    obtain ⟨final,ended,alike,faults⟩ := ih kept (tick_driven opened) again
    refine ⟨final ∘ next,?_,?_,?_⟩
    · rw [afterTicks,ended,moved,List.map_map]
    · rw [afterTicks,also,alike,List.map_map]
      rfl
    · rw [afterTicks,also]
      exact faults

/-- Parts that are accepted and drive buses under names of their own may stand in any order.
Each tick succeeds in both orders or in neither, and after any number of them the lines and
the state of each part are the same. -/
theorem order_irrelevant {m start : Machine} {others : List Part}
    (accepted : assemble m.hardware m.parts m.config m.halted = .ok start)
    (setters : ((m.parts.flatMap Part.outlets).map Outlet.setter).Nodup)
    (opened : m.signals.driven = ∅) (order : m.parts.Perm others) :
    assemble m.hardware others m.config m.halted = .ok { start with parts := others } ∧
      ∀ ticks, ∃ next : Part → Part, (afterTicks ticks m).parts = m.parts.map next ∧
        afterTicks ticks { m with parts := others } =
          { afterTicks ticks m with parts := others.map next } ∧
        (afterTicks ticks { m with parts := others }).tick.fault?.isSome =
          (afterTicks ticks m).tick.fault?.isSome := by
  unfold assemble at accepted ⊢
  obtain ⟨⟨⟩,valid,accepted⟩ := except_bind_ok.mp accepted
  obtain ⟨decl,halted,accepted⟩ := except_bind_ok.mp accepted
  obtain ⟨⟨⟩,verified,ended⟩ := except_bind_ok.mp accepted
  cases ended
  have owned := verifyTopology_ok.mp (except_mapError_ok.mp verified)
  have again := verifyTopology_ok.mpr (owned.perm order)
  refine ⟨?_,afterTicks_perm ⟨owned,setters⟩ opened order⟩
  rw [valid,halted,again]
  rfl

/-- The crashing machine, which first has a cycle in which it only stores. -/
def storing : Machine := { crashing with
  parts := crashing.parts.map fun
    | .scripted c => .scripted { c with script := .ofList [⟨2⟩,⟨5⟩] :: c.script }
    | part => part }

theorem storing_accepted : assemble storing.hardware storing.parts {} ⟨0⟩ = .ok storing := by
  have valid : ({} : Config).validate = .ok () := by decide +kernel
  have owned : verifyTopology storing.hardware storing.parts = .ok () := by decide +kernel
  unfold assemble
  rw [valid,owned]
  rfl

theorem storing_reversed : storing.tick.fault? = none ∧
    (afterTicks 1 storing).tick.fault? = some (.crashed 1) ∧
    assemble storing.hardware storing.parts.reverse {} ⟨0⟩ =
      .ok { storing with parts := storing.parts.reverse } ∧
    ∀ ticks, ∃ next : Part → Part, (afterTicks ticks storing).parts = storing.parts.map next ∧
      afterTicks ticks { storing with parts := storing.parts.reverse } =
        { afterTicks ticks storing with parts := storing.parts.reverse.map next } ∧
      (afterTicks ticks { storing with parts := storing.parts.reverse }).tick.fault?.isSome =
        (afterTicks ticks storing).tick.fault?.isSome := by
  have setters : ((storing.parts.flatMap Part.outlets).map Outlet.setter).Nodup := by decide +kernel
  exact ⟨rfl,rfl,order_irrelevant storing_accepted setters rfl (List.reverse_perm _).symm⟩

end Machine
end Microprogram

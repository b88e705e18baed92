import Microprogram.Proofs.Part.Deeds

/-! What a part leaves alone when it acts. It stays wired as it is, writes only statuses of
its own, and drops only controls of its own. -/
namespace Microprogram

theorem Register.load_ok {r after : Register} {hw : Registry} {asserted : Asserted} {driven : Driven}
    (loaded : (r.load hw asserted driven).result = .ok after) : ∃ value, after = { r with value } := by
  rw [load_result,except_bind_ok] at loaded
  obtain ⟨taken,_,ended⟩ := loaded
  cases ended
  exact ⟨_,rfl⟩

theorem WordRegister.load_ok {w after : WordRegister} {hw : Registry} {asserted : Asserted}
    {driven : Driven} (loaded : (w.load hw asserted driven).result = .ok after) :
    ∃ value, after = { w with value } := by
  obtain ⟨value,reached⟩ := w.load_lines hw asserted driven
  rw [Outcome.result_eq_ok.mp loaded] at reached
  exact ⟨value,reached⟩

theorem AluUnit.load_ok {alu after : AluUnit} {hw : Registry} {asserted : Asserted} {driven : Driven}
    (loaded : (alu.load hw asserted driven).result = .ok after) : ∃ lhs rhs result, after =
      { alu with
        lhs := { alu.lhs with value := lhs }
        rhs := { alu.rhs with value := rhs }
        result := { alu.result with value := result } } := by
  simp only [load,Outcome.result_andThen,Outcome.result_map,except_bind_ok,except_map_ok] at loaded
  obtain ⟨_,⟨_,⟨lhs,first,rfl⟩,rhs,second,rfl⟩,result,third,rfl⟩ := loaded
  obtain ⟨x,rfl⟩ := Register.load_ok first
  obtain ⟨y,rfl⟩ := Register.load_ok second
  obtain ⟨z,rfl⟩ := Register.load_ok third
  exact ⟨x,y,z,rfl⟩

theorem Memory.load_ok {m after : Memory} {hw : Registry} {asserted : Asserted} {driven : Driven}
    (loaded : (m.load hw asserted driven).result = .ok after) : ∃ regions journal value,
      after = { m with regions, journal, address := { m.address with value } } := by
  simp only [load,Outcome.result_andThen,Outcome.result_map,except_bind_ok,except_map_ok] at loaded
  obtain ⟨kept,stored,address,taken,rfl⟩ := loaded
  have cells : ∃ regions journal, kept = { m with regions, journal } := by
    split at stored
    · split at stored
      · cases stored
      next value _ =>
        obtain ⟨journal,wrote⟩ := m.store_result value.toUInt8
        rw [wrote,except_bind_ok] at stored
        obtain ⟨regions,_,ended⟩ := stored
        cases ended
        exact ⟨regions,journal,rfl⟩
    · cases stored
      exact ⟨m.regions,m.journal,rfl⟩
  obtain ⟨regions,journal,rfl⟩ := cells
  obtain ⟨value,rfl⟩ := WordRegister.load_ok taken
  exact ⟨regions,journal,value,rfl⟩

theorem StatusRegister.shown_statuses (sr : StatusRegister) (value : UInt8) :
    ∀ write ∈ { sr with value }.shown, write.1 ∈ sr.statuses := by
  simp [shown,statuses,Flags.all]

theorem StatusRegister.adjustments_statuses (sr : StatusRegister) (asserted : Asserted) :
    ∀ write ∈ sr.adjustments asserted, write.1 ∈ sr.statuses := by
  intro write member
  rcases List.mem_append.mp member with member | member
  all_goals
    split at member
    · exact sr.shown_statuses _ write member
    · cases member

namespace Part
variable {hw : Registry} {cycle : Nat} {part : Part}

/-- What stays of a part: the lines it claims and the names under which it drives buses. -/
def wiring (part : Part) : List Line × List String := (part.lines,part.outlets.map Outlet.setter)

theorem wiring_word (w : WordRegister) (value : UInt16) :
    (word { w with value }).wiring = (word w).wiring := by
  obtain ⟨lines,halves,old⟩ := w
  cases halves <;> rfl

theorem wiring_memory (m : Memory) (regions : MemoryMap) (journal : List (UInt16 × UInt8))
    (value : UInt16) : (memory { m with regions, journal, address := { m.address with value } }).wiring =
      (memory m).wiring := by
  obtain ⟨path,tap,⟨lines,halves,old⟩,cells,saved,notes⟩ := m
  cases halves <;> rfl

/-- The part without the script that it still has and the notes of its memory. -/
def resting : Part → Part
  | memory m => memory { m with savedAddress := 0, journal := [] }
  | scripted c => scripted { c with script := [] }
  | part => part

theorem resting_wiring (part : Part) : part.resting.wiring = part.wiring := by
  cases part <;> rfl

theorem select_resting {statuses : SortedSet StatusId} {asserted : Asserted} {acted : Part × Asserted}
    (selected : (part.select hw statuses asserted).result = .ok acted) :
    acted.1.resting = part.resting := by
  cases part with
  | controller c =>
    rw [select,Outcome.result_map,except_map_ok] at selected
    obtain ⟨raised,_,rfl⟩ := selected
    rfl
  | scripted c =>
    rw [select,Outcome.result_map,except_map_ok] at selected
    obtain ⟨⟨after,raised⟩,chosen,rfl⟩ := selected
    unfold ScriptedController.select at chosen
    split at chosen
    · cases chosen
      rfl
    · rw [Outcome.result_map,except_map_ok] at chosen
      obtain ⟨_,_,ended⟩ := chosen
      cases ended
      rfl
  | _ =>
    cases selected
    rfl

theorem select_wiring {statuses : SortedSet StatusId} {asserted : Asserted} {acted : Part × Asserted}
    (selected : (part.select hw statuses asserted).result = .ok acted) :
    acted.1.wiring = part.wiring := by
  rw [← resting_wiring,select_resting selected,resting_wiring]

/-- The part is wired as before and the writes are of its own statuses. -/
def Kept (part : Part) (acted : Part × Staged) : Prop :=
  acted.1.wiring = part.wiring ∧ ∀ write ∈ acted.2, write.1 ∈ part.statuses

theorem Kept.silent {after : Part} (wired : after.wiring = part.wiring) : Kept part (after,[]) :=
  ⟨wired,by simp⟩

section Declared
variable (declared : ∀ status ∈ part.statuses, status.index < hw.statuses.size)
include declared

theorem load_kept {asserted : Asserted} {driven : Driven} {acted : Part × Staged}
    (loaded : (part.load hw asserted driven []).result = .ok acted) : Kept part acted := by
  cases part with
  | root lines =>
    cases loaded
    exact .silent rfl
  | register r =>
    rw [load,Outcome.result_map,except_map_ok] at loaded
    obtain ⟨after,taken,rfl⟩ := loaded
    obtain ⟨value,rfl⟩ := Register.load_ok taken
    exact .silent rfl
  | word w =>
    rw [load,Outcome.result_map,except_map_ok] at loaded
    obtain ⟨after,taken,rfl⟩ := loaded
    obtain ⟨value,rfl⟩ := WordRegister.load_ok taken
    exact .silent (wiring_word w value)
  | alu a =>
    rw [load,Outcome.result_map,except_map_ok] at loaded
    obtain ⟨after,taken,rfl⟩ := loaded
    obtain ⟨lhs,rhs,result,rfl⟩ := AluUnit.load_ok taken
    exact .silent rfl
  | statusRegister sr =>
    rw [load,Outcome.result_map,StatusRegister.load_result declared,except_map_ok] at loaded
    obtain ⟨after,taken,rfl⟩ := loaded
    obtain ⟨value,_,ended⟩ := except_bind_ok.mp taken
    cases ended
    refine ⟨rfl,fun write member => ?_⟩
    cases value with
    | none => cases member
    | some value => exact sr.shown_statuses value.toUInt8 write member
  | memory m =>
    rw [load,Outcome.result_map,except_map_ok] at loaded
    obtain ⟨after,taken,rfl⟩ := loaded
    obtain ⟨regions,journal,value,rfl⟩ := Memory.load_ok taken
    exact .silent (wiring_memory m regions journal value)
  | controller c =>
    rw [load,Outcome.result_map,except_map_ok] at loaded
    obtain ⟨after,taken,rfl⟩ := loaded
    obtain ⟨value,rfl⟩ := Register.load_ok taken
    exact .silent rfl
  | scripted c =>
    rw [load,Outcome.result_map,except_map_ok] at loaded
    obtain ⟨after,taken,rfl⟩ := loaded
    obtain ⟨value,rfl⟩ := Register.load_ok taken
    exact .silent rfl

theorem work_kept {asserted : Asserted} {statuses : SortedSet StatusId} {acted : Part × Staged}
    (worked : (part.work hw cycle asserted statuses []).result = .ok acted) : Kept part acted := by
  cases part with
  | root lines =>
    rw [work,rootAct,Registry.stage,if_pos (declared lines.halted (by simp [Part.statuses]))] at worked
    split at worked
    · cases worked
    split at worked
    · cases worked
      exact ⟨rfl,by simp [Part.statuses]⟩
    · cases worked
      exact .silent rfl
  | register r =>
    cases worked
    exact .silent rfl
  | word w =>
    cases worked
    exact .silent (wiring_word w _)
  | alu a =>
    change ((a.process hw asserted statuses []).map _).result = _ at worked
    rw [Outcome.result_map,AluUnit.process_result _ _ _ _ _ declared,except_map_ok] at worked
    obtain ⟨after,operated,rfl⟩ := worked
    obtain ⟨⟨value,reports⟩,operated,ended⟩ := except_bind_ok.mp operated
    cases ended
    refine ⟨rfl,?_⟩
    unfold AluUnit.operate at operated
    dsimp only at operated
    split at operated
    · cases operated
      exact fun write member => absurd member List.not_mem_nil
    · cases operated
      simp [AluUnit.count,Part.statuses,AluUnit.statuses,Flags.all]
    · cases operated
  | statusRegister sr =>
    change ((sr.process hw asserted []).map _).result = _ at worked
    rw [StatusRegister.process_declared declared] at worked
    cases worked
    exact ⟨rfl,sr.adjustments_statuses asserted⟩
  | memory m =>
    cases worked
    exact .silent (wiring_memory m m.regions m.journal _)
  | controller c =>
    cases worked
    refine .silent ?_
    unfold Controller.advance
    split
    · rfl
    split <;> rfl
  | scripted c =>
    cases worked
    exact .silent rfl

theorem settle_kept {asserted : Asserted} {statuses : SortedSet StatusId}
    {acted : Part × Asserted × Staged}
    (known : ∀ control ∈ part.controls, control.index < hw.controls.size)
    (settled : (part.settle hw statuses asserted []).result = .ok acted) :
    Kept part (acted.1,acted.2.2) ∧ ∀ control ∈ asserted, control ∉ acted.2.1 → control ∈ part.controls := by
  cases part with
  | statusRegister sr =>
    have latch : sr.lines.latch ∈ (statusRegister sr).controls := by
      simp [Part.controls,StatusRegister.controls]
    rw [settle,Outcome.result_map,StatusRegister.settle_declared declared _ _ _ (known _ latch)] at settled
    split at settled
    · cases settled
      refine ⟨⟨rfl,sr.shown_statuses _⟩,fun control raised dropped => ?_⟩
      have same : control = sr.lines.latch := by
        simpa [raised] using dropped
      exact same ▸ latch
    · cases settled
      exact ⟨.silent rfl,fun control raised dropped => absurd raised dropped⟩
  | _ =>
    cases settled
    exact ⟨.silent rfl,fun control raised dropped => absurd raised dropped⟩

end Declared
end Part

/-- A deed within the lines of the part: only the control phase raises any, only the clear
phase drops any. -/
structure Deed.Own (phase : Phase) (part : Part) (deed : Deed) : Prop where
  wiring : deed.part.wiring = part.wiring
  raised : phase ≠ .control → deed.raised = ∅
  dropped : ∀ control ∈ deed.dropped, phase = .clear ∧ control ∈ part.controls
  posts : ∀ write ∈ deed.posts, write.1 ∈ part.statuses

namespace Part
variable {hw : Registry} {phase : Phase} {cycle : Nat} {part : Part} {base : Signals} {deed : Deed}

theorem deed_own (declared : ∀ line ∈ part.lines, hw.Declares line)
    (done : part.deed hw phase cycle base = .ok deed) : deed.Own phase part := by
  have statuses : ∀ status ∈ part.statuses, status.index < hw.statuses.size := fun status member =>
    declared _ (status_mem_lines.mpr member)
  have controls : ∀ control ∈ part.controls, control.index < hw.controls.size := fun control member =>
    declared _ (control_mem_lines.mpr member)
  cases phase with
  | control =>
    obtain ⟨acted,selected,rfl⟩ := except_map_ok.mp done
    exact ⟨select_wiring selected,fun other => absurd rfl other,by simp,by simp⟩
  | write =>
    cases done
    exact ⟨rfl,fun _ => rfl,by simp,by simp⟩
  | read =>
    obtain ⟨acted,loaded,rfl⟩ := except_map_ok.mp done
    obtain ⟨wired,posts⟩ := load_kept statuses loaded
    exact ⟨wired,fun _ => rfl,by simp,posts⟩
  | process =>
    obtain ⟨acted,worked,rfl⟩ := except_map_ok.mp done
    obtain ⟨wired,posts⟩ := work_kept statuses worked
    exact ⟨wired,fun _ => rfl,by simp,posts⟩
  | clear =>
    obtain ⟨acted,settled,rfl⟩ := except_map_ok.mp done
    obtain ⟨⟨wired,posts⟩,dropped⟩ := settle_kept statuses controls settled
    refine ⟨wired,fun _ => rfl,fun control member => ⟨rfl,?_⟩,posts⟩
    simp only [SortedSet.mem_filter,Bool.not_eq_true',SortedSet.contains_eq_false] at member
    exact dropped control member.1 member.2

theorem Sees.after {now : Signals} {other : Part} (sees : Sees phase part base now)
    (own : deed.Own phase other) (apart : ∀ control ∈ part.controls, control ∉ other.controls) :
    Sees phase part base (deed.apply now) := by
  refine ⟨sees.statuses,sees.driven,fun taking => ?_,fun clearing control member => ?_⟩
  · rw [← sees.asserted taking]
    refine SortedSet.ext_mem fun control => ?_
    have raised : deed.raised = ∅ := own.raised (by rcases taking with rfl | rfl <;> decide)
    have dropped : control ∉ deed.dropped := fun member => by
      rcases taking with rfl | rfl <;> cases (own.dropped control member).1
    simp [Deed.apply,raised,SortedSet.contains_eq_false,dropped]
  · rw [← sees.owned clearing control member]
    have raised : deed.raised = ∅ := own.raised (by rw [clearing]; decide)
    have dropped : control ∉ deed.dropped := fun inside =>
      apart control member (own.dropped control inside).2
    simp [Deed.apply,raised,SortedSet.contains_eq_false,dropped]

/-- The phase of many parts is the sum of their deeds. -/
theorem reactAll_deeds (quiet : phase ≠ .write) {parts : List Part} {now : Signals}
    (declared : ∀ line ∈ parts.flatMap lines, hw.Declares line) (apart : (parts.flatMap lines).Nodup)
    (sees : ∀ part ∈ parts, Sees phase part base now) :
    (reactAll hw phase cycle parts now).result =
      (parts.mapM (Part.deed hw phase cycle base)).map fun deeds =>
        (deeds.map Deed.part,deeds.foldl Deed.apply now) := by
  induction parts generalizing now with
  | nil => rfl
  | cons part rest ih =>
    rw [List.flatMap_cons,List.nodup_append] at apart
    obtain ⟨first,others⟩ := List.forall_mem_cons.mp sees
    have known : ∀ line ∈ part.lines, hw.Declares line := fun line member =>
      declared line (List.mem_append_left _ member)
    rw [reactAll_cons,act_deed quiet known first,List.mapM_cons]
    cases acted : part.deed hw phase cycle base with
    | error fault => rfl
    | ok deed =>
      have own := deed_own known acted
      -- The base stays that of the whole phase, since a deed shows nothing to those behind it.
      have later : ∀ other ∈ rest, Sees phase other base (deed.apply now) := fun other member =>
        (others other member).after own fun control inside also =>
          apart.2.2 _ (control_mem_lines.mpr also) _
            (List.mem_flatMap.mpr ⟨other,member,control_mem_lines.mpr inside⟩) rfl
      change ((reactAll hw phase cycle rest (deed.apply now)).result >>= _) = _
      rw [ih (fun line member => declared line (List.mem_append_right _ member)) apart.2.1 later]
      change _ = Except.map _ ((rest.mapM (Part.deed hw phase cycle base)) >>= _)
      cases rest.mapM (Part.deed hw phase cycle base) <;> rfl

end Part
end Microprogram

import Microprogram.Proofs.Computer.Ports
import Microprogram.Proofs.Part.Lines

/-! The status lines over a cycle. A line changes only through the controls of the part
that sets it, and those of the status register always show its byte. -/
namespace Microprogram

def Layout.statusControls (hw : Layout) : List ControlId :=
  [hw.statusRegister.tap.read,hw.statusRegister.latch,hw.statusRegister.setCarry,
    hw.statusRegister.clearCarry]

/-- Whether a status line may change in a cycle with the given lines. -/
def Layout.Permits (hw : Layout) (asserted : Asserted) (status : StatusId) : Prop :=
  status = hw.root.halted ∧ hw.root.halt ∈ asserted ∨ status ∈ hw.alu.flags.all ∨
    status ∈ hw.statusRegister.flags.all ∧ ∃ line ∈ hw.statusControls, line ∈ asserted

/-- Whether some of the given lines make a part post a status. -/
def Layout.Alters (hw : Layout) (asserted : Asserted) (status : StatusId) : Prop :=
  status = hw.root.halted ∧ hw.root.halt ∈ asserted ∨
    (status ∈ hw.alu.flags.all ∧ ∃ op, hw.alu.control op ∈ asserted) ∨
    status ∈ hw.statusRegister.flags.all ∧ ∃ line ∈ hw.statusControls, line ∈ asserted

theorem Layout.Alters.permits {hw : Layout} {asserted : Asserted} {status : StatusId}
    (alters : hw.Alters asserted status) : hw.Permits asserted status :=
  alters.imp_right (Or.imp_left And.left)

namespace Contents
variable {hw : Layout} {s t : Contents} {asserted : Asserted}

theorem shows_statuses (value : UInt8) (s : Contents) :
    (s.shows hw value).map Prod.fst = hw.statusRegister.flags.all := rfl

theorem shows_altered {value : UInt8} (line : ControlId) (control : line ∈ hw.statusControls)
    (raised : asserted.contains line = true) :
    ∀ write ∈ s.shows hw value, hw.Alters asserted write.1 := by
  intro write member
  refine .inr (.inr ⟨?_,line,control,(SortedSet.contains_iff _ _).mp raised⟩)
  exact s.shows_statuses value ▸ List.mem_map_of_mem member

theorem load_ok {driven : Driven} (loaded : s.load hw asserted driven = .ok t) :
    (∃ taken, hw.controller.opcode.sense hw.hardware asserted driven = .ok taken ∧
      t.opcode = byteTaken taken s.opcode) ∧
    (∃ taken, hw.statusRegister.tap.sense hw.statusRegister.path hw.hardware asserted driven = .ok taken ∧
      t.status = byteTaken taken s.status ∧
      t.lines = taken.elim s.lines fun value => postAll (s.shows hw value.toUInt8) s.lines) ∧
    ∃ taken, MemoryMap.storeTaken s.regions s.address taken = .ok t.regions := by
  obtain ⟨taken,senses,received⟩ := load_senses loaded
  obtain ⟨regions,stores,ended⟩ := except_bind_ok.mp received
  cases ended
  exact ⟨⟨_,senses .opcode,rfl⟩,⟨_,senses .status,rfl,rfl⟩,_,stores⟩

theorem process_ok {number : Nat} (processed : s.process hw number asserted = .ok t) :
    ∃ value reports, (s.aluUnit hw).operate asserted s.lines = .ok (value,reports) ∧
      t.opcode = s.opcode ∧ t.regions = s.regions ∧ t.status = (s.statusUnit hw).adjusted asserted ∧
      t.lines = postAll ((if asserted.contains hw.root.halt then [(hw.root.halted,true)] else []) ++
        reports ++ (s.statusUnit hw).adjustments asserted) s.lines := by
  unfold process at processed
  split at processed
  · cases processed
  obtain ⟨⟨value,reports⟩,operated,ended⟩ := except_bind_ok.mp processed
  cases ended
  exact ⟨value,reports,operated,rfl,rfl,rfl,rfl⟩

theorem operate_reports {value : UInt8} {reports : Staged} {statuses : SortedSet StatusId}
    (operated : (s.aluUnit hw).operate asserted statuses = .ok (value,reports)) :
    ∀ write ∈ reports, write.1 ∈ hw.alu.flags.all := by
  unfold AluUnit.operate at operated
  dsimp only at operated
  split at operated
  · cases operated
    simp
  · cases operated
    simp [AluUnit.reports,Flags.all,AluUnit.count,aluUnit]
  · cases operated

theorem operate_raised {value : UInt8} {reports : Staged} {statuses : SortedSet StatusId}
    (operated : (s.aluUnit hw).operate asserted statuses = .ok (value,reports))
    {write : StatusId × Bool} (member : write ∈ reports) : ∃ op, hw.alu.control op ∈ asserted := by
  unfold AluUnit.operate at operated
  dsimp only at operated
  split at operated
  · cases operated
    contradiction
  next op selected =>
    have among : op ∈ ((s.aluUnit hw).count asserted).selected asserted := by
      rw [selected]
      exact List.mem_cons_self
    exact ⟨op,(SortedSet.contains_iff _ _).mp (List.mem_filter.mp among).2⟩
  · cases operated

theorem adjustments_altered :
    ∀ write ∈ (s.statusUnit hw).adjustments asserted, hw.Alters asserted write.1 := by
  intro write member
  rcases List.mem_append.mp member with set | clear
  · split at set
    next raised =>
      exact shows_altered (s := s) hw.statusRegister.setCarry
        (by simp [Layout.statusControls]) raised write set
    next => contradiction
  · split at clear
    next raised =>
      exact shows_altered (s := s) hw.statusRegister.clearCarry
        (by simp [Layout.statusControls]) raised write clear
    next => contradiction

/-- In a cycle only those statuses change that its lines make a part post. -/
theorem cycle_writes {number : Nat} (done : s.cycle hw number asserted = .ok t) :
    ∃ writes, t.lines = postAll writes s.lines ∧ ∀ write ∈ writes, hw.Alters asserted write.1 := by
  obtain ⟨driven,_,done⟩ := except_bind_ok.mp done
  obtain ⟨u,loaded,done⟩ := except_bind_ok.mp done
  obtain ⟨v,processed,done⟩ := except_bind_ok.mp done
  cases done
  have loads : ∃ writes, u.lines = postAll writes s.lines ∧
      ∀ write ∈ writes, hw.Alters asserted write.1 := by
    obtain ⟨_,⟨taken,took,_,lines⟩,_⟩ := load_ok loaded
    cases taken with
    | none => exact ⟨[],lines,by simp⟩
    | some value =>
      refine ⟨_,lines,shows_altered hw.statusRegister.tap.read
        (by simp [Layout.statusControls]) ?_⟩
      unfold Tap.sense at took
      split at took
      next raised => exact raised
      next => cases took
  have processes : ∃ writes, v.lines = postAll writes u.lines ∧
      ∀ write ∈ writes, hw.Alters asserted write.1 := by
    obtain ⟨_,reports,operated,_,_,_,lines⟩ := process_ok processed
    refine ⟨_,lines,?_⟩
    simp only [List.mem_append]
    rintro write ((halting | report) | adjustment)
    · split at halting
      next raised =>
        obtain rfl := List.mem_singleton.mp halting
        exact .inl ⟨rfl,(SortedSet.contains_iff _ _).mp raised⟩
      next => contradiction
    · exact .inr (.inl ⟨operate_reports operated write report,operate_raised operated report⟩)
    · exact adjustments_altered write adjustment
  have settles : ∃ writes, (v.settle hw asserted).lines = postAll writes v.lines ∧
      ∀ write ∈ writes, hw.Alters asserted write.1 := by
    unfold settle
    split
    next raised =>
      exact ⟨_,rfl,shows_altered hw.statusRegister.latch
        (by simp [Layout.statusControls]) raised⟩
    next => exact ⟨[],rfl,by simp⟩
  obtain ⟨first,read,one⟩ := loads
  obtain ⟨second,counted,two⟩ := processes
  obtain ⟨third,cleared,three⟩ := settles
  refine ⟨first ++ second ++ third,?_,?_⟩
  · rw [cleared,counted,read,postAll_append,postAll_append]
  · simp only [List.mem_append]
    rintro write ((inside | inside) | inside)
    · exact one write inside
    · exact two write inside
    · exact three write inside

theorem cycle_unaltered {number : Nat} (done : s.cycle hw number asserted = .ok t) {status : StatusId}
    (kept : ¬hw.Alters asserted status) : status ∈ t.lines ↔ status ∈ s.lines := by
  obtain ⟨writes,lines,altered⟩ := cycle_writes done
  rw [lines]
  refine mem_postAll_apart ?_ s.lines
  rintro write member rfl
  exact kept (altered write member)

theorem cycle_keeps {number : Nat} (done : s.cycle hw number asserted = .ok t) {status : StatusId}
    (kept : ¬hw.Permits asserted status) : status ∈ t.lines ↔ status ∈ s.lines :=
  cycle_unaltered done (mt Layout.Alters.permits kept)

section Apart
variable {status : StatusId} (other : status ∉ hw.statusRegister.flags.all)
include other

private theorem shows_apart (value : UInt8) (s : Contents) :
    ∀ write ∈ s.shows hw value, write.1 ≠ status := by
  rintro write member rfl
  exact other (s.shows_statuses value ▸ List.mem_map_of_mem member)

theorem load_apart {driven : Driven} (loaded : s.load hw asserted driven = .ok t) :
    status ∈ t.lines ↔ status ∈ s.lines := by
  obtain ⟨_,⟨taken,_,_,lines⟩,_⟩ := load_ok loaded
  rw [lines]
  cases taken with
  | none => exact .rfl
  | some value => exact mem_postAll_apart (shows_apart other value.toUInt8 s) s.lines

theorem process_apart {number : Nat} (processed : s.process hw number asserted = .ok t)
    {value : UInt8} {reports : Staged}
    (operated : (s.aluUnit hw).operate asserted s.lines = .ok (value,reports)) : status ∈ t.lines ↔
      status ∈ postAll ((if asserted.contains hw.root.halt then [(hw.root.halted,true)] else []) ++
        reports) s.lines := by
  obtain ⟨_,_,same,_,_,_,lines⟩ := process_ok processed
  cases operated.symm.trans same
  rw [lines,postAll_append]
  refine mem_postAll_apart (fun write member => ?_) _
  rcases List.mem_append.mp member with set | clear
  · split at set
    · exact shows_apart other _ s write set
    · contradiction
  · split at clear
    · exact shows_apart other _ s write clear
    · contradiction

theorem settle_apart (s : Contents) : status ∈ (s.settle hw asserted).lines ↔ status ∈ s.lines := by
  unfold settle
  split
  · exact mem_postAll_apart (shows_apart other _ s) s.lines
  · exact .rfl

end Apart

theorem cycle_opcode {number : Nat} (done : s.cycle hw number asserted = .ok t)
    (unread : hw.controller.opcode.tap.read ∉ asserted) : t.opcode = s.opcode := by
  obtain ⟨driven,_,done⟩ := except_bind_ok.mp done
  obtain ⟨u,loaded,done⟩ := except_bind_ok.mp done
  obtain ⟨v,processed,done⟩ := except_bind_ok.mp done
  cases done
  obtain ⟨⟨taken,took,opcode⟩,_⟩ := load_ok loaded
  obtain ⟨_,_,_,same,_⟩ := process_ok processed
  have none : taken = none := by
    unfold RegisterLines.sense at took
    rw [if_neg (fun raised => unread ((SortedSet.contains_iff _ _).mp raised))] at took
    cases took
    rfl
  have settled : (v.settle hw asserted).opcode = v.opcode := by
    unfold settle
    split <;> rfl
  rw [settled,same,opcode,none]
  rfl

theorem cycle_halted (wired : hw.Wired) {number : Nat} (done : s.cycle hw number asserted = .ok t) :
    hw.root.halted ∈ t.lines ↔ hw.root.halt ∈ asserted ∨ hw.root.halted ∈ s.lines := by
  obtain ⟨driven,_,done⟩ := except_bind_ok.mp done
  obtain ⟨u,loaded,done⟩ := except_bind_ok.mp done
  obtain ⟨v,processed,done⟩ := except_bind_ok.mp done
  cases done
  obtain ⟨unflagged,unshown⟩ := not_or.mp
    (mt List.mem_append.mpr (List.nodup_cons.mp wired.statuses_apart).1)
  obtain ⟨value,reports,operated,_⟩ := process_ok processed
  have quiet : ∀ write ∈ reports, write.1 ≠ hw.root.halted := by
    intro write member same
    exact unflagged (same ▸ operate_reports operated write member)
  rw [settle_apart unshown,process_apart unshown processed operated,postAll_append,
    mem_postAll_apart quiet,← load_apart unshown loaded]
  split
  next raised =>
    rw [mem_post,if_pos rfl]
    exact iff_of_true rfl (.inl ((SortedSet.contains_iff _ _).mp raised))
  next idle => exact (or_iff_right (mt (SortedSet.contains_iff _ _).mpr idle)).symm

def Shown (hw : Layout) (s : Contents) : Prop :=
  ∀ pair ∈ s.shows hw s.status, pair.1 ∈ s.lines ↔ pair.2 = true

section Shown
variable (wired : hw.Wired)
include wired

theorem shows_posted (value : UInt8) (lines : SortedSet StatusId) :
    ∀ pair ∈ s.shows hw value, pair.1 ∈ postAll (s.shows hw value) lines ↔ pair.2 = true := by
  intro pair member
  refine mem_postAll_of_mem ?_ member lines
  rw [shows_statuses]
  exact (List.nodup_append.mp wired.statuses_apart).2.1

theorem load_shows {driven : Driven} (loaded : s.load hw asserted driven = .ok t)
    (shown : hw.statusRegister.tap.read ∉ asserted → s.Shown hw) : t.Shown hw := by
  obtain ⟨_,⟨taken,took,status,lines⟩,_⟩ := load_ok loaded
  unfold Shown
  rw [status,lines]
  cases taken with
  | none =>
    refine shown fun raised => ?_
    rw [Tap.sense,if_pos ((SortedSet.contains_iff _ _).mpr raised)] at took
    obtain ⟨value,_,taken⟩ := except_map_ok.mp took
    cases taken
  | some value => exact shows_posted (s := s) wired value.toUInt8 s.lines

theorem process_shows {number : Nat} (processed : s.process hw number asserted = .ok t)
    (shown : hw.statusRegister.setCarry ∉ asserted → hw.statusRegister.clearCarry ∉ asserted →
      s.Shown hw) : t.Shown hw := by
  obtain ⟨_,reports,operated,_,_,status,lines⟩ := process_ok processed
  have apart := List.nodup_append.mp wired.statuses_apart
  unfold Shown
  rw [status,lines,postAll_append]
  unfold StatusRegister.adjustments
  by_cases clear : asserted.contains hw.statusRegister.clearCarry = true
  · have clears : asserted.contains (s.statusUnit hw).lines.clearCarry = true := clear
    rw [if_pos clears,postAll_append]
    exact shows_posted (s := s) wired _ _
  · have stays : ¬asserted.contains (s.statusUnit hw).lines.clearCarry = true := clear
    rw [if_neg stays,List.append_nil,StatusRegister.adjusted,if_neg stays]
    by_cases set : asserted.contains (s.statusUnit hw).lines.setCarry = true
    · rw [if_pos set]
      exact shows_posted (s := s) wired _ _
    · rw [if_neg set,StatusRegister.raised,if_neg set]
      intro pair member
      rw [← shown (mt (SortedSet.contains_iff _ _).mpr set) (mt (SortedSet.contains_iff _ _).mpr clear)
        pair member]
      refine mem_postAll_apart ?_ s.lines
      have flag : pair.1 ∈ hw.statusRegister.flags.all :=
        s.shows_statuses s.status ▸ List.mem_map_of_mem member
      simp only [List.mem_append]
      rintro write (halting | report)
      · split at halting
        · obtain rfl := List.mem_singleton.mp halting
          exact apart.2.2 _ List.mem_cons_self _ flag
        · contradiction
      · exact apart.2.2 _ (List.mem_cons_of_mem _ (operate_reports operated write report)) _ flag

theorem cycle_shows {number : Nat} (done : s.cycle hw number asserted = .ok t)
    (shown : (∀ line ∈ hw.statusControls, line ∉ asserted) → s.Shown hw) : t.Shown hw := by
  obtain ⟨driven,_,done⟩ := except_bind_ok.mp done
  obtain ⟨u,loaded,done⟩ := except_bind_ok.mp done
  obtain ⟨v,processed,done⟩ := except_bind_ok.mp done
  cases done
  unfold settle
  split
  · exact shows_posted (s := v) wired _ v.lines
  next idle =>
    refine process_shows wired processed fun unset uncleared => load_shows wired loaded fun unread => ?_
    refine shown ?_
    simp only [Layout.statusControls,List.forall_mem_cons,List.not_mem_nil,false_implies,implies_true,
      and_true]
    exact ⟨unread,mt (SortedSet.contains_iff _ _).mpr idle,unset,uncleared⟩

theorem cycle_shown {number : Nat} (done : s.cycle hw number asserted = .ok t)
    (shown : s.Shown hw) : t.Shown hw := cycle_shows wired done fun _ => shown

end Shown
end Contents
end Microprogram

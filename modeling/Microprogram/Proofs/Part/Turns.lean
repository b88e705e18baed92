import Microprogram.Proofs.Part.Wiring

/-! The turns of parts in a phase. What one part finds is what those in front of it left, and
they leave the lines of the others alone. -/
namespace Microprogram.Part
variable {hw : Registry} {phase : Phase} {cycle : Nat} {parts after : List Part} {found left : Signals}

/-- What turns of the parts may change of the lines: controls are raised in the control phase
only, and status writes are of statuses that the parts claim. -/
structure Within (phase : Phase) (parts : List Part) (found left : Signals) : Prop where
  asserted : phase ≠ .control → ∀ control ∈ left.asserted, control ∈ found.asserted
  statuses : left.statuses = found.statuses
  staged : ∃ posts : Staged, left.staged = found.staged ++ posts ∧
    ∀ write ∈ posts, .inr write.1 ∈ parts.flatMap lines

theorem act_within {part next : Part} (declared : ∀ line ∈ part.lines, hw.Declares line)
    (acts : part.act hw phase cycle found = .ok (next,left)) :
    next.lines = part.lines ∧ Within phase [part] found left := by
  by_cases writing : phase = .write
  · subst writing
    rw [act_write,except_map_ok] at acts
    obtain ⟨driven,_,ended⟩ := acts
    cases ended
    exact ⟨rfl,fun _ _ member => member,rfl,[],by simp⟩
  · rw [act_deed writing declared ⟨rfl,rfl,fun _ => rfl,fun _ _ _ => .rfl⟩,except_map_ok] at acts
    obtain ⟨deed,done,ended⟩ := acts
    cases ended
    have own := deed_own declared done
    refine ⟨congrArg Prod.fst own.wiring,?_,rfl,deed.posts,rfl,?_⟩
    · intro later control member
      simp only [Deed.apply,own.raised later,SortedSet.mem_filter,SortedSet.mem_union,
        SortedSet.not_mem_empty,or_false] at member
      exact member.1
    · intro write member
      simpa using status_mem_lines.mpr (own.posts write member)

theorem Within.trans {first second : List Part} {middle : Signals} (one : Within phase first found middle)
    (other : Within phase second middle left) : Within phase (first ++ second) found left := by
  obtain ⟨posts,staged,within⟩ := one.staged
  obtain ⟨more,again,inside⟩ := other.staged
  refine ⟨fun later control member => one.asserted later control (other.asserted later control member),
    other.statuses.trans one.statuses,posts ++ more,by rw [again,staged,List.append_assoc],?_⟩
  intro write member
  rw [List.flatMap_append,List.mem_append]
  exact (List.mem_append.mp member).imp (within write) (inside write)

theorem reactAll_within (declared : ∀ line ∈ parts.flatMap lines, hw.Declares line)
    (ran : (reactAll hw phase cycle parts found).result = .ok (after,left)) :
    after.map lines = parts.map lines ∧ Within phase parts found left := by
  induction parts generalizing after found with
  | nil =>
    cases ran
    exact ⟨rfl,fun _ _ member => member,rfl,[],by simp⟩
  | cons part rest ih =>
    rw [List.flatMap_cons,List.forall_mem_append] at declared
    rw [reactAll_cons] at ran
    obtain ⟨⟨next,middle⟩,acts,ran⟩ := except_bind_ok.mp ran
    obtain ⟨⟨others,_⟩,later,ended⟩ := except_bind_ok.mp ran
    cases ended
    obtain ⟨same,one⟩ := act_within declared.1 acts
    obtain ⟨rests,more⟩ := ih declared.2 later
    refine ⟨?_,one.trans more⟩
    rw [List.map_cons,List.map_cons,same,rests]

theorem reactAll_append (front back : List Part) (signals : Signals) :
    (reactAll hw phase cycle (front ++ back) signals).result =
      (reactAll hw phase cycle front signals).result >>= fun first =>
        (reactAll hw phase cycle back first.2).result >>= fun second =>
          .ok (first.1 ++ second.1,second.2) := by
  induction front generalizing signals with
  | nil =>
    rw [List.nil_append,reactAll_nil,except_ok_bind]
    generalize (reactAll hw phase cycle back signals).result = ran
    cases ran <;> rfl
  | cons part rest ih =>
    rw [List.cons_append,reactAll_cons,reactAll_cons,bind_assoc]
    refine bind_congr fun acted => ?_
    rw [ih,bind_assoc,bind_assoc]
    refine bind_congr fun first => ?_
    rw [except_ok_bind,bind_assoc]
    rfl

/-- The turn of the part at a place in a phase: those in front of it have had theirs. -/
structure Turn (hw : Registry) (phase : Phase) (cycle : Nat) (parts : List Part) (signals : Signals)
    (place : Nat) (part next : Part) (found left : Signals) : Prop where
  stands : parts[place]? = some part
  ahead : ∃ front, reactAll hw phase cycle (parts.take place) signals = .done (front,found)
  acts : part.act hw phase cycle found = .ok (next,left)

/-- In a phase every part has its turn, between those in front of it and those behind. -/
theorem reactAll_turn (declared : ∀ line ∈ parts.flatMap lines, hw.Declares line) {signals : Signals}
    (ran : (reactAll hw phase cycle parts signals).result = .ok (after,left)) {place : Nat} {part : Part}
    (stands : parts[place]? = some part) :
    ∃ next found passed, Turn hw phase cycle parts signals place part next found passed ∧
      after[place]? = some next ∧ Within phase (parts.take place) signals found ∧
        Within phase (parts.drop (place + 1)) passed left := by
  obtain ⟨small,rfl⟩ := List.getElem?_eq_some_iff.mp stands
  have order : parts = parts.take place ++ parts[place] :: parts.drop (place + 1) := by
    rw [← List.drop_eq_getElem_cons small,List.take_append_drop]
  rw [order,List.flatMap_append,List.forall_mem_append,List.flatMap_cons,List.forall_mem_append] at declared
  rw [order,reactAll_append] at ran
  obtain ⟨⟨front,found⟩,ahead,others⟩ := except_bind_ok.mp ran
  obtain ⟨⟨back,_⟩,others,ended⟩ := except_bind_ok.mp others
  rw [reactAll_cons] at others
  obtain ⟨⟨next,passed⟩,acts,others⟩ := except_bind_ok.mp others
  obtain ⟨⟨behind,_⟩,later,placed⟩ := except_bind_ok.mp others
  cases placed
  cases ended
  obtain ⟨same,first⟩ := reactAll_within declared.1 ahead
  refine ⟨next,found,passed,⟨stands,⟨front,Outcome.result_eq_ok.mp ahead⟩,acts⟩,?_,first,
    (reactAll_within declared.2.2 later).2⟩
  have length : front.length = place := by
    rw [← List.length_map lines,same,List.length_map,List.length_take_of_le (Nat.le_of_lt small)]
  simp [← length]

end Microprogram.Part

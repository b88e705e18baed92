import Mathlib.Data.List.Nodup
import Microprogram.Machine.Topology
import Microprogram.Proofs.Machine.Outcome
import Microprogram.Proofs.Sorted.Map

/-! Ownership of lines as a property of the parts. The check in order accepts just those
parts that together claim every declared line once and no other, so that it accepts them
in any order. -/
namespace Microprogram

abbrev Line := ControlId ⊕ StatusId

def Registry.Declares (hw : Registry) : Line → Prop
  | .inl control => control.index < hw.controls.size
  | .inr status => status.index < hw.statuses.size

instance (hw : Registry) : DecidablePred hw.Declares
  | .inl control => inferInstanceAs (Decidable (control.index < hw.controls.size))
  | .inr status => inferInstanceAs (Decidable (status.index < hw.statuses.size))

namespace Part

def lines (part : Part) : List Line := part.controls.map .inl ++ part.statuses.map .inr

theorem mem_lines {part : Part} {line : Line} : line ∈ part.lines ↔
    (∃ control ∈ part.controls, line = .inl control) ∨ ∃ status ∈ part.statuses, line = .inr status := by
  simp only [lines,List.mem_append,List.mem_map,eq_comm]

theorem control_mem_lines {part : Part} {control : ControlId} :
    .inl control ∈ part.lines ↔ control ∈ part.controls := by
  simp [mem_lines]

theorem status_mem_lines {part : Part} {status : StatusId} :
    .inr status ∈ part.lines ↔ status ∈ part.statuses := by
  simp [mem_lines]

end Part

/-- Every declared line is claimed by one part, and parts claim declared lines only. -/
structure Owned (hw : Registry) (parts : List Part) : Prop where
  declared : ∀ line ∈ parts.flatMap Part.lines, hw.Declares line
  apart : (parts.flatMap Part.lines).Nodup
  controls : ∀ control ∈ hw.idents .control, .inl control ∈ parts.flatMap Part.lines
  statuses : ∀ status ∈ hw.idents .status, .inr status ∈ parts.flatMap Part.lines

theorem Owned.of_lines {hw : Registry} {parts others : List Part} (owned : Owned hw parts)
    (same : others.map Part.lines = parts.map Part.lines) : Owned hw others := by
  have lines : others.flatMap Part.lines = parts.flatMap Part.lines := by
    rw [List.flatMap_def,same,List.flatMap_def]
  obtain ⟨declared,apart,controls,statuses⟩ := owned
  constructor <;> rwa [lines]

theorem Owned.perm {hw : Registry} {parts others : List Part} (owned : Owned hw parts)
    (order : parts.Perm others) : Owned hw others := by
  have lines := order.flatMap_right Part.lines
  exact ⟨fun line member => owned.declared line (lines.mem_iff.mpr member),
    lines.nodup_iff.mp owned.apart,
    fun control member => lines.mem_iff.mp (owned.controls control member),
    fun status member => lines.mem_iff.mp (owned.statuses status member)⟩

theorem Owned.alone {hw : Registry} {parts : List Part} (owned : Owned hw parts) {place : Nat} {part : Part}
    (stands : parts[place]? = some part) {line : Line} (member : line ∈ part.lines) :
    line ∉ (parts.take place).flatMap Part.lines ∧ line ∉ (parts.drop (place + 1)).flatMap Part.lines := by
  obtain ⟨small,rfl⟩ := List.getElem?_eq_some_iff.mp stands
  have apart := owned.apart
  rw [← List.take_append_drop place parts,List.drop_eq_getElem_cons small,List.flatMap_append,
    List.flatMap_cons,List.nodup_append,List.nodup_append] at apart
  obtain ⟨_,⟨_,_,behind⟩,front⟩ := apart
  constructor
  · intro claimed
    exact front line claimed line (List.mem_append_left _ member) rfl
  · intro claimed
    exact behind line member line claimed rfl

namespace StructuralError

def undeclared (owner : String) : Line → StructuralError
  | .inl control => undeclaredClaim owner control.num
  | .inr status => undeclaredClaim owner status.num

def ownedTwice (hw : Registry) (first second : String) : Line → StructuralError
  | .inl control => controlOwnedTwice (hw.controlPath control) first second
  | .inr status => statusOwnedTwice (hw.statusPath status) first second

end StructuralError

namespace Ownership
variable {hw : Registry} {owners after : Ownership}

def claim (hw : Registry) (owners : Ownership) : String × Line → Except StructuralError Ownership
  | (owner,.inl control) => claimControl hw owner owners control
  | (owner,.inr status) => claimStatus hw owner owners status

def owner? (owners : Ownership) : Line → Option String
  | .inl control => owners.controls.get? control
  | .inr status => owners.statuses.get? status

def give (owners : Ownership) (owner : String) : Line → Ownership
  | .inl control => { owners with controls := owners.controls.insert control owner }
  | .inr status => { owners with statuses := owners.statuses.insert status owner }

theorem claimPart_eq (hw : Registry) (owners : Ownership) (part : Part) :
    claimPart hw owners part = (part.lines.map (part.path,·)).foldlM (claim hw) owners := by
  rw [claimPart,Part.lines,List.map_append,List.foldlM_append,List.map_map,List.map_map,List.foldlM_map,
    bind_congr fun owners => List.foldlM_map]
  rfl

theorem claim_eq (hw : Registry) (owners : Ownership) (owner : String) (line : Line) :
    claim hw owners (owner,line) =
      if hw.Declares line then
        match owners.owner? line with
        | some first => .error (.ownedTwice hw first owner line)
        | none => .ok (owners.give owner line)
      else .error (.undeclared owner line) := by
  by_cases known : hw.Declares line
  · rw [if_pos known]
    cases line with
    | inl control =>
      rw [claim,claimControl,if_neg (Nat.not_le_of_lt known),owner?]
      cases owners.controls.get? control <;> rfl
    | inr status =>
      rw [claim,claimStatus,if_neg (Nat.not_le_of_lt known),owner?]
      cases owners.statuses.get? status <;> rfl
  · rw [if_neg known]
    cases line with
    | inl control => exact if_pos (Nat.le_of_not_lt known)
    | inr status => exact if_pos (Nat.le_of_not_lt known)

theorem owner?_give (owners : Ownership) (owner : String) (line other : Line) :
    (owners.give owner line).owner? other = if other = line then some owner else owners.owner? other := by
  split
  next same =>
    subst same
    cases other with
    | inl control => exact owners.controls.get?_insert_self control owner
    | inr status => exact owners.statuses.get?_insert_self status owner
  next different =>
    cases line with
    | inl control =>
      cases other with
      | inl other => exact SortedMap.get?_insert_of_ne _ _ _ _ fun same => different (congrArg _ same)
      | inr status => rfl
    | inr status =>
      cases other with
      | inl control => rfl
      | inr other => exact SortedMap.get?_insert_of_ne _ _ _ _ fun same => different (congrArg _ same)

theorem claim_ok {owner : String} {line : Line} : claim hw owners (owner,line) = .ok after ↔
    hw.Declares line ∧ owners.owner? line = none ∧ owners.give owner line = after := by
  rw [claim_eq]
  split
  next known => cases owners.owner? line <;> simp [known]
  next unknown => simp [unknown]

theorem claim_error {owner : String} {line : Line} {error : StructuralError} :
    claim hw owners (owner,line) = .error error ↔
      (¬hw.Declares line ∧ .undeclared owner line = error) ∨
        hw.Declares line ∧ ∃ first, owners.owner? line = some first ∧
          .ownedTwice hw first owner line = error := by
  rw [claim_eq]
  split
  next known => cases owners.owner? line <;> simp [known]
  next unknown => simp [unknown]

theorem claims_ok {claims : List (String × Line)} :
    (∃ after, claims.foldlM (claim hw) owners = .ok after) ↔
      (∀ line ∈ claims.map Prod.snd, hw.Declares line ∧ owners.owner? line = none) ∧
        (claims.map Prod.snd).Nodup := by
  induction claims generalizing owners with
  | nil => simp [List.foldlM,pure,Except.pure]
  | cons first rest ih =>
    obtain ⟨owner,line⟩ := first
    have later := @ih (owners.give owner line)
    simp only [List.foldlM_cons,List.map_cons,List.forall_mem_cons,List.nodup_cons,except_bind_ok,claim_ok]
    constructor
    · rintro ⟨after,_,⟨known,free,rfl⟩,ran⟩
      obtain ⟨others,distinct⟩ := later.mp ⟨after,ran⟩
      refine ⟨⟨⟨known,free⟩,?_⟩,?_,distinct⟩
      · intro other member
        obtain ⟨declared,fresh⟩ := others other member
        rw [owner?_give] at fresh
        split at fresh
        · cases fresh
        · exact ⟨declared,fresh⟩
      · intro again
        have fresh := (others line again).2
        simp [owner?_give] at fresh
    · rintro ⟨⟨⟨known,free⟩,others⟩,absent,distinct⟩
      obtain ⟨after,ran⟩ := later.mpr ⟨fun other member => ⟨(others other member).1,by
        rw [owner?_give,if_neg (ne_of_mem_of_not_mem member absent)]
        exact (others other member).2⟩,distinct⟩
      exact ⟨after,_,⟨known,free,rfl⟩,ran⟩

theorem claims_owner {claims : List (String × Line)} (ran : claims.foldlM (claim hw) owners = .ok after)
    {owner : String} {line : Line} : after.owner? line = some owner ↔
      owners.owner? line = some owner ∨ (owner,line) ∈ claims := by
  induction claims generalizing owners with
  | nil =>
    cases ran
    simp
  | cons first rest ih =>
    obtain ⟨claimant,claimed⟩ := first
    rw [List.foldlM_cons] at ran
    obtain ⟨_,granted,later⟩ := except_bind_ok.mp ran
    obtain ⟨_,free,rfl⟩ := claim_ok.mp granted
    rw [ih later,owner?_give,List.mem_cons,Prod.mk.injEq]
    split
    next same => simp [same,free,eq_comm]
    next different => simp [different]

end Ownership

/-- What the parts claim, in their order, with the names of those that claim it. -/
def claimed (parts : List Part) : List (String × Line) :=
  parts.flatMap fun part => part.lines.map (part.path,·)

theorem claimed_lines (parts : List Part) : (claimed parts).map Prod.snd = parts.flatMap Part.lines := by
  simp [claimed,List.map_flatMap,Function.comp_def]

theorem claimAll_eq (hw : Registry) (parts : List Part) (owners : Ownership) :
    parts.foldlM (Ownership.claimPart hw) owners = (claimed parts).foldlM (Ownership.claim hw) owners := by
  unfold claimed
  induction parts generalizing owners with
  | nil => rfl
  | cons part rest ih =>
    rw [List.foldlM_cons,List.flatMap_cons,List.foldlM_append,Ownership.claimPart_eq]
    exact bind_congr ih

/-- Claims of declared lines, of which none is claimed twice. -/
structure SoundClaims (hw : Registry) (claims : List (String × Line)) : Prop where
  declared : ∀ line ∈ claims.map Prod.snd, hw.Declares line
  apart : (claims.map Prod.snd).Nodup

section Granted
variable {hw : Registry} {claims : List (String × Line)}

theorem granted_iff :
    (∃ owners, claims.foldlM (Ownership.claim hw) ⟨∅,∅⟩ = .ok owners) ↔ SoundClaims hw claims := by
  have fresh (line : Line) : (⟨∅,∅⟩ : Ownership).owner? line = none := by
    cases line <;> rfl
  rw [Ownership.claims_ok]
  constructor
  · intro ⟨free,apart⟩
    exact ⟨fun line member => (free line member).1,apart⟩
  · intro sound
    exact ⟨fun line member => ⟨sound.declared line member,fresh line⟩,sound.apart⟩

variable {owners : Ownership} (granted : claims.foldlM (Ownership.claim hw) ⟨∅,∅⟩ = .ok owners)
include granted

theorem owner_of_granted {owner : String} {line : Line} :
    owners.owner? line = some owner ↔ (owner,line) ∈ claims := by
  rw [Ownership.claims_owner granted,or_iff_right_iff_imp]
  cases line <;> exact nofun

theorem free_of_granted (line : Line) : owners.owner? line = none ↔ line ∉ claims.map Prod.snd := by
  simp [Option.eq_none_iff_forall_ne_some,owner_of_granted granted]

end Granted

theorem verifyTopology_ok {hw : Registry} {parts : List Part} :
    verifyTopology hw parts = .ok () ↔ Owned hw parts := by
  unfold verifyTopology
  rw [claimAll_eq,except_bind_ok]
  constructor
  · rintro ⟨owners,granted,checked⟩
    have sound := granted_iff.mp ⟨owners,granted⟩
    have taken (line : Line) (found : ¬(owners.owner? line).isNone = true) :
        line ∈ parts.flatMap Part.lines := by
      rwa [Option.isNone_iff_eq_none,free_of_granted granted,not_not,claimed_lines] at found
    split at checked
    · cases checked
    next controls =>
      split at checked
      · cases checked
      next statuses =>
        rw [List.find?_eq_none] at controls statuses
        refine ⟨claimed_lines parts ▸ sound.declared,claimed_lines parts ▸ sound.apart,?_,?_⟩
        · intro control member
          exact taken (.inl control) (controls control member)
        · intro status member
          exact taken (.inr status) (statuses status member)
  · intro owned
    have sound : SoundClaims hw (claimed parts) :=
      ⟨claimed_lines parts ▸ owned.declared,claimed_lines parts ▸ owned.apart⟩
    obtain ⟨owners,granted⟩ := granted_iff.mpr sound
    have taken {line : Line} (member : line ∈ parts.flatMap Part.lines) :
        ¬(owners.owner? line).isNone = true := by
      rwa [Option.isNone_iff_eq_none,free_of_granted granted,not_not,claimed_lines]
    have controls : (hw.idents .control).find? (fun control => (owners.controls.get? control).isNone) = none :=
      List.find?_eq_none.mpr fun control member => taken (owned.controls control member)
    have statuses : (hw.idents .status).find? (fun status => (owners.statuses.get? status).isNone) = none :=
      List.find?_eq_none.mpr fun status member => taken (owned.statuses status member)
    refine ⟨owners,granted,?_⟩
    rw [controls,statuses]

end Microprogram

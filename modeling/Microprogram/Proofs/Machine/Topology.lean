import Mathlib.Data.List.Perm.Basic
import Mathlib.Data.Sum.Basic
import Microprogram.Proofs.Hardware.Idents
import Microprogram.Proofs.Machine.Atomicity
import Microprogram.Proofs.Machine.Ownership

/-! What the check of ownership says. It accepts the parts whose claims are the declared lines in
some order. Of other parts it names the first claim at fault, or the lowest line without an
owner where no claim is at fault. -/
namespace Microprogram

/-- What may be at fault with the claims of parts, and the error that tells of it. -/
inductive Misowned (hw : Registry) (parts : List Part) : StructuralError → Prop
  | undeclared {before after : List (String × Line)} {owner : String} {line : Line}
      (order : claimed parts = before ++ (owner,line) :: after) (sound : SoundClaims hw before)
      (unknown : ¬hw.Declares line) : Misowned hw parts (.undeclared owner line)
  | ownedTwice {before between after : List (String × Line)} {first second : String} {line : Line}
      (order : claimed parts = before ++ (first,line) :: between ++ (second,line) :: after)
      (sound : SoundClaims hw (before ++ (first,line) :: between)) :
      Misowned hw parts (.ownedTwice hw first second line)
  | unownedControl {control : ControlId} (sound : SoundClaims hw (claimed parts))
      (declared : control.index < hw.controls.size) (free : ∀ part ∈ parts, control ∉ part.controls)
      (least : ∀ other : ControlId, other.index < control.index → ∃ part ∈ parts, other ∈ part.controls) :
      Misowned hw parts (.unownedControl (hw.controlPath control))
  | unownedStatus {status : StatusId} (sound : SoundClaims hw (claimed parts))
      (controls : ∀ control : ControlId, control.index < hw.controls.size →
        ∃ part ∈ parts, control ∈ part.controls)
      (declared : status.index < hw.statuses.size) (free : ∀ part ∈ parts, status ∉ part.statuses)
      (least : ∀ other : StatusId, other.index < status.index → ∃ part ∈ parts, other ∈ part.statuses) :
      Misowned hw parts (.unownedStatus (hw.statusPath status))

section Lines
variable {hw : Registry} {parts : List Part} {kind : Kind} {line : Ident kind → Line}
  {claims : Part → List (Ident kind)} (listed : ∀ part id, line id ∈ part.lines ↔ id ∈ claims part)
include listed

theorem mem_claims {id : Ident kind} :
    line id ∈ parts.flatMap Part.lines ↔ ∃ part ∈ parts, id ∈ claims part := by
  simp only [List.mem_flatMap,listed]

theorem claims_perm (limit : hw.count kind ≤ 65536) : (parts.flatMap claims).Perm (hw.idents kind) ↔
    (parts.flatMap claims).Nodup ∧ ∀ id, line id ∈ parts.flatMap Part.lines ↔ id.index < hw.count kind := by
  have distinct := (Registry.idents_ascending limit).nodup
  have same (id : Ident kind) : id ∈ parts.flatMap claims ↔ line id ∈ parts.flatMap Part.lines := by
    rw [List.mem_flatMap,mem_claims listed]
  constructor
  · intro order
    refine ⟨order.nodup_iff.mpr distinct,fun id => ?_⟩
    rw [← same,order.mem_iff,Registry.mem_idents limit]
  · intro ⟨apart,known⟩
    refine (List.perm_ext_iff_of_nodup apart distinct).mpr fun id => ?_
    rw [same,known,Registry.mem_idents limit]

theorem free_iff {owners : Ownership}
    (granted : (claimed parts).foldlM (Ownership.claim hw) ⟨∅,∅⟩ = .ok owners) (id : Ident kind) :
    (owners.owner? (line id)).isNone = true ↔ ∀ part ∈ parts, id ∉ claims part := by
  rw [Option.isNone_iff_eq_none,free_of_granted granted,claimed_lines,mem_claims listed]
  simp

end Lines

section Claims
variable {hw : Registry} {parts : List Part}

theorem claims_nodup : (parts.flatMap Part.lines).Nodup ↔
    (parts.flatMap Part.controls).Nodup ∧ (parts.flatMap Part.statuses).Nodup := by
  have order : ((parts.flatMap Part.controls).map Sum.inl ++ (parts.flatMap Part.statuses).map Sum.inr).Perm
      (parts.flatMap Part.lines) := by
    rw [List.map_flatMap,List.map_flatMap]
    exact List.flatMap_append_perm parts _ _
  rw [← order.nodup_iff,List.nodup_append,List.nodup_map_iff Sum.inl_injective,
    List.nodup_map_iff Sum.inr_injective]
  simp

theorem owned_iff (limit : ∀ kind, hw.count kind ≤ 65536) : Owned hw parts ↔
    (parts.flatMap Part.controls).Perm (hw.idents .control) ∧
      (parts.flatMap Part.statuses).Perm (hw.idents .status) := by
  rw [claims_perm (fun _ _ => Part.control_mem_lines) (limit .control),
    claims_perm (fun _ _ => Part.status_mem_lines) (limit .status)]
  constructor
  · intro owned
    obtain ⟨controls,statuses⟩ := claims_nodup.mp owned.apart
    refine ⟨⟨controls,fun control => ⟨owned.declared _,fun small => ?_⟩⟩,
      statuses,fun status => ⟨owned.declared _,fun small => ?_⟩⟩
    · exact owned.controls control ((Registry.mem_idents (limit .control)).mpr small)
    · exact owned.statuses status ((Registry.mem_idents (limit .status)).mpr small)
  · intro ⟨⟨controls,first⟩,statuses,second⟩
    refine ⟨?_,claims_nodup.mpr ⟨controls,statuses⟩,?_,?_⟩
    · rintro (control | status) member
      · exact (first control).mp member
      · exact (second status).mp member
    · intro control member
      exact (first control).mpr ((Registry.mem_idents (limit .control)).mp member)
    · intro status member
      exact (second status).mpr ((Registry.mem_idents (limit .status)).mp member)

theorem refused_iff {claims : List (String × Line)} {error : StructuralError} :
    claims.foldlM (Ownership.claim hw) ⟨∅,∅⟩ = .error error ↔
      ∃ before owner line after, claims = before ++ (owner,line) :: after ∧ SoundClaims hw before ∧
        ((¬hw.Declares line ∧ .undeclared owner line = error) ∨
          ∃ first, (first,line) ∈ before ∧ .ownedTwice hw first owner line = error) := by
  rw [except_foldlM_error_iff]
  constructor
  · rintro ⟨before,⟨owner,line⟩,after,owners,order,granted,refused⟩
    refine ⟨before,owner,line,after,order,granted_iff.mp ⟨owners,granted⟩,?_⟩
    refine (Ownership.claim_error.mp refused).imp_right ?_
    rintro ⟨_,first,taken,told⟩
    exact ⟨first,(owner_of_granted granted).mp taken,told⟩
  · rintro ⟨before,owner,line,after,order,sound,fault⟩
    obtain ⟨owners,granted⟩ := granted_iff.mpr sound
    refine ⟨before,(owner,line),after,owners,order,granted,Ownership.claim_error.mpr ?_⟩
    refine fault.imp_right ?_
    rintro ⟨first,taken,told⟩
    exact ⟨sound.declared line (List.mem_map_of_mem taken),first,(owner_of_granted granted).mpr taken,told⟩

theorem misclaimed {error : StructuralError}
    (refused : (claimed parts).foldlM (Ownership.claim hw) ⟨∅,∅⟩ = .error error) :
    Misowned hw parts error := by
  obtain ⟨before,owner,line,after,order,sound,⟨unknown,rfl⟩ | ⟨first,taken,rfl⟩⟩ := refused_iff.mp refused
  · exact .undeclared order sound unknown
  · obtain ⟨earlier,between,rfl⟩ := List.append_of_mem taken
    exact .ownedTwice order sound

section Unowned
variable {owners : Ownership} (granted : (claimed parts).foldlM (Ownership.claim hw) ⟨∅,∅⟩ = .ok owners)
include granted

theorem control_free_iff (control : ControlId) : (owners.controls.get? control).isNone = true ↔
    ∀ part ∈ parts, control ∉ part.controls :=
  free_iff (fun _ _ => Part.control_mem_lines) granted control

theorem status_free_iff (status : StatusId) : (owners.statuses.get? status).isNone = true ↔
    ∀ part ∈ parts, status ∉ part.statuses :=
  free_iff (fun _ _ => Part.status_mem_lines) granted status

end Unowned

variable (limit : ∀ kind, hw.count kind ≤ 65536) {error : StructuralError}
include limit

theorem misowned_of_error (failed : verifyTopology hw parts = .error error) : Misowned hw parts error := by
  unfold verifyTopology at failed
  rw [claimAll_eq,except_bind_error] at failed
  rcases failed with refused | ⟨owners,granted,missed⟩
  · exact misclaimed refused
  · have sound := granted_iff.mp ⟨owners,granted⟩
    split at missed
    next control found =>
      cases missed
      obtain ⟨declared,free,least⟩ :=
        (Registry.find?_idents (limit .control) (control_free_iff granted)).mp found
      exact .unownedControl sound declared free fun other less => by simpa using least other less
    next complete =>
      split at missed
      next status found =>
        cases missed
        have controls :=
          (Registry.find?_idents_none (limit .control) (control_free_iff granted)).mp complete
        obtain ⟨declared,free,least⟩ :=
          (Registry.find?_idents (limit .status) (status_free_iff granted)).mp found
        exact .unownedStatus sound (fun other small => by simpa using controls other small) declared
          free fun other less => by simpa using least other less
      · cases missed

theorem error_of_misowned (fault : Misowned hw parts error) : verifyTopology hw parts = .error error := by
  unfold verifyTopology
  rw [claimAll_eq,except_bind_error]
  cases fault with
  | undeclared order sound unknown =>
    exact .inl (refused_iff.mpr ⟨_,_,_,_,order,sound,.inl ⟨unknown,rfl⟩⟩)
  | ownedTwice order sound =>
    exact .inl (refused_iff.mpr ⟨_,_,_,_,order,sound,.inr ⟨_,by simp,rfl⟩⟩)
  | unownedControl sound declared free least =>
    obtain ⟨owners,granted⟩ := granted_iff.mpr sound
    have found := (Registry.find?_idents (limit .control) (control_free_iff granted)).mpr
      ⟨declared,free,fun other less => by simpa using least other less⟩
    exact .inr ⟨owners,granted,by rw [found]⟩
  | unownedStatus sound controls declared free least =>
    obtain ⟨owners,granted⟩ := granted_iff.mpr sound
    have complete := (Registry.find?_idents_none (limit .control) (control_free_iff granted)).mpr
      fun other small => by simpa using controls other small
    have found := (Registry.find?_idents (limit .status) (status_free_iff granted)).mpr
      ⟨declared,free,fun other less => by simpa using least other less⟩
    exact .inr ⟨owners,granted,by rw [complete,found]⟩

end Claims

/-- The check of ownership accepts just the parts whose claims are the declared lines in some
order, and tells what is at fault with the others. -/
theorem topology_exact {hw : Registry} (limit : ∀ kind, hw.count kind ≤ 65536) (parts : List Part) :
    (verifyTopology hw parts = .ok () ↔
      (parts.flatMap Part.controls).Perm (hw.idents .control) ∧
        (parts.flatMap Part.statuses).Perm (hw.idents .status)) ∧
    ∀ error, verifyTopology hw parts = .error error ↔ Misowned hw parts error := by
  constructor
  · exact verifyTopology_ok.trans (owned_iff limit)
  · intro error
    exact ⟨misowned_of_error limit,error_of_misowned limit⟩

theorem crashing_topology : (∀ kind, Machine.crashing.hardware.count kind ≤ 65536) ∧
    ((Machine.crashing.parts.flatMap Part.controls).Perm (Machine.crashing.hardware.idents .control) ∧
      (Machine.crashing.parts.flatMap Part.statuses).Perm (Machine.crashing.hardware.idents .status)) ∧
    Misowned Machine.crashing.hardware
      (Machine.crashing.parts ++ [.register ⟨⟨"/b",⟨⟨0⟩,⟨2⟩,⟨3⟩⟩,none,none,none⟩,0⟩])
      (.controlOwnedTwice "/put" "/a" "/b") := by
  have limit (kind : Kind) : Machine.crashing.hardware.count kind ≤ 65536 := by
    cases kind <;> decide
  refine ⟨limit,?_,?_⟩
  · exact (topology_exact limit _).1.mp (by decide +kernel)
  · exact ((topology_exact limit _).2 _).mp (by decide +kernel)

end Microprogram

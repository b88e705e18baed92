import Mathlib.Data.List.Induction
import Mathlib.Data.List.Nodup
import Microprogram.Proofs.Part.Outlets
import Microprogram.Proofs.Sorted.Map

/-! The buses after a write phase. Where each setter has one outlet, the phase succeeds
exactly if every asserted outlet has a value for a declared bus and shares that bus with
no other. The buses then carry these values and nothing else, in whatever order the
outlets were used. -/
namespace Microprogram

/-- The buses carry what the asserted outlets put there, and only that. -/
structure Arbitrated (hw : Registry) (lines : Asserted) (outlets : List Outlet) (driven : Driven) :
    Prop where
  offered : ∀ outlet ∈ outlets, outlet.tap.write ∈ lines → ∃ decl value,
    hw.bus? outlet.tap.bus = some decl ∧ outlet.value = .ok value ∧
      driven.get? outlet.tap.bus = some ⟨decl.fit value,outlet.setter⟩
  held : ∀ bus drive, driven.get? bus = some drive →
    ∃ outlet ∈ outlets, outlet.tap.write ∈ lines ∧ outlet.tap.bus = bus

/-- Every asserted outlet has a value for a declared bus, which it has to itself. -/
structure Compatible (hw : Registry) (lines : Asserted) (outlets : List Outlet) : Prop where
  ready : ∀ outlet ∈ outlets, outlet.tap.write ∈ lines →
    (∃ decl, hw.bus? outlet.tap.bus = some decl) ∧ ∃ value, outlet.value = .ok value
  single : ∀ outlet ∈ outlets, outlet.tap.write ∈ lines → ∀ other ∈ outlets, other.tap.write ∈ lines →
    outlet.tap.bus = other.tap.bus → outlet = other

theorem Outlet.offer_silent {hw : Registry} {lines : Asserted} {outlet : Outlet}
    (silent : outlet.tap.write ∉ lines) (driven : Driven) : outlet.offer hw lines driven = .ok driven := by
  simp [offer,silent]

theorem Outlet.offer_raised {hw : Registry} {lines : Asserted} {outlet : Outlet} {driven after : Driven}
    (raised : outlet.tap.write ∈ lines) : outlet.offer hw lines driven = .ok after ↔
      ∃ decl value, hw.bus? outlet.tap.bus = some decl ∧ outlet.value = .ok value ∧
        (∀ drive, driven.get? outlet.tap.bus = some drive → drive.setter = outlet.setter) ∧
        after = driven.insert outlet.tap.bus ⟨decl.fit value,outlet.setter⟩ := by
  unfold offer
  rw [if_pos ((SortedSet.contains_iff _ _).mpr raised),except_bind_ok]
  refine ⟨?_,?_⟩
  · rintro ⟨value,given,drove⟩
    obtain ⟨⟨decl,held⟩,found,drove⟩ := except_bind_ok.mp drove
    obtain ⟨drive,arbitrated,ended⟩ := except_bind_ok.mp drove
    obtain ⟨other,known,found⟩ := except_bind_ok.mp found
    cases ended
    cases found
    have declared : hw.bus? outlet.tap.bus = some decl := by
      unfold Registry.findBus Registry.bus at known
      cases looked : hw.bus? outlet.tap.bus with
      | none => simp [looked,Registry.known,Except.mapError] at known
      | some other => simpa [looked,Registry.known,Except.mapError] using known
    refine ⟨decl,value,declared,given,?_,?_⟩
    · intro drive holds
      rw [holds,BusDecl.arbitrate] at arbitrated
      split at arbitrated
      · assumption
      · cases arbitrated
    · unfold BusDecl.arbitrate at arbitrated
      split at arbitrated
      · split at arbitrated <;> cases arbitrated
        rfl
      · cases arbitrated
        rfl
  · rintro ⟨decl,value,declared,given,agrees,rfl⟩
    refine ⟨value,given,?_⟩
    simp only [Registry.drive,Registry.busAt,Registry.findBus,Registry.bus,declared,Registry.known,
      Except.mapError,except_ok_bind,pure_bind]
    unfold BusDecl.arbitrate
    split
    next drive holds =>
      rw [if_pos (agrees drive holds)]
      rfl
    next => rfl

theorem Registry.sense_ok {hw : Registry} {bus : BusId} {reader : String} {driven : Driven}
    {value : UInt16} : hw.sense bus reader driven = .ok value ↔
      ∃ decl drive, hw.bus? bus = some decl ∧ driven.get? bus = some drive ∧ drive.value = value := by
  unfold sense busAt findBus Registry.bus
  cases known : hw.bus? bus with
  | none => simp [Registry.known,Except.mapError,bind,Except.bind]
  | some decl =>
    simp only [Registry.known,Except.mapError,except_ok_bind,pure_bind]
    cases driven.get? bus with
    | none => simp
    | some drive => simp [pure,Except.pure]

section Settling
variable {hw : Registry} {lines : Asserted} {outlets : List Outlet} {driven : Driven}

namespace Arbitrated

theorem skip (settled : Arbitrated hw lines outlets driven) {outlet : Outlet}
    (silent : outlet.tap.write ∉ lines) : Arbitrated hw lines (outlets ++ [outlet]) driven := by
  refine ⟨?_,?_⟩
  · intro offering member raised
    rcases List.mem_append.mp member with inside | last
    · exact settled.offered offering inside raised
    · rw [List.mem_singleton.mp last] at raised
      exact absurd raised silent
  · intro bus drive found
    obtain ⟨earlier,inside,facts⟩ := settled.held bus drive found
    exact ⟨earlier,List.mem_append_left _ inside,facts⟩

theorem add (settled : Arbitrated hw lines outlets driven) {outlet : Outlet}
    (raised : outlet.tap.write ∈ lines) (opened : driven.get? outlet.tap.bus = none)
    {decl : BusDecl} (declared : hw.bus? outlet.tap.bus = some decl) {value : UInt16}
    (given : outlet.value = .ok value) : Arbitrated hw lines (outlets ++ [outlet])
      (driven.insert outlet.tap.bus ⟨decl.fit value,outlet.setter⟩) := by
  refine ⟨?_,?_⟩
  · intro offering member asserted
    rcases List.mem_append.mp member with inside | last
    · obtain ⟨other,byte,found,offers,held⟩ := settled.offered offering inside asserted
      refine ⟨other,byte,found,offers,?_⟩
      rw [SortedMap.get?_insert_of_ne _ _ _ _ ?_,held]
      intro same
      rw [same,opened] at held
      contradiction
    · rw [List.mem_singleton.mp last]
      exact ⟨decl,value,declared,given,SortedMap.get?_insert_self _ _ _⟩
  · intro bus drive found
    by_cases same : bus = outlet.tap.bus
    · exact ⟨outlet,by simp,raised,same.symm⟩
    · rw [SortedMap.get?_insert_of_ne _ _ _ _ same] at found
      obtain ⟨earlier,inside,facts⟩ := settled.held bus drive found
      exact ⟨earlier,List.mem_append_left _ inside,facts⟩

theorem unique {after : Driven} (settled : Arbitrated hw lines outlets driven)
    (also : Arbitrated hw lines outlets after) : driven = after := by
  refine SortedMap.ext_get fun bus => Option.ext fun drive => ?_
  have carried {first second : Driven} (one : Arbitrated hw lines outlets first)
      (two : Arbitrated hw lines outlets second) (found : first.get? bus = some drive) :
      second.get? bus = some drive := by
    obtain ⟨outlet,member,raised,rfl⟩ := one.held bus drive found
    obtain ⟨decl,value,declared,given,held⟩ := one.offered outlet member raised
    obtain ⟨other,byte,known,offers,carries⟩ := two.offered outlet member raised
    rw [declared,Option.some.injEq] at known
    rw [given,Except.ok.injEq] at offers
    subst known offers
    rw [carries,← held,found]
  exact ⟨carried settled also,carried also settled⟩

theorem perm {others : List Outlet} (settled : Arbitrated hw lines outlets driven)
    (order : outlets.Perm others) : Arbitrated hw lines others driven := by
  refine ⟨fun outlet member => settled.offered outlet (order.mem_iff.mpr member),?_⟩
  intro bus drive found
  obtain ⟨outlet,member,facts⟩ := settled.held bus drive found
  exact ⟨outlet,order.mem_iff.mp member,facts⟩

theorem compatible (settled : Arbitrated hw lines outlets driven)
    (apart : (outlets.map Outlet.setter).Nodup) : Compatible hw lines outlets := by
  refine ⟨?_,?_⟩
  · intro outlet member raised
    obtain ⟨decl,value,declared,given,_⟩ := settled.offered outlet member raised
    exact ⟨⟨decl,declared⟩,value,given⟩
  · intro outlet member raised other inside asserted same
    obtain ⟨_,_,_,_,held⟩ := settled.offered outlet member raised
    obtain ⟨_,_,_,_,also⟩ := settled.offered other inside asserted
    rw [← same,held,Option.some.injEq,Drive.mk.injEq] at also
    exact List.inj_on_of_nodup_map apart member inside also.2

end Arbitrated

private theorem offers_snoc (outlets : List Outlet) (outlet : Outlet) (driven : Driven) :
    (outlets ++ [outlet]).foldlM (Outlet.offer hw lines) driven =
      outlets.foldlM (Outlet.offer hw lines) driven >>= outlet.offer hw lines := by
  rw [List.foldlM_append]
  exact bind_congr fun reached => bind_pure _

theorem offers_arbitrated (apart : (outlets.map Outlet.setter).Nodup)
    (offers : outlets.foldlM (Outlet.offer hw lines) ∅ = .ok driven) :
    Arbitrated hw lines outlets driven := by
  induction outlets using List.reverseRecOn generalizing driven with
  | nil =>
    cases offers
    exact ⟨by simp,by simp⟩
  | append_singleton outlets outlet ih =>
    rw [List.map_append,List.nodup_append] at apart
    rw [offers_snoc,except_bind_ok] at offers
    obtain ⟨before,earlier,last⟩ := offers
    have settled := ih apart.1 earlier
    by_cases raised : outlet.tap.write ∈ lines
    · obtain ⟨decl,value,declared,given,agrees,rfl⟩ := (Outlet.offer_raised raised).mp last
      refine settled.add raised ?_ declared given
      rw [← Option.not_isSome_iff_eq_none,Option.isSome_iff_exists]
      -- A bus held by the same setter would be held by another of its outlets.
      rintro ⟨drive,held⟩
      obtain ⟨other,member,asserted,same⟩ := settled.held _ drive held
      obtain ⟨_,_,_,_,carried⟩ := settled.offered other member asserted
      rw [same] at carried
      exact apart.2.2 other.setter (List.mem_map_of_mem member) outlet.setter (by simp)
        (agrees _ carried)
    · rw [Outlet.offer_silent raised] at last
      cases last
      exact settled.skip raised

theorem Compatible.offers (compatible : Compatible hw lines outlets)
    (apart : (outlets.map Outlet.setter).Nodup) :
    ∃ driven, outlets.foldlM (Outlet.offer hw lines) ∅ = .ok driven := by
  induction outlets using List.reverseRecOn with
  | nil => exact ⟨∅,rfl⟩
  | append_singleton outlets outlet ih =>
    rw [List.map_append,List.nodup_append] at apart
    have inside {earlier : Outlet} (member : earlier ∈ outlets) : earlier ∈ outlets ++ [outlet] :=
      List.mem_append_left _ member
    have listed : outlet ∈ outlets ++ [outlet] := by simp
    obtain ⟨before,earlier⟩ := ih ⟨fun other member => compatible.ready other (inside member),
      fun other member raised also known asserted =>
        compatible.single other (inside member) raised also (inside known) asserted⟩ apart.1
    rw [offers_snoc,earlier,except_ok_bind]
    by_cases raised : outlet.tap.write ∈ lines
    · obtain ⟨⟨decl,declared⟩,value,given⟩ := compatible.ready outlet listed raised
      refine ⟨_,(Outlet.offer_raised raised).mpr ⟨decl,value,declared,given,?_,rfl⟩⟩
      intro drive held
      obtain ⟨other,member,asserted,same⟩ := (offers_arbitrated apart.1 earlier).held _ drive held
      rw [compatible.single other (inside member) asserted outlet listed raised same] at member
      exact absurd rfl (apart.2.2 outlet.setter (List.mem_map_of_mem member) outlet.setter (by simp))
    · exact ⟨before,Outlet.offer_silent raised before⟩

theorem offers_perm {others : List Outlet} (order : outlets.Perm others)
    (apart : (outlets.map Outlet.setter).Nodup) :
    outlets.foldlM (Outlet.offer hw lines) ∅ = .ok driven ↔
      others.foldlM (Outlet.offer hw lines) ∅ = .ok driven := by
  have moved {first second : List Outlet} (order : first.Perm second)
      (apart : (first.map Outlet.setter).Nodup)
      (offers : first.foldlM (Outlet.offer hw lines) ∅ = .ok driven) :
      second.foldlM (Outlet.offer hw lines) ∅ = .ok driven := by
    have settled := (offers_arbitrated apart offers).perm order
    have distinct := (order.map Outlet.setter).nodup_iff.mp apart
    obtain ⟨after,reached⟩ := (settled.compatible distinct).offers distinct
    rw [reached,settled.unique (offers_arbitrated distinct reached)]
  exact ⟨moved order apart,moved order.symm ((order.map Outlet.setter).nodup_iff.mp apart)⟩

end Settling
end Microprogram

import Microprogram.Proofs.Computer.Edits
import Microprogram.Proofs.Computer.InstructionSet
import Microprogram.Proofs.Microcode.Dispatch

/-! What the recipes achieve. Carried out behind the fetch stage, the edits of each recipe
have the effect that its mnemonic means. -/
namespace Microprogram
open Computer

namespace ByteRegister

def port : ByteRegister → Port
  | a => .a
  | x => .x
  | y => .y

def lines (hw : Layout) : ByteRegister → RegisterLines
  | a => hw.a
  | x => hw.x
  | y => hw.y

theorem tap_lines (hw : Layout) (register : ByteRegister) :
    (register.lines hw).tap = register.port.tap hw := by
  cases register <;> rfl

theorem data_bus (register : ByteRegister) :
    (register.port.tap Layout.standard).bus = Layout.standard.dataBus := by cases register <;> rfl

def put (value : UInt8) (s : Contents) : ByteRegister → Contents
  | a => { s with a := value }
  | x => { s with x := value }
  | y => { s with y := value }

theorem store_port (register : ByteRegister) (value : UInt8) (s : Contents) :
    register.port.store Layout.standard value.toUInt16 s = .ok (register.put value s) := by
  cases register <;> simp [port,Port.store,put]

theorem offered_port (register : ByteRegister) (s : Contents) :
    register.port.offered s = .ok ((s.view Layout.standard).get register).toUInt16 := by
  cases register <;> rfl

theorem view_put (register : ByteRegister) (value : UInt8) (s : Contents) :
    (register.put value s).view Layout.standard = (s.view Layout.standard).set value register := by
  cases register <;> rfl

end ByteRegister

theorem View.pc_none (v : View) : { v with pc := v.pc + UInt16.ofNat Mode.none.operandLength } = v :=
  congrArg (fun pc => { v with pc }) (UInt16.add_zero v.pc)

namespace Contents
variable {s : Contents}

namespace Shown
variable (shown : s.Shown Layout.standard)
include shown

theorem carry : s.lines.contains Layout.standard.statusRegister.flags.carry =
    (s.view Layout.standard).carry :=
  Bool.eq_iff_iff.mpr ((SortedSet.contains_iff _ _).trans
    (shown (_,(s.statusUnit Layout.standard).carry) (.head _)))

theorem zero : s.lines.contains Layout.standard.statusRegister.flags.zero =
    (s.view Layout.standard).zero :=
  Bool.eq_iff_iff.mpr ((SortedSet.contains_iff _ _).trans
    (shown (_,(s.statusUnit Layout.standard).zero) (.tail _ (.head _))))

end Shown

theorem contains_apart {writes : Staged} {status : StatusId} (apart : status ∉ writes.map Prod.fst)
    (lines : SortedSet StatusId) : (postAll writes lines).contains status = lines.contains status :=
  SortedSet.contains_congr (mem_postAll_apart
    (fun write member same => apart (List.mem_map.mpr ⟨write,member,same⟩)) lines)

private theorem halted_apart : Layout.standard.root.halted ∉ Layout.standard.statusRegister.flags.all ∧
    Layout.standard.root.halted ∉ Layout.standard.alu.flags.all := by decide

theorem perform_aluOperation (op : Alu.Op) (s : Contents) :
    let out := Alu.compute op s.lhs s.rhs (s.lines.contains Layout.standard.statusRegister.flags.carry)
    ∃ lines, s.perform (aluOperation Layout.standard op) =
        .ok { s with result := out.value, status := out.flagByte, lines } ∧
      lines.contains Layout.standard.root.halted = s.lines.contains Layout.standard.root.halted := by
  intro out
  let reports := (s.aluUnit Layout.standard).reports out
  let status := (s.statusUnit Layout.standard).latched (postAll reports s.lines)
  have reported : ∀ write ∈ reports, (postAll reports s.lines).contains write.1 = write.2 := by
    intro write member
    have apart : (reports.map Prod.fst).Nodup := by
      change Layout.standard.alu.flags.all.Nodup
      decide
    exact Bool.eq_iff_iff.mpr ((SortedSet.contains_iff _ _).trans (mem_postAll_of_mem apart member _))
  have latches : status = out.flagByte := by
    have bit {flag : StatusId} {value : Bool} (same : (postAll reports s.lines).contains flag = value)
        (mask : UInt8) : (if (postAll reports s.lines).contains flag then mask else 0) =
          if value then mask else 0 := by rw [same]
    have carry := bit (reported (_,out.carry) (.head _)) StatusRegister.carryBit
    have zero := bit (reported (_,out.zero) (.tail _ (.head _))) StatusRegister.zeroBit
    have negative := bit (reported (_,out.negative) (.tail _ (.tail _ (.head _))))
      StatusRegister.negativeBit
    have overflow := bit (reported (_,out.overflow) (.tail _ (.tail _ (.tail _ (.head _)))))
      StatusRegister.overflowBit
    have join {a b c d : UInt8} (left : a = b) (right : c = d) : a ||| c = b ||| d := by
      rw [left,right]
    exact join (join (join carry zero) negative) overflow
  refine ⟨postAll (s.shows Layout.standard status) (postAll reports s.lines),?_,?_⟩
  · rw [← latches]
    cases op <;> rfl
  · rw [contains_apart halted_apart.1,contains_apart halted_apart.2]

def withStatus (value : UInt8) (s : Contents) : Contents :=
  { s with status := value, lines := postAll (s.shows Layout.standard value) s.lines }

theorem view_withStatus (value : UInt8) (s : Contents) :
    (s.withStatus value).view Layout.standard = { s.view Layout.standard with status := value } :=
  congrArg (fun halted => { s.view Layout.standard with status := value, halted })
    (contains_apart halted_apart.1 s.lines)

theorem perform_setCarry (s : Contents) :
    s.perform [.raise Layout.standard.statusRegister.setCarry] = .ok (s.withStatus (s.status ||| 0x01)) :=
  rfl

theorem perform_clearCarry (s : Contents) :
    s.perform [.raise Layout.standard.statusRegister.clearCarry] =
      .ok (s.withStatus (s.status &&& 0xfe)) := rfl

theorem withStatus_carry (s : Contents) :
    (s.withStatus (s.status ||| 0x01)).lines.contains Layout.standard.statusRegister.flags.carry = true := by
  have apart : ((s.shows Layout.standard (s.status ||| 0x01)).map Prod.fst).Nodup := by
    change Layout.standard.statusRegister.flags.all.Nodup
    decide
  have set : (s.status ||| 0x01) &&& 0x01 = 0x01 := by
    rw [← UInt8.toBitVec_inj]
    simp only [UInt8.toBitVec_and,UInt8.toBitVec_or]
    ext place bound
    simp +contextual
  rw [SortedSet.contains_iff]
  refine (mem_postAll_of_mem apart (.head _) s.lines).mpr ?_
  change ((s.status ||| 0x01) &&& 0x01 != 0) = true
  rw [set]
  rfl

theorem perform_difference (s : Contents) :
    (s.perform ([.raise Layout.standard.statusRegister.setCarry] ++
      aluOperation Layout.standard .subtract)).map (view Layout.standard) =
      .ok { s.view Layout.standard with status := (Alu.compute .subtract s.lhs s.rhs true).flagByte } := by
  obtain ⟨lines,operates,halted⟩ := perform_aluOperation .subtract (s.withStatus (s.status ||| 0x01))
  have apart : (s.withStatus (s.status ||| 0x01)).lines.contains Layout.standard.root.halted = _ :=
    contains_apart halted_apart.1 s.lines
  rw [withStatus_carry] at operates
  rw [perform_append,perform_setCarry,except_ok_bind,operates]
  simp only [Except.map,view,halted,apart]
  rfl

theorem perform_combine (op : Alu.Op) (shown : s.Shown Layout.standard) :
    let out := Alu.compute op s.a s.rhs (s.view Layout.standard).carry
    (s.perform (combine Layout.standard op)).map (view Layout.standard) =
      .ok { s.view Layout.standard with a := out.value, status := out.flagByte } := by
  have moves : s.perform [.copy Layout.standard.a.tap Layout.standard.alu.lhs.tap] =
      .ok { s with lhs := s.a.toUInt16.toUInt8 } := perform_copy .a .lhs rfl s
  have returns (t : Contents) : t.perform [.copy Layout.standard.alu.result.tap Layout.standard.a.tap] =
      .ok { t with a := t.result.toUInt16.toUInt8 } := perform_copy .result .a rfl t
  obtain ⟨lines,operates,halted⟩ := perform_aluOperation op { s with lhs := s.a }
  dsimp only at operates halted
  rw [shown.carry] at operates
  unfold combine
  rw [perform_append,perform_append,moves,UInt8.toUInt8_toUInt16,except_ok_bind,operates,except_ok_bind,
    returns,UInt8.toUInt8_toUInt16]
  simp only [Except.map,view,halted]

end Contents

namespace Computer.Recipe
open Contents

/-- Carried out behind the fetch stage, where its guard holds, a recipe has the effect of
a meaning. -/
def Achieves (recipe : Recipe) (meaning : Meaning) : Prop :=
  ∀ (config : Config) (d : Descriptor) (s : Contents), s.Shown Layout.standard →
    config.Places s.regions →
    (Draft.ofEdits d (fetch Layout.standard ++ recipe.edits)).guard.holds s.lines.contains = true →
    meaning.Accesses config recipe.mode (s.view Layout.standard) →
      (s.perform recipe.edits).map (view Layout.standard) =
        meaning.effect recipe.mode (s.view Layout.standard)

/-- A recipe achieves what its mnemonic means. -/
def Faithful (recipe : Recipe) : Prop :=
  ∃ meaning, Meaning.ofName recipe.name = some meaning ∧
    (meaning.usesAddress = true → recipe.mode = .absolute) ∧ recipe.Achieves meaning

section Families
variable (name : String) (register : ByteRegister) (op : Alu.Op)

theorem load_immediate : Achieves
    ⟨name,.immediate,readMemoryAtPc Layout.standard (register.lines Layout.standard).tap⟩
    (.load register) := by
  intro config d s _ _ _ _
  dsimp only
  rw [register.tap_lines,perform_readMemoryAtPc register.port register.data_bus.symm]
  change (s.byteAt s.pc >>= _).map _ = s.byteAt s.pc >>= _
  rcases s.byteAt s.pc with fault | value
  · rfl
  · rw [except_ok_bind,except_ok_bind,register.store_port]
    cases register <;> rfl

theorem load_absolute : Achieves
    ⟨name,.absolute,indirectRead Layout.standard (register.lines Layout.standard).tap⟩
    (.load register) := by
  intro config d s _ _ _ _
  dsimp only
  rw [register.tap_lines,perform_indirectRead register.port register.data_bus.symm]
  change (s.wordAt s.pc >>= fun word => s.byteAt word >>= _).map _ =
    (s.wordAt s.pc >>= s.byteAt) >>= _
  rcases s.wordAt s.pc with fault | word
  · rfl
  rw [except_ok_bind,except_ok_bind]
  rcases s.byteAt word with fault | value
  · rfl
  · rw [except_ok_bind,except_ok_bind,register.store_port]
    cases register <;> rfl

theorem store_absolute : Achieves
    ⟨name,.absolute,indirectWrite Layout.standard (register.lines Layout.standard).tap⟩
    (.store register) := by
  intro config d s _ places _ accesses
  dsimp only
  rw [register.tap_lines,perform_indirectWrite register.port register.data_bus]
  change (s.wordAt s.pc >>= _).map _ = s.wordAt s.pc >>= _
  cases reads : s.wordAt s.pc with
  | error fault => rfl
  | ok word =>
    have offers : register.port.offered { s.pastWord word with address := word } =
        .ok ((s.view Layout.standard).get register).toUInt16 := register.offered_port _
    obtain ⟨after,wrote⟩ := places.writes (accesses.stores register rfl word reads)
      ((s.view Layout.standard).get register)
    have memory : MemoryMap.read after = _ := MemoryMap.read_write wrote
    rw [except_ok_bind,except_ok_bind,offers,except_ok_bind]
    change ((((MemoryMap.write s.regions word _).mapError Fault.memory).map _).map _) = _
    rw [UInt8.toUInt8_toUInt16,wrote]
    simp only [Except.mapError,Except.map,view,memory]
    rfl

theorem transfer_achieves (src dst : ByteRegister) : Achieves
    (transfer name (src.lines Layout.standard) (dst.lines Layout.standard)) (.transfer src dst) := by
  intro config d s _ _ _ _
  unfold transfer
  dsimp only
  rw [src.tap_lines,dst.tap_lines,perform_copy src.port dst.port (src.data_bus.trans dst.data_bus.symm),src.offered_port,
    except_ok_bind,dst.store_port]
  cases dst <;> exact congrArg Except.ok (View.pc_none _).symm

theorem binary_immediate : Achieves
    ⟨name,.immediate,readMemoryAtPc Layout.standard Layout.standard.alu.rhs.tap ++
      combine Layout.standard op⟩ (.compute op) := by
  intro config d s shown _ _ _
  dsimp only
  rw [perform_append,show s.perform (readMemoryAtPc Layout.standard Layout.standard.alu.rhs.tap) = _
    from perform_readMemoryAtPc .rhs rfl s]
  change ((s.byteAt s.pc >>= _) >>= _).map _ = s.byteAt s.pc >>= _
  rcases s.byteAt s.pc with fault | operand
  · rfl
  · simp only [except_ok_bind,Port.store,UInt8.toUInt8_toUInt16,pure_bind]
    exact perform_combine op (s := { s with address := s.pc, rhs := operand, pc := s.pc + 1 }) shown

theorem binary_absolute : Achieves
    ⟨name,.absolute,indirectRead Layout.standard Layout.standard.alu.rhs.tap ++
      combine Layout.standard op⟩ (.compute op) := by
  intro config d s shown _ _ _
  dsimp only
  rw [perform_append,show s.perform (indirectRead Layout.standard Layout.standard.alu.rhs.tap) = _
    from perform_indirectRead .rhs rfl s]
  change ((s.wordAt s.pc >>= fun word => s.byteAt word >>= _) >>= _).map _ =
    (s.wordAt s.pc >>= s.byteAt) >>= _
  rcases s.wordAt s.pc with fault | word
  · rfl
  rw [except_ok_bind,except_ok_bind]
  rcases s.byteAt word with fault | operand
  · rfl
  · simp only [except_ok_bind,Port.store,UInt8.toUInt8_toUInt16]
    exact perform_combine op (s := { s.pastWord word with address := word, rhs := operand }) shown

theorem shift_achieves
    (unary : ∀ lhs rhs carry, Alu.compute op lhs rhs carry = Alu.compute op lhs 0 carry) :
    (shift Layout.standard name op).Achieves (.compute op) := by
  intro config d s shown _ _ _
  refine (perform_combine op shown).trans ?_
  rw [unary]
  exact congrArg Except.ok (View.pc_none _).symm

theorem compare_achieves : (compare Layout.standard).Achieves .compare := by
  intro config d s shown _ _ _
  have moves : s.perform [.copy Layout.standard.a.tap Layout.standard.alu.lhs.tap] =
      .ok { s with lhs := s.a.toUInt16.toUInt8 } := perform_copy .a .lhs rfl s
  have reads (t : Contents) :
      t.perform (readMemoryAtPc Layout.standard Layout.standard.alu.rhs.tap) = _ :=
    perform_readMemoryAtPc .rhs rfl t
  unfold compare
  dsimp only
  rw [List.append_assoc,perform_append,perform_append,moves,UInt8.toUInt8_toUInt16,except_ok_bind,reads]
  change ((s.byteAt s.pc >>= _) >>= _).map _ = s.byteAt s.pc >>= _
  rcases s.byteAt s.pc with fault | operand
  · rfl
  · simp only [except_ok_bind,Port.store,UInt8.toUInt8_toUInt16,pure_bind]
    exact perform_difference { s with lhs := s.a, address := s.pc, rhs := operand, pc := s.pc + 1 }

theorem setCarry_achieves : Achieves
    ⟨name,.none,[.raise Layout.standard.statusRegister.setCarry]⟩ .setCarry := by
  intro config d s _ _ _ _
  dsimp only
  rw [perform_setCarry]
  change Except.ok _ = Except.ok _
  rw [view_withStatus,View.pc_none]
  rfl

theorem clearCarry_achieves : Achieves
    ⟨name,.none,[.raise Layout.standard.statusRegister.clearCarry]⟩ .clearCarry := by
  intro config d s _ _ _ _
  dsimp only
  rw [perform_clearCarry]
  change Except.ok _ = Except.ok _
  rw [view_withStatus,View.pc_none]
  rfl

theorem count_achieves (control : ControlId) (change : UInt8 → UInt8) {meaning : Meaning}
    (counts : ∀ s : Contents, s.perform [.raise control] =
      .ok (register.put (change ((s.view Layout.standard).get register)) s))
    (means : ∀ v, meaning.effect .none v =
      .ok ({ v with pc := v.pc + UInt16.ofNat Mode.none.operandLength }.set
        (change (v.get register)) register)) :
    (count name (some control)).Achieves meaning := by
  intro config d s _ _ _ _
  refine (congrArg (Except.map (view Layout.standard)) (counts s)).trans ?_
  refine Eq.trans ?_ (means (s.view Layout.standard)).symm
  rw [View.pc_none]
  exact congrArg Except.ok (register.view_put _ s)

theorem halt_achieves : Achieves ⟨name,.none,[.raise Layout.standard.root.halt]⟩ .halt := by
  intro config d s _ _ _ _
  have halts : (s.lines.insert Layout.standard.root.halted).contains Layout.standard.root.halted = true :=
    (SortedSet.contains_iff _ _).mpr ((SortedSet.mem_insert _ _ _).mpr (.inl rfl))
  change Except.ok _ = Except.ok _
  rw [View.pc_none]
  exact congrArg (fun halted => Except.ok { s.view Layout.standard with halted }) halts

theorem idle_achieves : Achieves ⟨name,.none,[.step [] []]⟩ .idle := by
  intro config d s _ _ _ _
  exact congrArg Except.ok (View.pc_none _).symm

theorem crash_achieves : Achieves ⟨name,.none,[.raise Layout.standard.root.crash]⟩ .crash :=
  fun _ _ _ _ _ _ _ => rfl

theorem perform_jump (s : Contents) :
    (s.perform (readWordAtPc Layout.standard Layout.standard.pc.tap)).map (view Layout.standard) =
      s.wordAt s.pc >>= fun address => pure { s.view Layout.standard with pc := address } := by
  rw [show s.perform (readWordAtPc Layout.standard Layout.standard.pc.tap) = _
    from perform_readWordAtPc .pc rfl s]
  rcases s.wordAt s.pc with fault | word <;> rfl

theorem jump_achieves : Achieves
    ⟨name,.absolute,readWordAtPc Layout.standard Layout.standard.pc.tap⟩ .jump :=
  fun _ _ s _ _ _ _ => perform_jump s

theorem branch_guard {s : Contents} {value : Bool} (shown : s.Shown Layout.standard)
    (holds : Guard.holds ((∅ : Guard).insert Layout.standard.statusRegister.flags.zero value)
      s.lines.contains = true) : (s.view Layout.standard).zero = value := by
  rw [← shown.zero]
  exact Guard.holds_iff.mp holds _ _ (SortedMap.get?_insert_self _ _ _)

theorem branch_achieves (taken : Bool) :
    ∀ recipe ∈ branch Layout.standard name Layout.standard.statusRegister.flags.zero taken,
      recipe.Achieves (.branch taken) := by
  unfold branch
  refine List.forall_mem_cons.mpr ⟨?_,List.forall_mem_singleton.mpr ?_⟩
  · intro config d s shown _ holds _
    have skips : (s.view Layout.standard).zero = !taken := branch_guard shown holds
    have stays : ¬(s.view Layout.standard).zero = taken := by
      rw [skips]
      simp
    refine Eq.trans ?_ (if_neg stays).symm
    exact congrArg (fun pc => Except.ok { s.view Layout.standard with pc }) (UInt16.add_assoc s.pc 1 1)
  · intro config d s shown _ holds _
    have takes : (s.view Layout.standard).zero = taken := branch_guard shown holds
    exact (perform_jump s).trans (if_pos takes).symm

end Families

theorem faithful_of_achieves {recipe : Recipe} {meaning : Meaning}
    (named : Meaning.ofName recipe.name = some meaning) (aside : meaning.usesAddress = false)
    (achieves : recipe.Achieves meaning) : recipe.Faithful :=
  ⟨meaning,named,fun uses => absurd (aside.symm.trans uses) (by decide),achieves⟩

theorem loadStore_faithful (register : ByteRegister) {name : String}
    (load : Meaning.ofName ("ld" ++ name) = some (.load register))
    (store : Meaning.ofName ("st" ++ name) = some (.store register)) :
    ∀ recipe ∈ loadStore Layout.standard name (register.lines Layout.standard), recipe.Faithful :=
  List.forall_mem_cons.mpr ⟨faithful_of_achieves load rfl (load_immediate _ register),
    List.forall_mem_cons.mpr ⟨faithful_of_achieves load rfl (load_absolute _ register),
      List.forall_mem_singleton.mpr ⟨_,store,fun _ => rfl,store_absolute _ register⟩⟩⟩

theorem binary_faithful (op : Alu.Op) {name : String}
    (named : Meaning.ofName name = some (.compute op)) :
    ∀ recipe ∈ binary Layout.standard name op, recipe.Faithful :=
  List.forall_mem_cons.mpr ⟨faithful_of_achieves named rfl (binary_immediate _ op),
    List.forall_mem_singleton.mpr (faithful_of_achieves named rfl (binary_absolute _ op))⟩

theorem branch_faithful (taken : Bool) {name : String}
    (named : Meaning.ofName name = some (.branch taken)) :
    ∀ recipe ∈ branch Layout.standard name Layout.standard.statusRegister.flags.zero taken,
      recipe.Faithful := by
  intro recipe member
  have achieves := branch_achieves name taken recipe member
  rcases List.mem_pair.mp member with rfl | rfl <;> exact ⟨_,named,fun _ => rfl,achieves⟩

/-- Every recipe achieves what its mnemonic means. -/
theorem recipes_faithful : ∀ recipe ∈ recipes Layout.standard, recipe.Faithful := by
  have counts (register : ByteRegister) {name : String} {meaning : Meaning} (control : ControlId)
      (change : UInt8 → UInt8) (named : Meaning.ofName name = some meaning)
      (aside : meaning.usesAddress = false) (performs) (means) :
      (count name (some control)).Faithful :=
    faithful_of_achieves named aside (count_achieves name register control change performs means)
  unfold recipes
  simp only [List.forall_mem_append,List.forall_mem_cons,and_assoc]
  exact ⟨faithful_of_achieves rfl rfl (halt_achieves _),faithful_of_achieves rfl rfl (idle_achieves _),
    faithful_of_achieves rfl rfl (crash_achieves _),List.forall_mem_nil _,
    loadStore_faithful .a rfl rfl,loadStore_faithful .x rfl rfl,loadStore_faithful .y rfl rfl,
    faithful_of_achieves rfl rfl (transfer_achieves _ .a .x),
    faithful_of_achieves rfl rfl (transfer_achieves _ .x .a),
    faithful_of_achieves rfl rfl (transfer_achieves _ .a .y),
    faithful_of_achieves rfl rfl (transfer_achieves _ .y .a),List.forall_mem_nil _,
    counts .x _ (· + 1) rfl rfl (fun _ => rfl) fun _ => rfl,
    counts .x _ (· - 1) rfl rfl (fun _ => rfl) fun _ => rfl,
    counts .y _ (· + 1) rfl rfl (fun _ => rfl) fun _ => rfl,
    counts .y _ (· - 1) rfl rfl (fun _ => rfl) fun _ => rfl,List.forall_mem_nil _,
    binary_faithful .add rfl,binary_faithful .subtract rfl,binary_faithful .and rfl,
    binary_faithful .or rfl,binary_faithful .xor rfl,
    faithful_of_achieves rfl rfl compare_achieves,List.forall_mem_nil _,
    faithful_of_achieves rfl rfl (shift_achieves _ .shiftLeft fun _ _ _ => rfl),
    faithful_of_achieves rfl rfl (shift_achieves _ .shiftRight fun _ _ _ => rfl),
    faithful_of_achieves rfl rfl (shift_achieves _ .rotateLeft fun _ _ _ => rfl),
    faithful_of_achieves rfl rfl (shift_achieves _ .rotateRight fun _ _ _ => rfl),List.forall_mem_nil _,
    ⟨_,rfl,fun _ => rfl,jump_achieves _⟩,List.forall_mem_nil _,
    branch_faithful true rfl,branch_faithful false rfl,
    faithful_of_achieves rfl rfl (setCarry_achieves _),
    faithful_of_achieves rfl rfl (clearCarry_achieves _),List.forall_mem_nil _⟩

end Computer.Recipe
end Microprogram

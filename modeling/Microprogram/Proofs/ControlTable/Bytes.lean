import Microprogram.ControlTable.Bytes
import Microprogram.Proofs.Text.Utf8

/-! Decoders that read back what was encoded. Such a decoder gives the value and leaves the
bytes behind it, and whatever it accepts, encoding the value takes no more bytes than were
read. Both pass from the parts of a format to the whole. -/
namespace Microprogram.Bytes

/-- A decoder reads back the values that fit, and gives no others. -/
structure Faithful {α : Type} (fits : α → Prop) (encode : α → List UInt8) (decode : Decoder α) :
    Prop where
  whole : ∀ a rest, fits a → decode (encode a ++ rest) = .ok (a,rest)
  shrinks : ∀ bytes a rest, decode bytes = .ok (a,rest) →
    fits a ∧ (encode a).length + rest.length ≤ bytes.length

theorem length_encodeNat (width n : Nat) : (encodeNat width n).length = width := by
  induction width generalizing n with
  | zero => rfl
  | succ width ih => exact congrArg (· + 1) (ih (n / 256))

theorem nat_faithful (width : Nat) :
    Faithful (· < 256 ^ width) (encodeNat width) (decodeNat width) := by
  constructor
  · intro n rest fits
    induction width generalizing n with
    | zero =>
      have zero : n = 0 := by simpa using fits
      rw [zero]
      rfl
    | succ width ih =>
      rw [Nat.pow_succ] at fits
      rw [encodeNat,List.cons_append,decodeNat,ih (n / 256) (by omega)]
      simp only [Except.map,UInt8.toNat_ofNat']
      congr 2
      omega
  · intro bytes n rest decoded
    rw [length_encodeNat]
    induction width generalizing bytes n with
    | zero =>
      cases decoded
      simp
    | succ width ih =>
      cases bytes with
      | nil => cases decoded
      | cons b bytes =>
        obtain ⟨⟨m,left⟩,before,ended⟩ := except_map_ok.mp decoded
        cases ended
        obtain ⟨bound,shorter⟩ := ih bytes m before
        have byte := b.toNat_lt
        rw [Nat.pow_succ,List.length_cons]
        omega

theorem byte_faithful : Faithful (fun _ => True) encodeByte decodeByte := by
  refine ⟨fun b rest _ => rfl,fun bytes b rest decoded => ⟨trivial,?_⟩⟩
  cases bytes with
  | nil => cases decoded
  | cons first bytes =>
    cases decoded
    simp [encodeByte,Nat.add_comm]

theorem bool_faithful : Faithful (fun _ => True) encodeBool decodeBool := by
  refine ⟨fun b rest _ => by cases b <;> rfl,fun bytes b rest decoded => ⟨trivial,?_⟩⟩
  cases bytes with
  | nil => cases decoded
  | cons first bytes =>
    have left : bytes = rest := by
      rw [decodeBool] at decoded
      split at decoded
      · cases decoded
        rfl
      split at decoded
      · cases decoded
        rfl
      · cases decoded
    simp [left,encodeBool,Nat.add_comm]

/-- A length of 64 bits can say how many bytes the text takes. -/
def TextFits (text : String) : Prop := (Text.Utf8.encode text.toList).length < 2 ^ 64

theorem string_faithful : Faithful TextFits encodeString decodeString := by
  constructor
  · intro text rest fits
    have decoded := Text.Utf8.decode_ok.mpr (rfl : Text.Utf8.encode text.toList = _)
    rw [decodeString,encodeString,List.append_assoc,(nat_faithful 8).whole _ _ fits,except_ok_bind]
    dsimp only
    rw [if_neg (by simp),List.take_left,List.drop_left,decoded]
    simp only [String.ofList_toList]
    rfl
  · intro bytes text rest decoded
    obtain ⟨⟨length,left⟩,sized,decoded⟩ := except_bind_ok.mp decoded
    obtain ⟨bound,shorter⟩ := (nat_faithful 8).shrinks _ _ _ sized
    dsimp only at decoded
    split at decoded
    · cases decoded
    next short =>
      split at decoded
      next characters read =>
        cases decoded
        have body := Text.Utf8.decode_ok.mp read
        have taken : (Text.Utf8.encode characters).length = length := by
          rw [← body,List.length_take]
          omega
        rw [length_encodeNat] at shorter
        rw [TextFits,encodeString,String.toList_ofList,List.length_append,length_encodeNat,List.length_drop,
          taken]
        omega
      next => cases decoded

theorem list_faithful {α : Type} {fits : α → Prop} {encode : α → List UInt8} {decode : Decoder α}
    (faithful : Faithful fits encode decode) :
    Faithful (fun items => items.length < 2 ^ 64 ∧ ∀ item ∈ items, fits item) (encodeList encode)
      (decodeList decode) := by
  have many (items : List α) (rest : List UInt8) (fit : ∀ item ∈ items, fits item) :
      decodeMany decode items.length (items.flatMap encode ++ rest) = .ok (items,rest) := by
    induction items with
    | nil => rfl
    | cons item items ih =>
      obtain ⟨first,others⟩ := List.forall_mem_cons.mp fit
      rw [List.length_cons,decodeMany,List.flatMap_cons,List.append_assoc,faithful.whole _ _ first,
        except_ok_bind]
      dsimp only
      rw [ih others]
      rfl
  have fewer (count : Nat) (bytes : List UInt8) (items : List α) (rest : List UInt8)
      (decoded : decodeMany decode count bytes = .ok (items,rest)) :
      items.length = count ∧ (∀ item ∈ items, fits item) ∧
        (items.flatMap encode).length + rest.length ≤ bytes.length := by
    induction count generalizing bytes items with
    | zero =>
      cases decoded
      simp
    | succ count ih =>
      obtain ⟨⟨item,left⟩,first,decoded⟩ := except_bind_ok.mp decoded
      obtain ⟨⟨others,last⟩,later,ended⟩ := except_bind_ok.mp decoded
      cases ended
      obtain ⟨fit,shorter⟩ := faithful.shrinks _ _ _ first
      obtain ⟨size,all,less⟩ := ih left others later
      refine ⟨congrArg (· + 1) size,List.forall_mem_cons.mpr ⟨fit,all⟩,?_⟩
      rw [List.flatMap_cons,List.length_append]
      omega
  constructor
  · rintro items rest ⟨short,fit⟩
    rw [decodeList,encodeList,List.append_assoc,(nat_faithful 8).whole _ _ short,except_ok_bind]
    exact many items rest fit
  · intro bytes items rest decoded
    obtain ⟨⟨count,left⟩,sized,decoded⟩ := except_bind_ok.mp decoded
    obtain ⟨bound,shorter⟩ := (nat_faithful 8).shrinks _ _ _ sized
    obtain ⟨size,fit,less⟩ := fewer count left items rest decoded
    rw [length_encodeNat] at shorter
    rw [encodeList,List.length_append,length_encodeNat]
    exact ⟨⟨size ▸ bound,fit⟩,by omega⟩

end Microprogram.Bytes

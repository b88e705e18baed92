import Microprogram.Proofs.ControlTable.Encoding

/-! Bytes that tell where they end. A decoder that has come to a verdict keeps it whatever bytes
follow, unless it ran out of bytes. So what is read back from its own bytes is not read from
fewer of them. -/
namespace Microprogram
open Bytes

namespace Bytes

/-- The bytes end before what they announce does. -/
def DecodeError.isShort : DecodeError → Bool
  | unexpectedEnd => true
  | stringTooLong => true
  | _ => false

/-- More bytes behind are left over, and change no refusal but that for want of bytes. -/
structure Delimited {α : Type} (decode : Decoder α) : Prop where
  reads : ∀ {bytes a rest}, decode bytes = .ok (a,rest) →
    ∀ more, decode (bytes ++ more) = .ok (a,rest ++ more)
  refuses : ∀ {bytes error}, decode bytes = .error error → error.isShort = false →
    ∀ more, decode (bytes ++ more) = .error error

namespace Delimited
variable {α β : Type}

theorem value (a : α) : Delimited fun bytes => .ok (a,bytes) := by
  constructor
  · intro bytes b rest decoded more
    cases decoded
    rfl
  · intro bytes error refused
    cases refused

theorem refusal (error : DecodeError) :
    Delimited fun _ => (.error error : Except DecodeError (α × List UInt8)) := by
  constructor
  · intro bytes a rest decoded
    cases decoded
  · intro bytes other refused _ more
    exact refused

theorem andThen {first : Decoder α} {next : α → Decoder β} (one : Delimited first)
    (two : ∀ a, Delimited (next a)) :
    Delimited fun bytes => first bytes >>= fun read => next read.1 read.2 := by
  constructor
  · intro bytes b rest decoded more
    obtain ⟨⟨a,left⟩,begun,ended⟩ := except_bind_ok.mp decoded
    simp only [one.reads begun more,except_ok_bind]
    exact (two a).reads ended more
  · intro bytes error refused late more
    rcases except_bind_error.mp refused with early | ⟨⟨a,left⟩,begun,ended⟩
    · simp only [one.refuses early late more]
      rfl
    · simp only [one.reads begun more,except_ok_bind]
      exact (two a).refuses ended late more

theorem choice (p : Prop) [Decidable p] {first second : Decoder α} (one : Delimited first)
    (two : Delimited second) : Delimited fun bytes => if p then first bytes else second bytes := by
  by_cases holds : p
  · simp only [holds,if_true]
    exact one
  · simp only [holds,if_false]
    exact two

end Delimited

theorem byte_delimited : Delimited decodeByte := by
  constructor
  · intro bytes b rest decoded more
    cases bytes with
    | nil => cases decoded
    | cons first bytes =>
      cases decoded
      rfl
  · intro bytes error refused late
    cases bytes with
    | nil =>
      cases refused
      cases late
    | cons first bytes => cases refused

theorem bool_delimited : Delimited decodeBool := by
  have parted : decodeBool = fun bytes => decodeByte bytes >>= fun read =>
      if read.1 = 0 then .ok (false,read.2) else if read.1 = 1 then .ok (true,read.2)
      else .error (.badBool read.1) := by
    funext bytes
    cases bytes <;> rfl
  rw [parted]
  exact byte_delimited.andThen fun b =>
    .choice (b = 0) (.value false) (.choice (b = 1) (.value true) (.refusal (.badBool b)))

theorem nat_delimited (width : Nat) : Delimited (decodeNat width) := by
  induction width with
  | zero => exact .value 0
  | succ width ih =>
    -- A number is its lowest byte before a number that is one byte shorter.
    have parted : decodeNat (width + 1) = fun bytes => decodeByte bytes >>= fun read =>
        decodeNat width read.2 >>= fun more => .ok (read.1.toNat + 256 * more.1,more.2) := by
      funext bytes
      cases bytes with
      | nil => rfl
      | cons b bytes => exact except_map_eq_bind _ _
    rw [parted]
    exact byte_delimited.andThen fun b => ih.andThen fun n => .value (b.toNat + 256 * n)

theorem many_delimited {α : Type} {decode : Decoder α} (each : Delimited decode) (count : Nat) :
    Delimited (decodeMany decode count) := by
  induction count with
  | zero => exact .value []
  | succ count ih => exact each.andThen fun item => ih.andThen fun items => .value (item :: items)

theorem list_delimited {α : Type} {decode : Decoder α} (each : Delimited decode) :
    Delimited (decodeList decode) := (nat_delimited 8).andThen fun count => many_delimited each count

def decodeBlock (length : Nat) : Decoder (List UInt8) := fun bytes =>
  if bytes.length < length then .error .stringTooLong
  else .ok (bytes.take length,bytes.drop length)

theorem block_delimited (length : Nat) : Delimited (decodeBlock length) := by
  constructor
  · intro bytes block rest decoded more
    unfold decodeBlock at decoded ⊢
    split at decoded
    · cases decoded
    next long =>
      cases decoded
      have enough := Nat.le_of_not_lt long
      rw [List.take_append_of_le_length enough,List.drop_append_of_le_length enough,
        if_neg (by rw [List.length_append]; omega)]
  · intro bytes error refused late more
    unfold decodeBlock at refused
    split at refused
    · cases refused
      cases late
    · cases refused

theorem string_delimited : Delimited decodeString := by
  have parted : decodeString = fun bytes => decodeNat 8 bytes >>= fun sized =>
      decodeBlock sized.1 sized.2 >>= fun block =>
        ((Text.Utf8.decode block.1).mapError DecodeError.notUtf8).map
          fun text => (String.ofList text,block.2) := by
    funext bytes
    apply bind_congr
    intro sized
    unfold decodeBlock
    dsimp only
    split
    · rfl
    · change _ = (((Text.Utf8.decode (sized.2.take sized.1)).mapError DecodeError.notUtf8).map _)
      cases Text.Utf8.decode (sized.2.take sized.1) <;> rfl
  have judged (block : List UInt8) : Delimited fun bytes =>
      ((Text.Utf8.decode block).mapError DecodeError.notUtf8).map
        fun text => (String.ofList text,bytes) := by
    cases Text.Utf8.decode block with
    | ok text => exact .value (String.ofList text)
    | error e => exact .refusal (.notUtf8 e)
  rw [parted]
  exact (nat_delimited 8).andThen fun length => (block_delimited length).andThen judged

end Bytes

theorem Mode.delimited : Delimited decode := by
  have parted : decode = fun bytes => decodeNat 4 bytes >>= fun ranked =>
      if ranked.1 = 0 then .ok (none,ranked.2) else if ranked.1 = 1 then .ok (immediate,ranked.2)
      else if ranked.1 = 2 then .ok (absolute,ranked.2) else .error (.badVariant ranked.1 3) := by
    funext bytes
    apply bind_congr
    rintro ⟨_ | _ | _ | n,left⟩ <;> rfl
  rw [parted]
  exact (nat_delimited 4).andThen fun n => .choice (n = 0) (.value none) (.choice (n = 1)
    (.value immediate) (.choice (n = 2) (.value absolute) (.refusal (.badVariant n 3))))

theorem Descriptor.delimited : Delimited decode :=
  byte_delimited.andThen fun opcode => string_delimited.andThen fun name =>
    Mode.delimited.andThen fun mode => string_delimited.andThen fun description =>
      .value (⟨opcode,name,mode,description⟩ : Descriptor)

theorem Ident.delimited {kind : Kind} : Delimited (decode : Decoder (Ident kind)) :=
  (nat_delimited 2).andThen fun n => .value (⟨UInt16.ofNat n⟩ : Ident kind)

namespace Entry

theorem gate_delimited : Delimited decodeGate :=
  Ident.delimited.andThen fun status => bool_delimited.andThen fun value => .value (status,value)

theorem delimited : Delimited decode :=
  Descriptor.delimited.andThen fun descriptor => byte_delimited.andThen fun step =>
    (list_delimited gate_delimited).andThen fun gates =>
      (list_delimited Ident.delimited).andThen fun controls =>
        .value (⟨descriptor,step,.ofList gates,.ofList controls⟩ : Entry)

end Entry

namespace ControlTable

theorem entries_delimited : Delimited (decodeList Entry.decode) := list_delimited Entry.delimited

theorem decode_short {table : ControlTable} (addressable : table.Addressable) {short : List UInt8}
    (cut : short <+: table.encode) (less : short ≠ table.encode) :
    ∃ error, decode short = .error (.encoding error) ∧ error.isShort = true := by
  obtain ⟨more,whole⟩ := cut
  have read := (list_faithful Entry.faithful).whole table.entries [] ⟨addressable.entries,addressable.texts⟩
  rw [List.append_nil] at read
  change decodeList Entry.decode table.encode = _ at read
  rw [← whole] at read
  unfold decode
  cases early : decodeList Entry.decode short with
  | ok result =>
    obtain ⟨entries,rest⟩ := result
    have left := entries_delimited.reads early more
    rw [read] at left
    have empty : rest ++ more = [] := (congrArg Prod.snd (Except.ok.inj left)).symm
    rw [(List.append_eq_nil_iff.mp empty).2,List.append_nil] at whole
    exact absurd whole less
  | error error =>
    refine ⟨error,rfl,?_⟩
    by_contra late
    have kept := entries_delimited.refuses early (Bool.eq_false_iff.mpr late) more
    rw [read] at kept
    cases kept

theorem decode_append {bytes : List UInt8} {table : ControlTable} (decoded : decode bytes = .ok table)
    (more : List UInt8) : decode (bytes ++ more) = .ok table := by
  unfold decode at decoded ⊢
  cases read : decodeList Entry.decode bytes with
  | ok result =>
    rw [read] at decoded
    rw [entries_delimited.reads read more]
    exact decoded
  | error error =>
    rw [read] at decoded
    cases decoded

/-- The bytes of a table tell where they end. None of the ways to cut them short is read, and
what is read is the same whatever follows. -/
theorem bytes_delimited :
    (∀ table : ControlTable, table.Addressable → ∀ short, short <+: table.encode →
      short ≠ table.encode → ∃ error, decode short = .error (.encoding error) ∧ error.isShort = true) ∧
    ∀ bytes table, decode bytes = .ok table → ∀ more, decode (bytes ++ more) = .ok table := by
  constructor
  · intro table addressable short cut less
    exact decode_short addressable cut less
  · intro bytes table decoded more
    exact decode_append decoded more

theorem untidy_delimited : ∃ table, ofEntries untidyEntries = .ok table ∧ table.Addressable ∧
    table.encode.length = 98 ∧
    (∃ error, decode (table.encode.take 40) = .error (.encoding error) ∧ error.isShort = true) ∧
    decode untidy = .ok table ∧ decode (untidy ++ [1,2]) = .ok table := by
  have decoded : decode untidy = ofEntries untidyEntries := rfl
  have size : (ofEntries untidyEntries).map (fun table => table.encode.length) = .ok 98 := rfl
  obtain ⟨table,made,long⟩ := except_map_ok.mp size
  rw [made] at decoded
  obtain ⟨_,_,addressable,_⟩ := decode_ok decoded
  refine ⟨table,made,addressable,long,?_,decoded,bytes_delimited.2 untidy table decoded [1,2]⟩
  apply bytes_delimited.1 table addressable _ (List.take_prefix 40 _)
  intro same
  have length := congrArg List.length same
  rw [List.length_take,long] at length
  omega

end ControlTable
end Microprogram

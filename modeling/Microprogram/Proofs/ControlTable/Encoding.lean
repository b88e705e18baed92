import Mathlib.Data.List.Nodup
import Mathlib.Data.List.Perm.Subperm
import Microprogram.ControlTable.Encoding
import Microprogram.Proofs.ControlTable.Bytes
import Microprogram.Proofs.ControlTable.Lookup

/-! Tables and their bytes. A table comes back from its bytes, and of all the bytes that a
table can be read from, those it is written to are the shortest and do not depend on which
of them it was read from. -/
namespace Microprogram
open Bytes

theorem Mode.faithful : Faithful (fun _ => True) encode decode := by
  constructor
  · intro mode rest _
    have small : mode.rank < 256 ^ 4 := by cases mode <;> decide
    rw [encode,decode,(nat_faithful 4).whole _ _ small,except_ok_bind]
    cases mode <;> rfl
  · intro bytes mode rest decoded
    obtain ⟨⟨n,left⟩,ranked,decoded⟩ := except_bind_ok.mp decoded
    obtain ⟨_,shorter⟩ := (nat_faithful 4).shrinks _ _ _ ranked
    have same : left = rest := by
      dsimp only at decoded
      split at decoded <;> cases decoded <;> rfl
    rw [length_encodeNat,same] at shorter
    exact ⟨trivial,shorter⟩

namespace Descriptor

def Fits (d : Descriptor) : Prop := TextFits d.name ∧ TextFits d.description

theorem faithful : Faithful Fits encode decode := by
  constructor
  · rintro ⟨opcode,name,mode,description⟩ rest ⟨named,described⟩
    simp only [encode,decode,List.append_assoc,byte_faithful.whole _ _ trivial,
      string_faithful.whole _ _ named,string_faithful.whole _ _ described,Mode.faithful.whole _ _ trivial,
      except_ok_bind]
    rfl
  · intro bytes d rest decoded
    obtain ⟨⟨opcode,first⟩,one,decoded⟩ := except_bind_ok.mp decoded
    obtain ⟨⟨name,second⟩,two,decoded⟩ := except_bind_ok.mp decoded
    obtain ⟨⟨mode,third⟩,three,decoded⟩ := except_bind_ok.mp decoded
    obtain ⟨⟨description,fourth⟩,four,ended⟩ := except_bind_ok.mp decoded
    cases ended
    have opcodes := (byte_faithful.shrinks _ _ _ one).2
    obtain ⟨named,names⟩ := string_faithful.shrinks _ _ _ two
    have modes := (Mode.faithful.shrinks _ _ _ three).2
    obtain ⟨described,descriptions⟩ := string_faithful.shrinks _ _ _ four
    refine ⟨⟨named,described⟩,?_⟩
    simp only [encode,List.length_append]
    omega

end Descriptor

namespace Ident
variable {kind : Kind}

theorem faithful : Faithful (fun _ : Ident kind => True) encode decode := by
  constructor
  · intro id rest _
    have small : id.index < 256 ^ 2 := id.num.toNat_lt
    rw [encode,decode,(nat_faithful 2).whole _ _ small,except_ok_bind]
    exact congrArg (fun num => Except.ok ((⟨num⟩ : Ident kind),rest)) UInt16.ofNat_toNat
  · intro bytes id rest decoded
    obtain ⟨⟨n,left⟩,numbered,ended⟩ := except_bind_ok.mp decoded
    cases ended
    obtain ⟨_,shorter⟩ := (nat_faithful 2).shrinks _ _ _ numbered
    rw [length_encodeNat] at shorter
    rw [encode,length_encodeNat]
    exact ⟨trivial,shorter⟩

theorem length_of_nodup {ids : List (Ident kind)} (apart : ids.Nodup) : ids.length < 2 ^ 64 := by
  have distinct : (ids.map index).Nodup := by
    refine List.Nodup.map ?_ apart
    rintro ⟨num⟩ ⟨other⟩ same
    exact congrArg mk (UInt16.toNat_inj.mp same)
  have inside : ids.map index ⊆ List.range 65536 := by
    intro n member
    obtain ⟨id,_,rfl⟩ := List.mem_map.mp member
    exact List.mem_range.mpr id.num.toNat_lt
  have bound := (List.subperm_of_subset distinct inside).length_le
  rw [List.length_map,List.length_range] at bound
  omega

end Ident

namespace Entry

theorem gate_faithful : Faithful (fun _ => True) encodeGate decodeGate := by
  constructor
  · rintro ⟨status,value⟩ rest _
    simp only [encodeGate,decodeGate,List.append_assoc,Ident.faithful.whole _ _ trivial,
      bool_faithful.whole _ _ trivial,except_ok_bind]
    rfl
  · intro bytes gate rest decoded
    obtain ⟨⟨status,first⟩,one,decoded⟩ := except_bind_ok.mp decoded
    obtain ⟨⟨value,second⟩,two,ended⟩ := except_bind_ok.mp decoded
    cases ended
    have statuses := (Ident.faithful.shrinks _ _ _ one).2
    have values := (bool_faithful.shrinks _ _ _ two).2
    refine ⟨trivial,?_⟩
    simp only [encodeGate,List.length_append]
    omega

private theorem length_encodeList_le {α : Type} {encode : α → List UInt8} (size : Nat)
    (sizes : ∀ item, (encode item).length = size) {items others : List α}
    (fewer : items.length ≤ others.length) :
    (encodeList encode items).length ≤ (encodeList encode others).length := by
  have total (items : List α) : (items.flatMap encode).length = size * items.length := by
    induction items with
    | nil => rfl
    | cons item rest ih =>
      rw [List.flatMap_cons,List.length_append,sizes,ih,List.length_cons,Nat.mul_succ,Nat.add_comm]
  simp only [encodeList,List.length_append,length_encodeNat,total]
  exact Nat.add_le_add_left (Nat.mul_le_mul_left _ fewer) _

/-- Of gates and controls in any order what is kept is written in ascending order. -/
theorem faithful : Faithful (fun entry => entry.descriptor.Fits) encode decode := by
  have gates := list_faithful gate_faithful
  have controls := list_faithful (Ident.faithful : Faithful (fun _ : ControlId => True) _ _)
  constructor
  · rintro ⟨d,step,guard,lines⟩ rest fits
    have guards : guard.toList.length < 2 ^ 64 :=
      List.length_map Prod.fst ▸ Ident.length_of_nodup guard.nodup_keys
    have asserted : lines.toList.length < 2 ^ 64 := Ident.length_of_nodup lines.nodup
    simp only [encode,decode,List.append_assoc,Descriptor.faithful.whole _ _ fits,
      byte_faithful.whole _ _ trivial,gates.whole _ _ ⟨guards,fun _ _ => trivial⟩,
      controls.whole _ _ ⟨asserted,fun _ _ => trivial⟩,except_ok_bind,SortedMap.ofList_toList]
    exact congrArg (fun controls => Except.ok ((⟨d,step,guard,controls⟩ : Entry),rest))
      (SortedSet.insertAll_toList lines)
  · intro bytes entry rest decoded
    obtain ⟨⟨d,first⟩,one,decoded⟩ := except_bind_ok.mp decoded
    obtain ⟨⟨step,second⟩,two,decoded⟩ := except_bind_ok.mp decoded
    obtain ⟨⟨guard,third⟩,three,decoded⟩ := except_bind_ok.mp decoded
    obtain ⟨⟨lines,fourth⟩,four,ended⟩ := except_bind_ok.mp decoded
    cases ended
    obtain ⟨fits,descriptors⟩ := Descriptor.faithful.shrinks _ _ _ one
    have steps := (byte_faithful.shrinks _ _ _ two).2
    have guards := (gates.shrinks _ _ _ three).2
    have asserted := (controls.shrinks _ _ _ four).2
    have fewer : (encodeList encodeGate (SortedMap.ofList guard).toList).length ≤
        (encodeList encodeGate guard).length :=
      length_encodeList_le 3 (fun gate => rfl) (SortedMap.size_ofList_le guard)
    have less : (encodeList Ident.encode (SortedSet.ofList lines).toList).length ≤
        (encodeList Ident.encode lines).length :=
      length_encodeList_le 2 (fun id => rfl) (SortedSet.size_ofList_le lines)
    refine ⟨fits,?_⟩
    simp only [encode,List.length_append]
    omega

end Entry

namespace ControlTable

/-- The counts and lengths in the table fit into 64 bits, as they do in any memory. -/
structure Addressable (table : ControlTable) : Prop where
  entries : table.entries.length < 2 ^ 64
  texts : ∀ entry ∈ table.entries, entry.descriptor.Fits

theorem ofEntries_ascending {entries : List Entry} {table : ControlTable}
    (made : ofEntries entries = .ok table) : Sorted.Ascending Entry.key table.entries := by
  have placed (entries sorted placed : List Entry) (ascending : Sorted.Ascending Entry.key sorted)
      (done : entries.foldlM place sorted = .ok placed) : Sorted.Ascending Entry.key placed := by
    induction entries generalizing sorted with
    | nil =>
      cases done
      exact ascending
    | cons entry rest ih =>
      rw [List.foldlM_cons] at done
      obtain ⟨next,first,later⟩ := except_bind_ok.mp done
      exact ih next (place_ok ascending first).1 later
  obtain ⟨sorted,done,rfl⟩ := except_map_ok.mp made
  exact placed entries [] sorted (Sorted.ascending_nil _) done

theorem ofEntries_sorted {entries : List Entry} (ascending : Sorted.Ascending Entry.key entries) :
    ofEntries entries = .ok (ofSorted entries) := by
  obtain ⟨table,made⟩ := ofEntries_total ascending.nodup_keys
  obtain ⟨sorted,members⟩ := ofEntries_ok made
  have same : table.entries = entries := (ofEntries_ascending made).ext ascending members
  rw [made,sorted,same]

theorem ofEntries_perm {entries : List Entry} {table : ControlTable}
    (made : ofEntries entries = .ok table) : table.entries.Perm entries := by
  have members := (ofEntries_ok made).2
  have distinct := (ofEntries_ascending made).nodup
  refine (List.subperm_of_subset distinct fun entry => (members entry).mp).perm_of_length_le ?_
  exact Nat.le_of_eq (ofEntries_size made).symm

private theorem entries_faithful : Faithful
    (fun entries => entries.length < 2 ^ 64 ∧ ∀ entry ∈ entries, entry.descriptor.Fits)
    (encodeList Entry.encode) (decodeList Entry.decode) := list_faithful Entry.faithful

theorem decode_encode {entries : List Entry} {table : ControlTable}
    (made : ofEntries entries = .ok table) (addressable : table.Addressable) :
    decode table.encode = .ok table := by
  have read := entries_faithful.whole table.entries [] ⟨addressable.entries,addressable.texts⟩
  rw [List.append_nil] at read
  rw [decode,encode,read]
  dsimp only
  rw [ofEntries_sorted (ofEntries_ascending made),← (ofEntries_ok made).1]

theorem decode_ok {bytes : List UInt8} {table : ControlTable} (decoded : decode bytes = .ok table) :
    ∃ entries, ofEntries entries = .ok table ∧ table.Addressable ∧
      table.encode.length ≤ bytes.length := by
  unfold decode at decoded
  split at decoded
  next entries rest read =>
    obtain ⟨⟨count,texts⟩,shorter⟩ := entries_faithful.shrinks _ _ _ read
    have order := ofEntries_perm decoded
    refine ⟨entries,decoded,⟨order.length_eq ▸ count,fun entry member => ?_⟩,?_⟩
    · exact texts entry (order.mem_iff.mp member)
    · have same : table.encode.length = (encodeList Entry.encode entries).length := by
        simp only [encode,encodeList,List.length_append,length_encodeNat,
          (order.flatMap_right Entry.encode).length_eq]
      omega
  next => cases decoded

/-- A table is read back from its bytes, rows and all. Of the bytes that a table is read from,
whatever order they have and whatever they repeat or add at the end, those it is written to
are the shortest, and they tell tables apart. -/
theorem bytes_canonical :
    (∀ entries table, ofEntries entries = .ok table → table.Addressable →
      decode table.encode = .ok table) ∧
    ∀ bytes table, decode bytes = .ok table → table.encode.length ≤ bytes.length ∧
      decode table.encode = .ok table ∧ ∀ others other, decode others = .ok other →
        (other.encode = table.encode ↔ other = table) := by
  refine ⟨fun entries table => decode_encode,fun bytes table decoded => ?_⟩
  obtain ⟨entries,made,addressable,shorter⟩ := decode_ok decoded
  have back := decode_encode made addressable
  refine ⟨shorter,back,fun others other also => ⟨fun same => ?_,fun same => by rw [same]⟩⟩
  obtain ⟨entries,made,addressable,_⟩ := decode_ok also
  have again := decode_encode made addressable
  rw [same,back] at again
  exact (Except.ok.inj again).symm

/-- Two entries in descending order. The second repeats a gate and a control, and a byte
follows that belongs to none. -/
def untidy : List UInt8 :=
  [2,0,0,0,0,0,0,0] ++
  ([2] ++ [1,0,0,0,0,0,0,0,98] ++ [0,0,0,0] ++ [0,0,0,0,0,0,0,0] ++ [0] ++
    [0,0,0,0,0,0,0,0] ++ [0,0,0,0,0,0,0,0]) ++
  ([1] ++ [1,0,0,0,0,0,0,0,97] ++ [2,0,0,0] ++ [2,0,0,0,0,0,0,0,0xC3,0xA9] ++ [3] ++
    [3,0,0,0,0,0,0,0,4,0,1,1,0,0,4,0,0] ++ [3,0,0,0,0,0,0,0,7,0,5,0,7,0]) ++ [9]

def untidyEntries : List Entry :=
  [⟨⟨2,"b",.none,""⟩,0,∅,∅⟩,
    ⟨⟨1,"a",.absolute,"é"⟩,3,.ofList [(⟨1⟩,false),(⟨4⟩,false)],.ofList [⟨5⟩,⟨7⟩]⟩]

theorem untidy_canonical : ∃ table, ofEntries untidyEntries = .ok table ∧ table.Addressable ∧
    decode table.encode = .ok table ∧ decode untidy = .ok table ∧
    table.encode.length ≤ untidy.length := by
  have read : decodeList Entry.decode untidy = .ok (untidyEntries,[9]) := rfl
  have distinct : (untidyEntries.map Entry.key).Nodup := by decide +kernel
  obtain ⟨table,made⟩ := ofEntries_total distinct
  have decoded : decode untidy = .ok table := by
    rw [decode,read]
    exact made
  obtain ⟨_,_,addressable,_⟩ := decode_ok decoded
  exact ⟨table,made,addressable,bytes_canonical.1 _ table made addressable,decoded,
    (bytes_canonical.2 untidy table decoded).1⟩

example : ((decode untidy).map fun table => table.encode.length + 6) = .ok untidy.length := by rfl

end ControlTable
end Microprogram

import Mathlib.Algebra.Group.Nat.Defs
import Mathlib.Logic.Basic
import Mathlib.Tactic.SplitIfs
import Microprogram.Proofs.Machine.Outcome
import Microprogram.Text.Utf8

/-! Decoding accepts what encoding writes and nothing else. A sequence that has begun owes
continuation bytes, and it is open to the numbers whose leading bits have been read. -/
namespace Microprogram.Text.Utf8

/-- The last bytes of a sequence, six bits of the number in each. -/
def tail : Nat → Nat → List UInt8
  | 0, _ => []
  | more + 1, n => .ofNat (0x80 + n / 64 ^ more % 64) :: tail more n

/-- The number may still come of the sequence. -/
structure Pending.Opens (p : Pending) (n : Nat) : Prop where
  read : n / 64 ^ p.more = p.value
  next : ∀ more, p.more = more + 1 →
    p.low.toNat ≤ 0x80 + n / 64 ^ more % 64 ∧ 0x80 + n / 64 ^ more % 64 ≤ p.high.toNat

/-- What follows the lead byte are continuation bytes. -/
structure Pending.Continues (p : Pending) : Prop where
  low : 0x80 ≤ p.low.toNat
  high : p.high.toNat ≤ 0xBF

/-- Goes on behind a byte that has been read. -/
def resume (index : Nat) (p : Pending) (bytes : List UInt8) : Except Error (List Char) :=
  if p.more = 0 then (decodeFrom index none bytes).map (Char.ofNat p.value :: ·)
  else decodeFrom index (some p) bytes

theorem decodeFrom_cons {index : Nat} {pending : Option Pending} {b : UInt8} {rest : List UInt8}
    {text : List Char} : decodeFrom index pending (b :: rest) = .ok text ↔
      ∃ p, advance index b pending = .ok p ∧ resume (index + 1) p rest = .ok text := by
  rw [decodeFrom]
  cases advance index b pending with
  | error error => simp
  | ok p => simp [resume]

theorem advance_pending {index : Nat} {p next : Pending} {b : UInt8} :
    advance index b (some p) = .ok next ↔ (p.low.toNat ≤ b.toNat ∧ b.toNat ≤ p.high.toNat) ∧
      ⟨p.start,p.taken + 1,p.value * 64 + (b.toNat - 0x80),p.more - 1,0x80,0xBF⟩ = next := by
  rw [advance,Pending.take?]
  by_cases fits : (p.low ≤ b && b ≤ p.high) = true
  · rw [if_pos fits]
    simp only [Bool.and_eq_true,decide_eq_true_eq,UInt8.le_iff_toNat_le] at fits
    simp [fits]
  · rw [if_neg fits]
    simp only [Bool.and_eq_true,decide_eq_true_eq,UInt8.le_iff_toNat_le] at fits
    simp [fits]

theorem toNat_continuation (more n : Nat) :
    (UInt8.ofNat (0x80 + n / 64 ^ more % 64)).toNat = 0x80 + n / 64 ^ more % 64 :=
  UInt8.toNat_ofNat_of_lt' (show _ < 256 by omega)

theorem resume_ok {index : Nat} {p : Pending} (continues : p.Continues) {bytes : List UInt8}
    {text : List Char} : resume index p bytes = .ok text ↔
      ∃ n rest others, bytes = tail p.more n ++ rest ∧ p.Opens n ∧
        decodeFrom (index + p.more) none rest = .ok others ∧ text = Char.ofNat n :: others := by
  generalize owed : p.more = more
  induction more generalizing index p bytes text with
  | zero =>
    rw [resume,if_pos owed,except_map_ok]
    constructor
    · rintro ⟨others,decoded,rfl⟩
      refine ⟨p.value,bytes,others,rfl,⟨?_,?_⟩,decoded,rfl⟩
      · rw [owed,Nat.pow_zero,Nat.div_one]
      · intro more same
        omega
    · rintro ⟨n,rest,others,rfl,opens,decoded,rfl⟩
      have value := opens.read
      rw [owed,Nat.pow_zero,Nat.div_one] at value
      exact ⟨others,decoded,by rw [value]⟩
  | succ more ih =>
    rw [resume,if_neg (by omega)]
    cases bytes with
    | nil =>
      refine iff_of_false (by simp [decodeFrom]) ?_
      rintro ⟨n,rest,others,short,_⟩
      cases short
    | cons b bytes =>
      rw [decodeFrom_cons]
      have step (n : Nat) : n / 64 ^ (more + 1) = n / 64 ^ more / 64 := by
        rw [Nat.pow_succ,Nat.div_div_eq_div_mul]
      have place : index + (more + 1) = index + 1 + more := by omega
      have after (value : Nat) : (⟨p.start,p.taken + 1,value,p.more - 1,0x80,0xBF⟩ : Pending).Continues :=
        ⟨Nat.le_refl _,Nat.le_refl _⟩
      have one := continues.low
      have two := continues.high
      rw [place]
      constructor
      · rintro ⟨next,advanced,resumed⟩
        obtain ⟨⟨low,high⟩,rfl⟩ := advance_pending.mp advanced
        obtain ⟨n,rest,others,rfl,opens,decoded,rfl⟩ := (ih (after _) (by dsimp only; omega)).mp resumed
        have read := opens.read
        dsimp only at read
        rw [owed,Nat.add_sub_cancel] at read
        refine ⟨n,rest,others,?_,⟨?_,?_⟩,decoded,rfl⟩
        · rw [tail,List.cons_append]
          congr 1
          rw [← UInt8.toNat_inj,toNat_continuation]
          omega
        · rw [owed,step]
          omega
        · intro fewer same
          obtain rfl : fewer = more := by omega
          omega
      · rintro ⟨n,rest,others,whole,opens,decoded,rfl⟩
        rw [tail,List.cons_append,List.cons.injEq] at whole
        obtain ⟨rfl,rfl⟩ := whole
        have read := opens.read
        rw [owed,step] at read
        have bounds := opens.next more owed
        refine ⟨_,advance_pending.mpr ⟨?_,rfl⟩,?_⟩
        · rw [toNat_continuation]
          exact bounds
        · refine (ih (after _) (by dsimp only; omega)).mpr ⟨n,rest,others,rfl,⟨?_,?_⟩,decoded,rfl⟩
          · dsimp only
            rw [owed,Nat.add_sub_cancel,toNat_continuation]
            omega
          · intro fewer _
            change 0x80 ≤ 0x80 + _ ∧ _ ≤ 0xBF
            omega

def width (n : Nat) : Nat :=
  if n < 0x80 then 0 else if n < 0x800 then 1 else if n < 0x10000 then 2 else 3

def mark : Nat → Nat
  | 0 => 0
  | 1 => 0xC0
  | 2 => 0xE0
  | _ => 0xF0

theorem encodeChar_eq (c : Char) : encodeChar c =
    .ofNat (mark (width c.toNat) + c.toNat / 64 ^ width c.toNat) :: tail (width c.toNat) c.toNat := by
  unfold encodeChar width
  dsimp only
  split
  · simp [mark,tail]
  split
  · simp [mark,tail]
  split
  · simp [mark,tail]
  · simp [mark,tail]

theorem opens_iff {p : Pending} {n : Nat} : p.Opens n ↔ n / 64 ^ p.more = p.value ∧ (p.more = 0 ∨
    p.low.toNat ≤ 0x80 + n / 64 ^ (p.more - 1) % 64 ∧ 0x80 + n / 64 ^ (p.more - 1) % 64 ≤ p.high.toNat) := by
  constructor
  · rintro ⟨read,next⟩
    refine ⟨read,?_⟩
    cases owed : p.more with
    | zero => exact .inl rfl
    | succ more => exact .inr (next more owed)
  · rintro ⟨read,next⟩
    refine ⟨read,fun more owed => ?_⟩
    rw [owed,Nat.add_sub_cancel] at next
    exact next.resolve_left (Nat.succ_ne_zero more)

private theorem width_cases (n : Nat) : width n = 0 ∧ n < 0x80 ∨ width n = 1 ∧ 0x80 ≤ n ∧ n < 0x800 ∨
    width n = 2 ∧ 0x800 ≤ n ∧ n < 0x10000 ∨ width n = 3 ∧ 0x10000 ≤ n := by
  unfold width
  split_ifs <;> omega

/-- The range of lead bytes before the given count of continuation bytes. -/
def Leads (more : Nat) (b : UInt8) : Prop :=
  more = 0 ∧ b.toNat < 0x80 ∨ more = 1 ∧ 0xC2 ≤ b.toNat ∧ b.toNat < 0xE0 ∨
    more = 2 ∧ 0xE0 ≤ b.toNat ∧ b.toNat < 0xF0 ∨ more = 3 ∧ 0xF0 ≤ b.toNat ∧ b.toNat ≤ 0xF4

theorem lead_opens {index : Nat} {b : UInt8} {p : Pending} (leads : lead? index b = some p) :
    p.Continues ∧ Leads p.more b ∧ ∀ n, p.Opens n ↔ n.isValidChar ∧ width n = p.more ∧
      b.toNat = mark p.more + n / 64 ^ p.more := by
  have byte := b.toNat_lt
  simp only [lead?,ite_eq_iff,UInt8.lt_iff_toNat_lt,← UInt8.toNat_inj,UInt8.reduceToNat,
    Option.some.injEq,reduceCtorEq,and_false,false_or,or_false] at leads
  simp only [opens_iff,Nat.isValidChar]
  rcases leads with ⟨range,rfl⟩ | ⟨_,_,⟨range,rfl⟩ | ⟨_,⟨range,rfl⟩ | ⟨_,⟨range,rfl⟩ | ⟨_,⟨range,rfl⟩ |
    ⟨_,⟨range,rfl⟩ | ⟨_,⟨range,rfl⟩ | ⟨_,range,rfl⟩⟩⟩⟩⟩⟩⟩
  all_goals
    refine ⟨⟨by simp,by simp⟩,by unfold Leads; dsimp only; omega,fun n => ?_⟩
    have wide := width_cases n
    simp only [mark,UInt8.reduceToNat,Nat.reduceSub,Nat.reducePow]
    constructor
    · rintro ⟨read,bounds⟩
      omega
    · rintro ⟨valid,size,lead⟩
      omega

theorem lead_none {index : Nat} {b : UInt8} (fails : lead? index b = none) (more : Nat) :
    ¬Leads more b := by
  simp only [lead?,ite_eq_iff,UInt8.lt_iff_toNat_lt,← UInt8.toNat_inj,UInt8.reduceToNat,
    reduceCtorEq,and_false,false_or,and_true] at fails
  unfold Leads
  omega

theorem leads_unique {b : UInt8} {more other : Nat} (leads : Leads more b) (also : Leads other b) :
    more = other := by
  unfold Leads at leads also
  omega

theorem lead_total {n : Nat} (valid : n.isValidChar) (index : Nat) :
    ∃ p, lead? index (.ofNat (mark (width n) + n / 64 ^ width n)) = some p ∧ p.more = width n ∧
      p.Opens n := by
  have ranges : n < 0xD800 ∨ 0xDFFF < n ∧ n < 0x110000 := valid
  have marks : mark 0 = 0 ∧ mark 1 = 0xC0 ∧ mark 2 = 0xE0 ∧ mark 3 = 0xF0 := ⟨rfl,rfl,rfl,rfl⟩
  have byte : (UInt8.ofNat (mark (width n) + n / 64 ^ width n)).toNat = mark (width n) + n / 64 ^ width n := by
    refine UInt8.toNat_ofNat_of_lt' (show _ < 256 from ?_)
    rcases width_cases n with ⟨wide,range⟩ | ⟨wide,range⟩ | ⟨wide,range⟩ | ⟨wide,range⟩ <;>
    · rw [wide]
      omega
  have lead : Leads (width n) (.ofNat (mark (width n) + n / 64 ^ width n)) := by
    rw [Leads,byte]
    rcases width_cases n with ⟨wide,range⟩ | ⟨wide,range⟩ | ⟨wide,range⟩ | ⟨wide,range⟩ <;>
    · rw [wide]
      omega
  cases leads : lead? index (.ofNat (mark (width n) + n / 64 ^ width n)) with
  | none => exact absurd lead (lead_none leads _)
  | some p =>
    obtain ⟨_,range,opening⟩ := lead_opens leads
    have same := leads_unique range lead
    refine ⟨p,rfl,same,(opening n).mpr ⟨valid,same.symm,?_⟩⟩
    rw [byte,same]

private theorem toNat_ofNat {n : Nat} (valid : n.isValidChar) : (Char.ofNat n).toNat = n := by
  rw [Char.ofNat,dif_pos valid]
  rfl

private theorem length_encodeChar (c : Char) : (encodeChar c).length = 1 + width c.toNat := by
  have owed (more n : Nat) : (tail more n).length = more := by
    induction more with
    | zero => rfl
    | succ more ih => exact congrArg (· + 1) ih
  rw [encodeChar_eq,List.length_cons,owed,Nat.add_comm]

private theorem advance_lead {index : Nat} {b : UInt8} {p : Pending} :
    advance index b none = .ok p ↔ lead? index b = some p := by
  rw [advance]
  cases lead? index b <;> simp

theorem decodeFrom_ok {index : Nat} {bytes : List UInt8} {text : List Char} :
    decodeFrom index none bytes = .ok text ↔ bytes = [] ∧ text = [] ∨
      ∃ c rest others, bytes = encodeChar c ++ rest ∧ text = c :: others ∧
        decodeFrom (index + (encodeChar c).length) none rest = .ok others := by
  cases bytes with
  | nil =>
    have empty : [] = text ↔ text = [] := eq_comm
    simp only [decodeFrom,encodeChar_eq,List.cons_append,Except.ok.injEq,true_and,empty]
    simp
  | cons b bytes =>
    rw [decodeFrom_cons,or_iff_right (fun empty => List.cons_ne_nil b bytes empty.1)]
    constructor
    · rintro ⟨p,advanced,resumed⟩
      obtain ⟨continues,_,opening⟩ := lead_opens (advance_lead.mp advanced)
      obtain ⟨n,rest,others,rfl,opens,decoded,rfl⟩ := (resume_ok continues).mp resumed
      obtain ⟨valid,wide,lead⟩ := (opening n).mp opens
      have value := toNat_ofNat valid
      refine ⟨Char.ofNat n,rest,others,?_,rfl,?_⟩
      · have byte : b = .ofNat (mark (width n) + n / 64 ^ width n) := by
          rw [wide,← lead,UInt8.ofNat_toNat]
        rw [encodeChar_eq,value,← byte,← wide,List.cons_append]
      · rw [length_encodeChar,value,wide,← Nat.add_assoc]
        exact decoded
    · rintro ⟨c,rest,others,whole,rfl,decoded⟩
      obtain ⟨p,leads,wide,opens⟩ : ∃ p, lead? index _ = some p ∧ p.more = width c.toNat ∧ p.Opens c.toNat :=
        lead_total c.valid index
      rw [encodeChar_eq,List.cons_append,List.cons.injEq] at whole
      obtain ⟨rfl,rfl⟩ := whole
      refine ⟨p,advance_lead.mpr leads,
        (resume_ok (lead_opens leads).1).mpr ⟨c.toNat,rest,others,?_,opens,?_,?_⟩⟩
      · rw [wide]
      · rw [length_encodeChar,← Nat.add_assoc] at decoded
        rw [wide]
        exact decoded
      · rw [Char.ofNat_toNat]

theorem decode_ok {bytes : List UInt8} {text : List Char} :
    decode bytes = .ok text ↔ bytes = encode text := by
  unfold decode
  generalize 0 = index
  induction text generalizing index bytes with
  | nil =>
    rw [decodeFrom_ok]
    simp [encode]
  | cons c others ih =>
    rw [decodeFrom_ok]
    simp only [encode,List.flatMap_cons]
    constructor
    · rintro (⟨_,short⟩ | ⟨d,rest,more,rfl,same,decoded⟩)
      · cases short
      · cases same
        rw [(ih _).mp decoded]
        rfl
    · rintro rfl
      exact .inr ⟨c,_,others,rfl,rfl,(ih _).mpr rfl⟩

end Microprogram.Text.Utf8

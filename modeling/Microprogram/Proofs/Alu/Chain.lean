import Mathlib.Data.Nat.Digits.Defs
import Mathlib.Tactic.LinearCombination
import Microprogram.Alu
import Microprogram.Proofs.ControlTable.Bytes

/-! Arithmetic on numbers of many bytes, one byte after another from the lowest. A sum hands its
carry to the next byte as it is. A difference takes one more away when no carry comes in, but it
gives a carry when it takes one from the next byte. So between the bytes of a long difference the
carry has to be turned around. -/
namespace Microprogram.Alu

def number (bytes : List UInt8) : Nat := Nat.ofDigits 256 (bytes.map UInt8.toNat)

@[simp]
theorem number_nil : number [] = 0 := rfl

@[simp]
theorem number_cons (byte : UInt8) (rest : List UInt8) :
    number (byte :: rest) = byte.toNat + 256 * number rest := by
  simp [number,Nat.ofDigits_cons]

theorem number_lt (bytes : List UInt8) : number bytes < 256 ^ bytes.length := by
  rw [← List.length_map UInt8.toNat]
  apply Nat.ofDigits_lt_base_pow_length (by decide)
  intro digit member
  obtain ⟨byte,_,rfl⟩ := List.mem_map.mp member
  exact byte.toNat_lt

theorem number_encodeNat (width n : Nat) : number (Bytes.encodeNat width n) = n % 256 ^ width := by
  induction width generalizing n with
  | zero => simp [Bytes.encodeNat,Nat.mod_one]
  | succ width ih => simp [Bytes.encodeNat,ih,pow_succ',Nat.mod_mul]

theorem encodeNat_number (bytes : List UInt8) :
    Bytes.encodeNat bytes.length (number bytes) = bytes := by
  induction bytes with
  | nil => rfl
  | cons byte rest ih =>
    have bound := byte.toNat_lt
    have low : UInt8.ofNat (byte.toNat + 256 * number rest) = byte := by
      rw [← UInt8.toNat_inj,UInt8.toNat_ofNat']
      omega
    have high : (byte.toNat + 256 * number rest) / 256 = number rest := by omega
    rw [number_cons,List.length_cons,Bytes.encodeNat,low,high,ih]

/-- The bytes of a number that wraps around at the given width. -/
def wrapped (width : Nat) (exact : Int) : List UInt8 :=
  Bytes.encodeNat width (exact % 256 ^ width).toNat

theorem eq_wrapped {bytes : List UInt8} {exact : Int} :
    bytes = wrapped bytes.length exact ↔ (number bytes : Int) = exact % 256 ^ bytes.length := by
  have positive : (0 : Int) < 256 ^ bytes.length := by positivity
  have low := Int.emod_nonneg exact positive.ne'
  have high := Int.emod_lt_of_pos exact positive
  have below : (exact % 256 ^ bytes.length).toNat < 256 ^ bytes.length := by
    zify
    rwa [Int.toNat_of_nonneg low]
  constructor
  · intro same
    have values := congrArg number same
    rw [wrapped,number_encodeNat,Nat.mod_eq_of_lt below] at values
    rw [values,Int.toNat_of_nonneg low]
  · intro same
    rw [wrapped,← same,Int.toNat_natCast,encodeNat_number]

/-- An operation on the bytes of two numbers, the lowest pair first. What goes into the next byte
is made of the carry by the link; what would go into a further one is left over. -/
def chain (op : Op) (link : Bool → Bool) : Bool → List (UInt8 × UInt8) → List UInt8 × Bool
  | carry,[] => ([],carry)
  | carry,(lhs,rhs) :: rest =>
    let out := compute op lhs rhs carry
    let later := chain op link (link out.carry) rest
    (out.value :: later.1,later.2)

theorem chain_length {op : Op} {link : Bool → Bool} (carry : Bool) (pairs : List (UInt8 × UInt8)) :
    (chain op link carry pairs).1.length = pairs.length := by
  induction pairs generalizing carry with
  | nil => rfl
  | cons pair rest ih => exact congrArg (· + 1) (ih _)

section Wrapped
variable {op : Op} {link : Bool → Bool} {carry : Bool} {pairs : List (UInt8 × UInt8)} {exact : Int}

theorem chain_eq_wrapped : (chain op link carry pairs).1 = wrapped pairs.length exact ↔
    (number (chain op link carry pairs).1 : Int) = exact % 256 ^ pairs.length := by
  rw [← @chain_length op link carry pairs]
  exact eq_wrapped

theorem chain_eq_wrapped_of_add {times : Int}
    (value : (number (chain op link carry pairs).1 : Int) = exact + 256 ^ pairs.length * times) :
    (chain op link carry pairs).1 = wrapped pairs.length exact := by
  have bound := number_lt (chain op link carry pairs).1
  rw [chain_length] at bound
  zify at bound
  apply chain_eq_wrapped.mpr
  calc (number (chain op link carry pairs).1 : Int) =
        number (chain op link carry pairs).1 % 256 ^ pairs.length :=
        (Int.emod_eq_of_lt (Int.natCast_nonneg _) bound).symm
    _ = exact % 256 ^ pairs.length := by rw [value,Int.add_mul_emod_self_left]

end Wrapped

theorem arithmetic_value (exact : Int) (left right : Bool) :
    ((arithmetic exact left right).value.toNat : Int) = exact % 256 := by
  simp only [arithmetic,UInt8.toNat_ofNat']
  omega

theorem compute_subtract (lhs rhs : UInt8) (carry : Bool) :
    ((compute .subtract lhs rhs carry).value.toNat : Int) =
      lhs.toNat - rhs.toNat - (1 - bit carry) + 256 * bit (compute .subtract lhs rhs carry).carry := by
  have left := lhs.toNat_lt
  have right := rhs.toNat_lt
  simp only [compute,arithmetic_value]
  simp only [arithmetic,bit]
  cases carry <;> split <;> simp_all <;> omega

def difference (pairs : List (UInt8 × UInt8)) : Int :=
  number (pairs.map Prod.fst) - number (pairs.map Prod.snd)

theorem difference_cons (pair : UInt8 × UInt8) (rest : List (UInt8 × UInt8)) :
    difference (pair :: rest) = pair.1.toNat - pair.2.toNat + 256 * difference rest := by
  simp only [difference,List.map_cons,number_cons]
  push_cast
  ring

/-- Bytes that are exact but for what they owe the next one make a number that is exact but for
what the last one leaves owing. -/
theorem chain_exact {op : Op} {link : Bool → Bool} (total : List (UInt8 × UInt8) → Int)
    (owed : Bool → Int) (empty : total [] = 0)
    (cons : ∀ pair rest, total (pair :: rest) = total [pair] + 256 * total rest)
    (byte : ∀ lhs rhs carry, ((compute op lhs rhs carry).value.toNat : Int) =
      total [(lhs,rhs)] + owed carry - 256 * owed (link (compute op lhs rhs carry).carry))
    (carry : Bool) (pairs : List (UInt8 × UInt8)) :
    (number (chain op link carry pairs).1 : Int) =
      total pairs + owed carry - 256 ^ pairs.length * owed (chain op link carry pairs).2 := by
  induction pairs generalizing carry with
  | nil => simp [chain,empty]
  | cons pair rest ih =>
    obtain ⟨lhs,rhs⟩ := pair
    have first := byte lhs rhs carry
    have later := ih (link (compute op lhs rhs carry).carry)
    simp only [chain,number_cons,List.length_cons,pow_succ]
    rw [cons]
    push_cast
    rw [first,later]
    ring

theorem chain_subtract (carry : Bool) (pairs : List (UInt8 × UInt8)) :
    (number (chain .subtract not carry pairs).1 : Int) = difference pairs - (1 - bit carry) +
      256 ^ pairs.length * (1 - bit (chain .subtract not carry pairs).2) := by
  have turned (b : Bool) : (bit (!b) : Int) = 1 - bit b := by cases b <;> rfl
  -- Without a carry one is owing, so that what is owed is the carry less one.
  have value : (number (chain .subtract not carry pairs).1 : Int) = difference pairs +
      (bit carry - 1) - 256 ^ pairs.length * (bit (chain .subtract not carry pairs).2 - 1) := by
    apply chain_exact difference (fun carry => bit carry - 1)
    · simp [difference]
    · intro pair rest
      simp only [difference,List.map_cons,List.map_nil,number_cons,number_nil]
      push_cast
      ring
    · intro lhs rhs carry
      simp only [compute_subtract,turned,difference,List.map_cons,List.map_nil,number_cons,number_nil]
      push_cast
      ring
  rw [value]
  ring

theorem turned_difference (pairs : List (UInt8 × UInt8)) : chain .subtract not true pairs =
    (wrapped pairs.length (difference pairs),decide (0 ≤ difference pairs)) := by
  have value := chain_subtract true pairs
  have one : (bit true : Int) = 1 := rfl
  rw [one,sub_self,sub_zero] at value
  have bound := number_lt (chain .subtract not true pairs).1
  rw [chain_length] at bound
  zify at bound
  apply Prod.ext
  · exact chain_eq_wrapped_of_add value
  · cases left : (chain .subtract not true pairs).2 with
    | true =>
      rw [left,one,sub_self,mul_zero,add_zero] at value
      exact (decide_eq_true (value ▸ Int.natCast_nonneg _)).symm
    | false =>
      have zero : (bit false : Int) = 0 := rfl
      rw [left,zero,sub_zero,mul_one] at value
      exact (decide_eq_false (by omega)).symm

theorem direct_subtract (first second : UInt8 × UInt8) (rest : List (UInt8 × UInt8)) :
    ∃ times : Int, (number (chain .subtract id true (first :: second :: rest)).1 : Int) =
      difference (first :: second :: rest) +
        256 * (2 * bit (compute .subtract first.1 first.2 true).carry - 1) + 256 ^ 2 * times := by
  let low := compute .subtract first.1 first.2 true
  let high := compute .subtract second.1 second.2 low.carry
  let later := chain .subtract id high.carry rest
  have lowest : (low.value.toNat : Int) = first.1.toNat - first.2.toNat - (1 - 1) + 256 * bit low.carry :=
    compute_subtract first.1 first.2 true
  have next : (high.value.toNat : Int) =
      second.1.toNat - second.2.toNat - (1 - bit low.carry) + 256 * bit high.carry :=
    compute_subtract second.1 second.2 low.carry
  have bytes : (chain .subtract id true (first :: second :: rest)).1 =
      low.value :: high.value :: later.1 := rfl
  refine ⟨bit high.carry + number later.1 - difference rest,?_⟩
  simp only [bytes,number_cons,difference_cons]
  push_cast
  linear_combination lowest + 256 * next

theorem direct_difference {pairs : List (UInt8 × UInt8)} :
    (chain .subtract id true pairs).1 = wrapped pairs.length (difference pairs) ↔
      pairs.length ≤ 1 := by
  constructor
  · intro right
    match pairs with
    | [] => simp
    | [pair] => simp
    | first :: second :: rest =>
      have wraps := chain_eq_wrapped.mp right
      obtain ⟨times,value⟩ := direct_subtract first second rest
      have around := Int.emod_add_mul_ediv (difference (first :: second :: rest))
        (256 ^ (first :: second :: rest).length)
      have split : (256 : Int) ^ (first :: second :: rest).length = 65536 * 256 ^ rest.length := by
        simp only [List.length_cons,pow_succ]
        ring
      have flag : bit (compute .subtract first.1 first.2 true).carry ≤ 1 := by
        unfold bit
        split <;> decide
      rw [← wraps,split,Int.mul_assoc] at around
      omega
  · intro short
    have same : (chain .subtract id true pairs).1 = (chain .subtract not true pairs).1 := by
      match pairs with
      | [] => rfl
      | [pair] => rfl
    rw [same,turned_difference]

/-- The bytes come out right in every case if the carry is turned around between them. If it is
passed on as it is they come out right for a single byte, and for more they never do. -/
theorem difference_chain (pairs : List (UInt8 × UInt8)) :
    chain .subtract not true pairs =
      (wrapped pairs.length (number (pairs.map Prod.fst) - number (pairs.map Prod.snd)),
        decide (number (pairs.map Prod.snd) ≤ number (pairs.map Prod.fst))) ∧
    ((chain .subtract id true pairs).1 =
      wrapped pairs.length (number (pairs.map Prod.fst) - number (pairs.map Prod.snd)) ↔
        pairs.length ≤ 1) := by
  constructor
  · rw [turned_difference,difference]
    simp
  · exact direct_difference

/-- 1 taken from 256, with the carry passed on as it is. -/
theorem direct_difference_wrong : (chain .subtract id true [(0,1),(1,0)]).1 = [255,1] ∧
    wrapped 2 (number [0,1] - number [1,0]) = [255,0] := by
  decide +kernel

theorem compute_add (lhs rhs : UInt8) (carry : Bool) :
    ((compute .add lhs rhs carry).value.toNat : Int) =
      lhs.toNat + rhs.toNat + bit carry - 256 * bit (compute .add lhs rhs carry).carry := by
  have left := lhs.toNat_lt
  have right := rhs.toNat_lt
  simp only [compute,arithmetic_value]
  simp only [arithmetic,bit]
  cases carry <;> split <;> simp_all <;> omega

def sum (pairs : List (UInt8 × UInt8)) : Int :=
  number (pairs.map Prod.fst) + number (pairs.map Prod.snd)

theorem chain_add (carry : Bool) (pairs : List (UInt8 × UInt8)) :
    (number (chain .add id carry pairs).1 : Int) =
      sum pairs + bit carry - 256 ^ pairs.length * bit (chain .add id carry pairs).2 := by
  apply chain_exact sum (fun carry => bit carry)
  · simp [sum]
  · intro pair rest
    simp only [sum,List.map_cons,List.map_nil,number_cons,number_nil]
    push_cast
    ring
  · intro lhs rhs carry
    simp [compute_add,sum]

/-- With each carry going into the next byte the bytes of a long sum come out right, and the last
carry tells whether the sum needs a byte more. -/
theorem sum_chain (carry : Bool) (pairs : List (UInt8 × UInt8)) :
    chain .add id carry pairs =
      (wrapped pairs.length
        (number (pairs.map Prod.fst) + number (pairs.map Prod.snd) + bit carry),
        decide (256 ^ pairs.length ≤
          number (pairs.map Prod.fst) + number (pairs.map Prod.snd) + bit carry)) := by
  have value := chain_add carry pairs
  have bound := number_lt (chain .add id carry pairs).1
  rw [chain_length] at bound
  zify at bound
  apply Prod.ext
  · apply chain_eq_wrapped_of_add
    rw [value,sub_eq_add_neg,← mul_neg]
    rfl
  · have one : (bit true : Int) = 1 := rfl
    have zero : (bit false : Int) = 0 := rfl
    rw [sum] at value
    apply Bool.eq_iff_iff.mpr
    rw [decide_eq_true_iff]
    zify
    cases last : (chain .add id carry pairs).2 with
    | true =>
      rw [last,one] at value
      simp only [true_iff]
      linarith
    | false =>
      rw [last,zero] at value
      simp only [Bool.false_eq_true,false_iff]
      linarith

/-- A carry that comes in alone runs through all bytes. -/
example : chain .add id true [(255,0),(255,0)] = ([0,0],true) := by decide +kernel

end Microprogram.Alu

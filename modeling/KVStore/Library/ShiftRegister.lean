import KVStore.Library.Framing
import Mathlib.Logic.Function.Iterate

namespace KVStore
namespace ShiftRegister

open Framing

variable {w : Nat} (poly : BitVec w)

/-!
# Checksums by shift registers

A cyclic redundancy check that consumes its input from the low bit of every byte:
the register is shifted down, and the polynomial is added when a one falls out.
Everything is linear over exclusive or, so two inputs of the same length are told
apart exactly when the difference of their bits does not shift down to zero.

The polynomial has to be written with its highest coefficient left out and the
next ones in the high bits.  A polynomial whose high bit is clear loses a bit with
every shift.  If the bit below it is set, one difference is lost and no other, and
it spans the whole register.
-/

/-! ## Shifts -/

/-- One bit of input. -/
def shift (register : BitVec w) : BitVec w :=
  if register.getLsbD 0 then (register >>> 1) ^^^ poly else register >>> 1

theorem shift_xor (first second : BitVec w) :
    shift poly (first ^^^ second) = shift poly first ^^^ shift poly second := by
  ext i
  cases low : first.getLsbD 0 <;> cases other : second.getLsbD 0 <;>
    simp [shift, low, other, Bool.xor_left_comm, Bool.xor_comm]

theorem iterate_shift_xor (count : Nat) (first second : BitVec w) :
    (shift poly)^[count] (first ^^^ second) =
        (shift poly)^[count] first ^^^ (shift poly)^[count] second := by
  induction count generalizing first second with
  | zero => rfl
  | succ count ih =>
      simp only [Function.iterate_succ_apply, shift_xor, ih]

/-- A register whose low bits are clear is only moved down. -/
theorem iterate_shift_of_clear {register : BitVec w} {count : Nat}
    (clear : forall i, i < count -> register.getLsbD i = false) :
    (shift poly)^[count] register = register >>> count := by
  induction count with
  | zero => simp
  | succ count ih =>
      have moved := ih fun i below => clear i (Nat.lt_succ_of_lt below)
      have low : (register >>> count).getLsbD 0 = false := by
        simpa using clear count (Nat.lt_succ_self count)
      simp [Function.iterate_succ_apply', moved, shift, low, BitVec.shiftRight_add]

/-- The low bits of a register and the others are shifted down apart.  A table of the
first part is what a checksum of bytes is computed with. -/
theorem iterate_shift_eq_low (count : Nat) (register : BitVec w) :
    (shift poly)^[count] register =
      (register >>> count) ^^^ (shift poly)^[count] (BitVec.ofNat w (register.toNat % 2 ^ count)) := by
  let high : BitVec w := (register >>> count) <<< count
  let low : BitVec w := BitVec.ofNat w (register.toNat % 2 ^ count)
  have lowBits : forall i, i < w -> low.getLsbD i = (decide (i < count) && register.getLsbD i) := by
    intro i below
    rw [BitVec.getLsbD_ofNat, Nat.testBit_mod_two_pow]
    simp [below, BitVec.getLsbD]
  have parts : register = high ^^^ low := by
    apply BitVec.eq_of_getLsbD_eq
    intro i below
    rw [BitVec.getLsbD_xor, lowBits i below]
    by_cases inside : i < count
    · simp [high, inside]
    · have back : count + (i - count) = i := by omega
      simp [high, inside, below, back]
  have clear : forall i, i < count -> high.getLsbD i = false := by
    intro i inside
    simp [high, inside]
  have moved : high >>> count = register >>> count := by
    apply BitVec.eq_of_getLsbD_eq
    intro i _
    simp only [high, BitVec.getLsbD_ushiftRight, BitVec.getLsbD_shiftLeft, Nat.add_sub_cancel_left]
    by_cases inside : count + i < w
    · simp [inside]
    · simp [inside, BitVec.getLsbD_of_ge register (count + i) (Nat.not_lt.mp inside)]
  calc
    (shift poly)^[count] register = (shift poly)^[count] (high ^^^ low) := by rw [← parts]
    _ = (register >>> count) ^^^ (shift poly)^[count] low := by
      rw [iterate_shift_xor, iterate_shift_of_clear poly clear, moved]

/-! ## Bytes -/

def feedByte (register : BitVec w) (byte : UInt8) : BitVec w :=
  (shift poly)^[8] (register ^^^ BitVec.ofNat w byte.toNat)

/-- The register after some bytes of input. -/
def feed (register : BitVec w) (bytes : Bytes) : BitVec w := bytes.foldl (feedByte poly) register

theorem feed_append (register : BitVec w) (first second : Bytes) :
    feed poly register (first ++ second) = feed poly (feed poly register first) second :=
  List.foldl_append

theorem xor_xor_xor_self (common first second : BitVec w) :
    (common ^^^ first) ^^^ (common ^^^ second) = first ^^^ second := by
  ext i
  simp [Bool.xor_left_comm]

/-- The same bytes shift the difference of two registers down. -/
theorem feed_xor_feed (first second : BitVec w) (bytes : Bytes) :
    feed poly first bytes ^^^ feed poly second bytes =
        (shift poly)^[8 * bytes.length] (first ^^^ second) := by
  induction bytes generalizing first second with
  | nil => rfl
  | cons byte bytes ih =>
      calc
        feed poly first (byte :: bytes) ^^^ feed poly second (byte :: bytes) =
            (shift poly)^[8 * bytes.length]
            (feedByte poly first byte ^^^ feedByte poly second byte) :=
          ih _ _
        _ = (shift poly)^[8 * bytes.length] ((shift poly)^[8] (first ^^^ second)) := by
          rw [feedByte, feedByte, ← iterate_shift_xor, BitVec.xor_comm first,
            BitVec.xor_comm second, xor_xor_xor_self]
        _ = (shift poly)^[8 * (byte :: bytes).length] (first ^^^ second) := by
          rw [← Function.iterate_add_apply, List.length_cons, Nat.mul_succ]

/-- The bytes as the bits of a register, the first byte in the low bits. -/
def word (w : Nat) (bytes : Bytes) : BitVec w := BitVec.ofNat w (leValue bytes)

/-- The bytes in which two inputs differ, with the bits that differ. -/
def difference (first second : Bytes) : Bytes :=
  List.zipWith (fun byte other => byte ^^^ other) first second

theorem leValue_lt_of_fits {bytes : Bytes} (fits : 8 * bytes.length ≤ w) :
    leValue bytes < 2 ^ w := by
  have bound := leValue_lt bytes
  have power : 256 ^ bytes.length = 2 ^ (8 * bytes.length) := by rw [Nat.pow_mul]
  have larger : 2 ^ (8 * bytes.length) ≤ 2 ^ w := Nat.pow_le_pow_right Nat.two_pos fits
  omega

/-- A byte in front of others stands below their bits. -/
theorem leValue_cons_xor (byte : UInt8) (bytes : Bytes) :
    leValue (byte :: bytes) = byte.toNat ^^^ (leValue bytes <<< 8) := by
  have low : byte.toNat < 2 ^ 8 := UInt8.toNat_lt byte
  have value : leValue (byte :: bytes) = 2 ^ 8 * leValue bytes + byte.toNat := Nat.add_comm ..
  apply Nat.eq_of_testBit_eq
  intro i
  have joined := Nat.testBit_two_pow_mul_add (leValue bytes) low i
  rw [value, joined, Nat.testBit_xor, Nat.testBit_shiftLeft]
  by_cases inside : i < 8
  · simp [inside, Nat.not_le.mpr inside]
  · have above : byte.toNat.testBit i = false :=
      Nat.testBit_lt_two_pow (Nat.lt_of_lt_of_le low
        (Nat.pow_le_pow_right Nat.two_pos (Nat.not_lt.mp inside)))
    simp [inside, above, Nat.not_lt.mp inside]

theorem leValue_difference {first second : Bytes} (same : first.length = second.length) :
    leValue (difference first second) = leValue first ^^^ leValue second := by
  induction first generalizing second with
  | nil =>
      cases second with
      | nil => rfl
      | cons byte second => cases same
  | cons byte first ih =>
      cases second with
      | nil => cases same
      | cons other second =>
          have rest := ih (Nat.succ.inj same)
          calc
            leValue (difference (byte :: first) (other :: second)) =
                (byte ^^^ other).toNat ^^^ (leValue (difference first second) <<< 8) :=
                  leValue_cons_xor ..
            _ = (byte.toNat ^^^ (leValue first <<< 8)) ^^^
                (other.toNat ^^^ (leValue second <<< 8)) := by
              rw [rest, UInt8.toNat_xor, Nat.shiftLeft_xor_distrib]
              ac_rfl
            _ = leValue (byte :: first) ^^^ leValue (other :: second) := by
              rw [leValue_cons_xor, leValue_cons_xor]

theorem word_difference {first second : Bytes} (same : first.length = second.length) :
    word w (difference first second) = word w first ^^^ word w second := by
  rw [word, leValue_difference same, BitVec.ofNat_xor]
  rfl

/-- Bytes that fit the register together act as one word. -/
theorem feed_eq_iterate_shift (register : BitVec w) {bytes : Bytes} (fits : 8 * bytes.length ≤ w) :
    feed poly register bytes = (shift poly)^[8 * bytes.length] (register ^^^ word w bytes) := by
  induction bytes generalizing register with
  | nil =>
      have empty : word w [] = 0#w := rfl
      rw [empty, BitVec.xor_zero]
      rfl
  | cons byte bytes ih =>
      rw [List.length_cons] at fits
      have later : (shift poly)^[8] (BitVec.ofNat w (leValue bytes <<< 8)) = word w bytes := by
        have clear : forall i, i < 8 -> (BitVec.ofNat w (leValue bytes <<< 8)).getLsbD i = false := by
          intro i below
          simp [BitVec.getLsbD_ofNat, below]
        have bound : leValue bytes <<< 8 < 2 ^ w := by
          have inner : leValue bytes < 2 ^ (w - 8) := leValue_lt_of_fits (by omega)
          have split : 2 ^ w = 2 ^ (w - 8) * 2 ^ 8 :=
            by rw [← Nat.pow_add, Nat.sub_add_cancel (by omega)]
          rw [Nat.shiftLeft_eq, split]
          omega
        apply BitVec.eq_of_toNat_eq
        rw [iterate_shift_of_clear poly clear, BitVec.toNat_ushiftRight, BitVec.toNat_ofNat,
          Nat.mod_eq_of_lt bound, Nat.shiftLeft_shiftRight, word, BitVec.toNat_ofNat,
            Nat.mod_eq_of_lt (leValue_lt_of_fits (by omega))]
      calc
        feed poly register (byte :: bytes) =
            (shift poly)^[8 * bytes.length] (feedByte poly register byte ^^^ word w bytes) :=
          ih _ (by omega)
        _ = (shift poly)^[8 * bytes.length]
            ((shift poly)^[8] (register ^^^ word w (byte :: bytes))) := by
          rw [feedByte, ← later, ← iterate_shift_xor, BitVec.xor_assoc, ← BitVec.ofNat_xor,
            ← leValue_cons_xor]
          rfl
        _ = (shift poly)^[8 * (byte :: bytes).length] (register ^^^ word w (byte :: bytes)) := by
          rw [← Function.iterate_add_apply, List.length_cons, Nat.mul_succ]

/-- Two inputs that differ in one place. -/
theorem feed_window_xor (register : BitVec w) (front back : Bytes) {first second : Bytes}
    (same : first.length = second.length) (fits : 8 * first.length ≤ w) :
    feed poly register (front ++ first ++ back) ^^^ feed poly register (front ++ second ++ back) =
      (shift poly)^[8 * (first.length + back.length)] (word w first ^^^ word w second) := by
  have apart : feed poly register (front ++ first) ^^^ feed poly register (front ++ second) =
      (shift poly)^[8 * first.length] (word w first ^^^ word w second) := by
    have fitsToo : 8 * second.length ≤ w := same ▸ fits
    rw [feed_append, feed_append, feed_eq_iterate_shift poly (feed poly register front) fits,
      feed_eq_iterate_shift poly (feed poly register front) fitsToo, ← same, ← iterate_shift_xor,
        xor_xor_xor_self]
  rw [feed_append, feed_append poly register (front ++ second), feed_xor_feed, apart,
    ← Function.iterate_add_apply, Nat.mul_add, Nat.add_comm]

/-! ## What is lost -/

/-- The high bit of the polynomial is clear and the bit below it is set. -/
def OneShort : Prop := 2 * poly.toNat < 2 ^ w ∧ 2 ^ w ≤ 4 * poly.toNat

instance : Decidable (OneShort poly) := inferInstanceAs (Decidable (_ ∧ _))

/-- The difference that the polynomial cancels. -/
def lost : BitVec w := BitVec.ofNat w (2 * poly.toNat + 1)

variable {poly}

/-- The high bit of the register has the weight `2 ^ width`. -/
theorem OneShort.exists_half (short : OneShort poly) :
    Exists fun width => w = width + 1 ∧ poly.toNat < 2 ^ width ∧ 2 ^ width ≤ 2 * poly.toNat := by
  rcases short with ⟨clear, set⟩
  cases w with
  | zero =>
      have empty := poly.isLt
      omega
  | succ width =>
      rw [Nat.pow_succ] at clear set
      exact ⟨width, rfl, by omega, by omega⟩

theorem OneShort.toNat_lost (short : OneShort poly) : (lost poly).toNat = 2 * poly.toNat + 1 := by
  rcases short.exists_half with ⟨width, rfl, small, _⟩
  rw [lost, BitVec.toNat_ofNat, Nat.mod_eq_of_lt]
  rw [Nat.pow_succ]
  omega

theorem getLsbD_zero_iff (register : BitVec w) :
    register.getLsbD 0 = true <-> register.toNat % 2 = 1 := by
  rw [BitVec.getLsbD, Nat.testBit_zero, decide_eq_true_iff]

/-- Only zero and the lost difference are shifted down to zero. -/
theorem OneShort.shift_eq_zero_iff (short : OneShort poly) (register : BitVec w) :
    shift poly register = 0#w <-> register = 0#w ∨ register = lost poly := by
  have lostValue := short.toNat_lost
  have low := getLsbD_zero_iff register
  have half : (register >>> 1).toNat = register.toNat / 2 := by
    rw [BitVec.toNat_ushiftRight, Nat.shiftRight_eq_div_pow, Nat.pow_one]
  have zero : (0#w).toNat = 0 := rfl
  rw [shift]
  split
  next one =>
    rw [low] at one
    rw [BitVec.xor_eq_zero_iff, ← BitVec.toNat_inj, ← BitVec.toNat_inj, ← BitVec.toNat_inj]
    omega
  next none =>
    rw [low] at none
    rw [← BitVec.toNat_inj, ← BitVec.toNat_inj, ← BitVec.toNat_inj]
    omega

/-- After a shift the high bit is clear, and the lost difference has it set. -/
theorem OneShort.shift_ne_lost (short : OneShort poly) (register : BitVec w) :
    shift poly register ≠ lost poly := by
  intro same
  have lostValue := short.toNat_lost
  rw [← same] at lostValue
  rcases short.exists_half with ⟨width, rfl, small, large⟩
  have half : (register >>> 1).toNat < 2 ^ width := by
    have bound := register.isLt
    rw [Nat.pow_succ] at bound
    rw [BitVec.toNat_ushiftRight, Nat.shiftRight_eq_div_pow, Nat.pow_one]
    omega
  have clear : (shift poly register).toNat < 2 ^ width := by
    rw [shift]
    split
    · rw [BitVec.toNat_xor]
      exact Nat.xor_lt_two_pow half small
    · exact half
  omega

theorem OneShort.iterate_shift_eq_zero_iff (short : OneShort poly) {count : Nat}
    (positive : 0 < count) (register : BitVec w) :
    (shift poly)^[count] register = 0#w <-> register = 0#w ∨ register = lost poly := by
  induction count generalizing register with
  | zero => exact absurd positive (Nat.lt_irrefl 0)
  | succ count ih =>
      rw [Function.iterate_succ_apply]
      rcases Nat.eq_zero_or_pos count with rfl | more
      · exact short.shift_eq_zero_iff register
      · rw [ih more, short.shift_eq_zero_iff, or_iff_left (short.shift_ne_lost register)]

theorem word_injective {first second : Bytes} (same : first.length = second.length)
    (fits : 8 * first.length ≤ w) (equal : word w first = word w second) : first = second := by
  have values := congrArg BitVec.toNat equal
  rw [word, word, BitVec.toNat_ofNat, BitVec.toNat_ofNat, Nat.mod_eq_of_lt (leValue_lt_of_fits fits),
    Nat.mod_eq_of_lt (leValue_lt_of_fits (same ▸ fits))] at values
  rw [← leBytes_leValue first, ← leBytes_leValue second, same, values]

/-- Two different inputs that differ in one window no longer than the register have the same
checksum exactly when the difference is the lost one. -/
theorem OneShort.feed_window_eq_iff (short : OneShort poly) (register : BitVec w)
    (front back : Bytes) {first second : Bytes} (same : first.length = second.length)
    (fits : 8 * first.length ≤ w) (different : first ≠ second) :
    feed poly register (front ++ first ++ back) = feed poly register (front ++ second ++ back) <->
      word w (difference first second) = lost poly := by
  have some : 0 < first.length := by
    apply Nat.pos_of_ne_zero
    intro none
    have firstEmpty := List.length_eq_zero_iff.mp none
    have secondEmpty := List.length_eq_zero_iff.mp (same ▸ none)
    exact different (firstEmpty.trans secondEmpty.symm)
  rw [← BitVec.xor_eq_zero_iff, feed_window_xor poly register front back same fits,
    short.iterate_shift_eq_zero_iff (by omega), BitVec.xor_eq_zero_iff,
      word_difference same, or_iff_right]
  exact fun equal => different (word_injective same fits equal)

end ShiftRegister
end KVStore

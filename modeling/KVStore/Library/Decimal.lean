import KVStore.Library.Framing
import Mathlib.Data.List.TakeWhile
import Mathlib.Data.List.Induction

namespace KVStore
namespace Decimal

/-!
# Decimal numbers on a byte stream

Printing a number in base ten, and reading one back the way `std::stoll`
does: leading white space and one sign are skipped, the longest run of digits
is taken, and anything behind it is ignored.  Reading inverts printing on the
64-bit range.  In the other direction the reader is not canonical, but a text
it accepts is never shorter than the printed form of its value.

The readers of Go differ in what they make of the bytes around the digits:
`strconv.Atoi` and `strconv.ParseUint` accept none, and `fmt.Sscanf` ignores
those behind the number.
-/

/-! ## Unsigned numbers -/

/-- The decimal digits of a number, most significant first. -/
def showNat (value : Nat) : Bytes :=
  if value < 10 then [UInt8.ofNat (48 + value)]
  else showNat (value / 10) ++ [UInt8.ofNat (48 + value % 10)]
termination_by value
decreasing_by omega

def isDigit (byte : UInt8) : Bool := decide (48 ≤ byte.toNat ∧ byte.toNat ≤ 57)

/-- The value of a run of decimal digits. -/
def digitsValue (digits : Bytes) : Nat :=
  digits.foldl (fun value digit => 10 * value + (digit.toNat - 48)) 0

theorem digit_toNat {digit : Nat} (small : digit < 10) :
    (UInt8.ofNat (48 + digit)).toNat = 48 + digit := by
  rw [UInt8.toNat_ofNat']
  omega

theorem isDigit_digit {digit : Nat} (small : digit < 10) :
    isDigit (UInt8.ofNat (48 + digit)) = true := by
  rw [isDigit, digit_toNat small]
  exact decide_eq_true (by omega)

theorem digitsValue_append (front : Bytes) (last : UInt8) :
    digitsValue (front ++ [last]) = 10 * digitsValue front + (last.toNat - 48) := by
  simp only [digitsValue, List.foldl_append, List.foldl_cons, List.foldl_nil]

variable {value : Nat}

theorem showNat_small (small : value < 10) :
    showNat value = [UInt8.ofNat (48 + value)] := by
  rw [showNat, if_pos small]

theorem showNat_large (large : ¬ value < 10) :
    showNat value = showNat (value / 10) ++ [UInt8.ofNat (48 + value % 10)] := by
  rw [showNat, if_neg large]

theorem showNat_ne_nil (value : Nat) : showNat value ≠ [] := by
  by_cases small : value < 10
  · rw [showNat_small small]
    exact List.cons_ne_nil _ _
  · rw [showNat_large small]
    exact List.append_ne_nil_of_right_ne_nil _ (List.cons_ne_nil _ _)

theorem isDigit_of_mem_showNat {byte : UInt8} (member : byte ∈ showNat value) :
    isDigit byte = true := by
  induction value using Nat.strong_induction_on with
  | _ value ih =>
      by_cases small : value < 10
      · rw [showNat_small small, List.mem_singleton] at member
        exact member ▸ isDigit_digit small
      · rw [showNat_large small, List.mem_append, List.mem_singleton] at member
        rcases member with earlier | last
        · exact ih (value / 10) (by omega) earlier
        · exact last ▸ isDigit_digit (by omega)

theorem digitsValue_showNat (value : Nat) : digitsValue (showNat value) = value := by
  induction value using Nat.strong_induction_on with
  | _ value ih =>
      by_cases small : value < 10
      · rw [showNat_small small]
        simp only [digitsValue, List.foldl_cons, List.foldl_nil, digit_toNat small]
        omega
      · rw [showNat_large small, digitsValue_append, ih (value / 10) (by omega),
          digit_toNat (by omega)]
        omega

theorem digitsValue_lt {digits : Bytes} (run : forall byte, byte ∈ digits -> isDigit byte = true) :
    digitsValue digits < 10 ^ digits.length := by
  induction digits using List.reverseRecOn with
  | nil => exact Nat.one_pos
  | append_singleton front last ih =>
      have frontRun := fun byte member => run byte (List.mem_append_left [last] member)
      have lastDigit := of_decide_eq_true (run last (List.mem_append_right front List.mem_cons_self))
      have bound := ih frontRun
      rw [digitsValue_append, List.length_append, List.length_singleton, Nat.pow_succ]
      omega

theorem length_showNat_le {value count : Nat} (positive : 0 < count) (bound : value < 10 ^ count) :
    (showNat value).length ≤ count := by
  induction count generalizing value with
  | zero => exact False.elim (Nat.lt_irrefl 0 positive)
  | succ count ih =>
      by_cases small : value < 10
      · rw [showNat_small small, List.length_singleton]
        omega
      · have inner : value / 10 < 10 ^ count := by
          rw [Nat.pow_succ] at bound
          omega
        have countPositive : 0 < count := by
          rcases Nat.eq_zero_or_pos count with zero | more
          · subst zero
            rw [Nat.pow_zero] at inner
            omega
          · exact more
        rw [showNat_large small, List.length_append, List.length_singleton]
        exact Nat.succ_le_succ (ih countPositive inner)

/-- No nonempty run of digits is shorter than the printed form of its value. -/
theorem length_showNat_digitsValue {digits : Bytes} (nonempty : digits ≠ [])
    (run : forall byte, byte ∈ digits -> isDigit byte = true) :
    (showNat (digitsValue digits)).length ≤ digits.length :=
  length_showNat_le (List.length_pos_iff.mpr nonempty) (digitsValue_lt run)

/-! ## Signed numbers and `std::stoll` -/

/-- The printed form of a signed number. -/
def showInt (value : Int) : Bytes :=
  if value < 0 then 45 :: showNat value.natAbs else showNat value.natAbs

/-- White space in the sense of `isspace` in the default locale. -/
def isSpace (byte : UInt8) : Bool := decide (byte.toNat = 32 ∨ 9 ≤ byte.toNat ∧ byte.toNat ≤ 13)

/-- Split one optional sign off a text.  The flag says that it is a minus. -/
def splitSign : Bytes -> Bool × Bytes
  | [] => (false, [])
  | byte :: rest =>
      if byte.toNat = 45 then (true, rest)
      else if byte.toNat = 43 then (false, rest)
      else (false, byte :: rest)

/-- The number denoted by a sign and a run of digits. -/
def signedValue (minus : Bool) (digits : Bytes) : Int :=
  if minus then -(digitsValue digits : Int) else digitsValue digits

/-- `std::stoll` in base ten, with both of its exceptions rendered as `none`:
no digits (`invalid_argument`), or a value outside the range (`out_of_range`). -/
def stoll (text : Bytes) : Option Int64 :=
  let signed := splitSign (text.dropWhile isSpace)
  let digits := signed.2.takeWhile isDigit
  let value := signedValue signed.1 digits
  if digits = [] then none
  else if -2 ^ 63 ≤ value ∧ value < 2 ^ 63 then some (Int64.ofInt value)
  else none

theorem toInt_ofInt_of_range {value : Int} (low : -2 ^ 63 ≤ value) (high : value < 2 ^ 63) :
    (Int64.ofInt value).toInt = value := by
  rw [Int64.toInt_ofInt]
  exact Int.bmod_eq_of_le low high

theorem toInt_ofInt_natCast (bound : value < 2 ^ 63) : (Int64.ofInt value).toInt = value :=
  toInt_ofInt_of_range (by omega) (by omega)

theorem not_ofInt_natCast_neg (bound : value < 2 ^ 63) : ¬ Int64.ofInt value < 0 := by
  rw [Int64.lt_iff_toInt_lt, toInt_ofInt_natCast bound]
  exact Int.not_lt.mpr (Int.natCast_nonneg value)

theorem takeWhile_showNat (value : Nat) : (showNat value).takeWhile isDigit = showNat value :=
  List.takeWhile_eq_self_iff.mpr (fun _ member => isDigit_of_mem_showNat member)

theorem isSpace_eq_false_of_isDigit {byte : UInt8} (digit : isDigit byte = true) :
    isSpace byte = false := by
  have range := of_decide_eq_true digit
  exact decide_eq_false (by omega)

theorem splitSign_of_isDigit {byte : UInt8} (digit : isDigit byte = true) (rest : Bytes) :
    splitSign (byte :: rest) = (false, byte :: rest) := by
  have range := of_decide_eq_true digit
  rw [splitSign, if_neg (by omega), if_neg (by omega)]

/-- Printed unsigned numbers start with a digit: neither white space nor a sign
is skipped in front of them. -/
theorem splitSign_dropWhile_showNat (value : Nat) :
    splitSign ((showNat value).dropWhile isSpace) = (false, showNat value) := by
  cases printed : showNat value with
  | nil => exact False.elim (showNat_ne_nil value printed)
  | cons byte rest =>
      have digit : isDigit byte = true := isDigit_of_mem_showNat (printed ▸ List.mem_cons_self)
      rw [List.dropWhile_cons, isSpace_eq_false_of_isDigit digit]
      exact splitSign_of_isDigit digit rest

theorem stoll_showNat (value : Nat) (bound : value < 2 ^ 63) :
    stoll (showNat value) = some (Int64.ofInt value) := by
  simp only [stoll, splitSign_dropWhile_showNat, takeWhile_showNat, signedValue,
    digitsValue_showNat, if_neg (showNat_ne_nil value), Bool.false_eq_true, if_false]
  rw [if_pos ⟨by omega, by omega⟩]

/-- A printed number beyond the 64-bit range makes `std::stoll` throw. -/
theorem stoll_showNat_overflow (value : Nat) (bound : 2 ^ 63 ≤ value) :
    stoll (showNat value) = none := by
  simp only [stoll, splitSign_dropWhile_showNat, takeWhile_showNat, signedValue,
    digitsValue_showNat, if_neg (showNat_ne_nil value), Bool.false_eq_true, if_false]
  rw [if_neg (by omega)]

theorem stoll_minus_showNat (value : Nat) (bound : value ≤ 2 ^ 63) :
    stoll (45 :: showNat value) = some (Int64.ofInt (-value)) := by
  have sign : splitSign ((45 :: showNat value).dropWhile isSpace) = (true, showNat value) := by
    rw [List.dropWhile_cons]
    rfl
  simp only [stoll, sign, takeWhile_showNat, signedValue, digitsValue_showNat,
    if_neg (showNat_ne_nil value), if_true]
  rw [if_pos ⟨by omega, by omega⟩]

/-- Reading inverts printing for every 64-bit number. -/
theorem stoll_showInt (value : Int64) : stoll (showInt value.toInt) = some value := by
  have low := value.le_toInt
  have high := value.toInt_lt
  by_cases negative : value.toInt < 0
  · rw [showInt, if_pos negative, stoll_minus_showNat _ (by omega)]
    have restored : -(value.toInt.natAbs : Int) = value.toInt := by omega
    rw [restored, Int64.ofInt_toInt]
  · rw [showInt, if_neg negative, stoll_showNat _ (by omega)]
    have restored : (value.toInt.natAbs : Int) = value.toInt := by omega
    rw [restored, Int64.ofInt_toInt]

theorem showInt_injective {value other : Int} (same : showInt value = showInt other) :
    value = other := by
  have digits (size : Nat) : forall byte, byte ∈ showNat size -> byte ≠ 45 := by
    intro byte member minus
    exact absurd (isDigit_of_mem_showNat member) (by rw [minus]; decide)
  have number {size another : Nat} (shown : showNat size = showNat another) : size = another := by
    have values := congrArg digitsValue shown
    rwa [digitsValue_showNat, digitsValue_showNat] at values
  rw [showInt, showInt] at same
  split at same <;> split at same
  · injection same with _ shown
    have values := number shown
    omega
  · exact absurd rfl (digits _ 45 (same ▸ List.mem_cons_self))
  · exact absurd rfl (digits _ 45 (same ▸ List.mem_cons_self))
  · have values := number same
    omega

theorem length_splitSign_le (text : Bytes) :
    (splitSign text).2.length + (if (splitSign text).1 then 1 else 0) ≤ text.length := by
  cases text with
  | nil => exact Nat.le_refl 0
  | cons byte rest =>
      rw [splitSign]
      by_cases minus : byte.toNat = 45
      · rw [if_pos minus]
        exact Nat.le_refl _
      · rw [if_neg minus]
        by_cases plus : byte.toNat = 43
        · rw [if_pos plus]
          exact Nat.le_succ _
        · rw [if_neg plus]
          exact Nat.le_refl _

variable {text : Bytes}

/-- What an accepted text consists of: a sign and a nonempty run of digits
fit into it, and they determine the value. -/
theorem stoll_eq_some {value : Int64} (accepted : stoll text = some value) :
    Exists fun minus : Bool => Exists fun digits : Bytes =>
      digits ≠ [] ∧ (forall byte, byte ∈ digits -> isDigit byte = true) ∧
        digits.length + (if minus then 1 else 0) ≤ text.length ∧
        value.toInt = signedValue minus digits := by
  have spaceLength := (text.dropWhile_suffix isSpace).length_le
  have signLength := length_splitSign_le (text.dropWhile isSpace)
  let signed := splitSign (text.dropWhile isSpace)
  have digitsStart : signed.2.takeWhile isDigit <+: signed.2 := List.takeWhile_prefix isDigit
  have digitsLength := digitsStart.length_le
  refine ⟨signed.1, signed.2.takeWhile isDigit, ?_⟩
  simp only [stoll] at accepted
  by_cases empty : signed.2.takeWhile isDigit = []
  · rw [if_pos empty] at accepted
    cases accepted
  · rw [if_neg empty] at accepted
    by_cases range : -2 ^ 63 ≤ signedValue signed.1 (signed.2.takeWhile isDigit) ∧
        signedValue signed.1 (signed.2.takeWhile isDigit) < 2 ^ 63
    · rw [if_pos range] at accepted
      cases accepted
      refine ⟨empty, fun byte member => List.mem_takeWhile_imp member, ?_, ?_⟩
      · exact Nat.le_trans (Nat.add_le_add_right digitsLength _) (Nat.le_trans signLength spaceLength)
      · exact toInt_ofInt_of_range range.1 range.2
    · rw [if_neg range] at accepted
      cases accepted

/-- A text accepted by `std::stoll` is at least as long as the printed form
of its value: leading white space, a plus sign, leading zeros and trailing
bytes only make it longer. -/
theorem length_showInt_le_of_stoll {value : Int64} (accepted : stoll text = some value) :
    (showInt value.toInt).length ≤ text.length := by
  rcases stoll_eq_some accepted with ⟨minus, digits, nonempty, run, length, result⟩
  have printed := length_showNat_digitsValue nonempty run
  have abs : value.toInt.natAbs = digitsValue digits := by
    rw [result, signedValue]
    cases minus <;> simp only [Bool.false_eq_true, if_false, if_true] <;> omega
  rw [showInt, abs]
  split
  · rename_i negative
    cases minus with
    | false =>
        simp only [signedValue, Bool.false_eq_true, if_false] at result
        omega
    | true =>
        simp only [if_true] at length
        rw [List.length_cons]
        omega
  · omega

/-! ## Numbers with nothing around them -/

/-- A text that is an optional sign and digits, and nothing else. -/
def Plain (text : Bytes) : Prop := (splitSign text).2 ≠ [] ∧ (splitSign text).2.all isDigit = true

instance (text : Bytes) : Decidable (Plain text) := inferInstanceAs (Decidable (_ ∧ _))

/-- The number that such a text denotes. -/
def plainValue (text : Bytes) : Int := signedValue (splitSign text).1 (splitSign text).2

/-- The bytes of a plain number are its sign and its digits. -/
theorem Plain.cons_cases {byte : UInt8} {rest : Bytes} (plain : Plain (byte :: rest)) :
    (byte.toNat = 45 ∨ byte.toNat = 43 ∨ isDigit byte = true) ∧ forall other, other ∈ rest ->
        isDigit other = true := by
  rcases plain with ⟨_, digits⟩
  rw [splitSign] at digits
  split at digits
  · exact ⟨Or.inl ‹_›, List.all_eq_true.mp digits⟩
  · split at digits
    · exact ⟨Or.inr (Or.inl ‹_›), List.all_eq_true.mp digits⟩
    · have all := List.all_eq_true.mp digits
      exact ⟨Or.inr (Or.inr (all byte List.mem_cons_self)), fun other member =>
        all other (List.mem_cons_of_mem _ member)⟩

theorem Plain.dropWhile_isSpace (plain : Plain text) : text.dropWhile isSpace = text := by
  cases text with
  | nil => rfl
  | cons byte rest =>
      have visible : isSpace byte = false := by
        rcases plain.cons_cases.1 with minus | plus | digit
        · exact decide_eq_false (by omega)
        · exact decide_eq_false (by omega)
        · exact isSpace_eq_false_of_isDigit digit
      rw [List.dropWhile_cons, visible]
      rfl

/-- `std::stoll` reads a plain number as what it denotes. -/
theorem Plain.toInt_of_stoll (plain : Plain text) {value : Int64}
    (accepted : stoll text = some value) :
    value.toInt = plainValue text := by
  have whole : (splitSign text).2.takeWhile isDigit = (splitSign text).2 :=
    List.takeWhile_eq_self_iff.mpr (List.all_eq_true.mp plain.2)
  simp only [stoll, plain.dropWhile_isSpace, whole, if_neg plain.1] at accepted
  split at accepted
  · rename_i range
    cases accepted
    exact toInt_ofInt_of_range range.1 range.2
  · cases accepted

/-! ## The readers of Go -/

/-- A sign and digits as a signed number of 64 bits, if it is one. -/
def int64Value (minus : Bool) (digits : Bytes) : Option Int64 :=
  if -2 ^ 63 ≤ signedValue minus digits ∧ signedValue minus digits < 2 ^ 63 then
    some (Int64.ofInt (signedValue minus digits))
  else none

/-- `strconv.Atoi`: a sign and digits, and nothing else.  `none` is an error. -/
def atoi (text : Bytes) : Option Int64 :=
  let signed := splitSign text
  if signed.2 ≠ [] ∧ signed.2.all isDigit then int64Value signed.1 signed.2 else none

/-- `fmt.Sscanf` with the verb `%d`, on a text that does not start with white
space: a sign and as many digits as there are.  What follows is left unread. -/
def scanInt (text : Bytes) : Option Int64 :=
  let signed := splitSign text
  let digits := signed.2.takeWhile isDigit
  if digits = [] then none else int64Value signed.1 digits

/-- `strconv.ParseUint` in base ten for 64 bits. -/
def parseUint (text : Bytes) : Option Nat :=
  if text ≠ [] ∧ text.all isDigit ∧ digitsValue text < 2 ^ 64 then some (digitsValue text) else none

theorem parseUint_lt (parsed : parseUint text = some value) : value < 2 ^ 64 := by
  rw [parseUint] at parsed
  split at parsed
  · rename_i digits
    cases parsed
    exact digits.2.2
  · cases parsed

theorem all_isDigit_showNat (value : Nat) : (showNat value).all isDigit = true :=
  List.all_eq_true.mpr fun _ member => isDigit_of_mem_showNat member

theorem splitSign_showNat (value : Nat) : splitSign (showNat value) = (false, showNat value) := by
  cases printed : showNat value with
  | nil => exact absurd printed (showNat_ne_nil value)
  | cons byte rest =>
      exact splitSign_of_isDigit (isDigit_of_mem_showNat (printed ▸ List.mem_cons_self)) rest

theorem atoi_showNat (bound : value < 2 ^ 63) :
    atoi (showNat value) = some (Int64.ofInt value) := by
  simp only [atoi, splitSign_showNat]
  rw [if_pos ⟨showNat_ne_nil value, all_isDigit_showNat value⟩, int64Value]
  simp only [signedValue, Bool.false_eq_true, if_false, digitsValue_showNat]
  rw [if_pos ⟨by omega, by omega⟩]

theorem parseUint_showNat (bound : value < 2 ^ 64) : parseUint (showNat value) = some value := by
  rw [parseUint, digitsValue_showNat, if_pos ⟨showNat_ne_nil value, all_isDigit_showNat value, bound⟩]

/-- Where `strconv.Atoi` finds a number, `fmt.Sscanf` finds the same one. -/
theorem scanInt_of_atoi {value : Int64} (accepted : atoi text = some value) :
    scanInt text = some value := by
  simp only [atoi] at accepted
  split at accepted
  next digits =>
    have whole : (splitSign text).2.takeWhile isDigit = (splitSign text).2 :=
      List.takeWhile_eq_self_iff.mpr (List.all_eq_true.mp digits.2)
    simp only [scanInt, whole]
    rw [if_neg digits.1]
    exact accepted
  next => cases accepted

/-! ## Texts that go on -/

/-- A text is open when more bytes may still change its number:  it is white space, with a sign
and digits behind it, and nothing else. -/
def Open (text : Bytes) : Prop := (splitSign (text.dropWhile isSpace)).2.all isDigit = true

instance (text : Bytes) : Decidable (Open text) := inferInstanceAs (Decidable (_ = _))

/-- The number that a text denotes, however it goes on. -/
def settled (text : Bytes) : Option Int64 := if Open text then none else stoll text

theorem splitSign_append (nonempty : text ≠ []) (more : Bytes) :
    splitSign (text ++ more) = ((splitSign text).1, (splitSign text).2 ++ more) := by
  cases text with
  | nil => exact absurd rfl nonempty
  | cons byte rest =>
      simp only [List.cons_append, splitSign]
      split
      · rfl
      · split <;> rfl

theorem dropWhile_isSpace_append (shown : text.dropWhile isSpace ≠ []) (more : Bytes) :
    (text ++ more).dropWhile isSpace = text.dropWhile isSpace ++ more := by
  rw [List.dropWhile_append, if_neg (by simpa using shown)]

theorem dropWhile_ne_nil_of_not_open (closed : ¬ Open text) : text.dropWhile isSpace ≠ [] := by
  intro blank
  rw [Open, blank] at closed
  exact closed rfl

/-- The sign and what follows it, in a longer text. -/
theorem splitSign_dropWhile_append (shown : text.dropWhile isSpace ≠ []) (more : Bytes) :
    splitSign ((text ++ more).dropWhile isSpace) =
      ((splitSign (text.dropWhile isSpace)).1, (splitSign (text.dropWhile isSpace)).2 ++ more) := by
  rw [dropWhile_isSpace_append shown, splitSign_append shown]

/-- Behind the first byte that is no digit nothing is read. -/
theorem stoll_append_of_not_open (closed : ¬ Open text) (more : Bytes) :
    stoll (text ++ more) = stoll text := by
  have shown := dropWhile_ne_nil_of_not_open closed
  have stops : ((splitSign (text.dropWhile isSpace)).2 ++ more).takeWhile isDigit =
      (splitSign (text.dropWhile isSpace)).2.takeWhile isDigit := by
    rw [List.takeWhile_append, if_neg]
    intro whole
    apply closed
    have same := (List.takeWhile_prefix isDigit).eq_of_length whole
    exact List.all_eq_true.mpr (List.takeWhile_eq_self_iff.mp same)
  simp only [stoll, splitSign_dropWhile_append shown, stops]

theorem not_open_append (closed : ¬ Open text) (more : Bytes) : ¬ Open (text ++ more) := by
  have shown := dropWhile_ne_nil_of_not_open closed
  intro digits
  rw [Open, splitSign_dropWhile_append shown, List.all_append, Bool.and_eq_true] at digits
  exact closed digits.1

theorem stoll_of_settled {value : Int64} (found : settled text = some value) (more : Bytes) :
    stoll (text ++ more) = some value ∧ settled (text ++ more) = some value := by
  rw [settled] at found
  split at found
  · cases found
  · rename_i closed
    have same := stoll_append_of_not_open closed more
    refine ⟨same.trans found, ?_⟩
    rw [settled, if_neg (not_open_append closed more), same, found]

/-- A carriage return at the end of a text does not show. -/
theorem stoll_append_return (text : Bytes) : stoll (text ++ [13]) = stoll text := by
  by_cases blank : text.dropWhile isSpace = []
  · have still : (text ++ [13]).dropWhile isSpace = [] := by
      rw [List.dropWhile_append, if_pos (by simp [blank])]
      rfl
    simp only [stoll, blank, still]
  · have stops : ((splitSign (text.dropWhile isSpace)).2 ++ [13]).takeWhile isDigit =
        (splitSign (text.dropWhile isSpace)).2.takeWhile isDigit := by
      rw [List.takeWhile_append]
      split
      · rename_i whole
        have same := (List.takeWhile_prefix isDigit).eq_of_length whole
        rw [same]
        exact List.append_nil _
      · rfl
    simp only [stoll, splitSign_dropWhile_append blank, stops]

/-- Nineteen nines, behind which no text denotes a number that fits. -/
def nines : Bytes := List.replicate 19 57

theorem digitsValue_append_ge (front back : Bytes) :
    digitsValue back ≤ digitsValue (front ++ back) := by
  induction back using List.reverseRecOn with
  | nil => exact Nat.zero_le _
  | append_singleton back last ih =>
      rw [← List.append_assoc, digitsValue_append, digitsValue_append]
      omega

theorem stoll_eq_none_of_large
    (large : 2 ^ 63 < digitsValue ((splitSign (text.dropWhile isSpace)).2.takeWhile isDigit)) :
    stoll text = none := by
  simp only [stoll]
  split
  · rfl
  · rw [if_neg]
    rintro ⟨low, high⟩
    rw [signedValue] at low high
    cases minus : (splitSign (text.dropWhile isSpace)).1 with
    | true =>
        rw [minus, if_pos rfl] at low
        omega
    | false =>
        rw [minus, if_neg Bool.false_ne_true] at high
        omega

/-- An open text followed by nines is out of range. -/
theorem stoll_append_nines (unsettled : settled text = none) : stoll (text ++ nines) = none := by
  rw [settled] at unsettled
  split at unsettled
  · rename_i digits
    apply stoll_eq_none_of_large
    have large : 2 ^ 63 < digitsValue nines := by decide
    by_cases blank : text.dropWhile isSpace = []
    · have shape : (text ++ nines).dropWhile isSpace = nines := by
        rw [List.dropWhile_append, if_pos (by simp [blank])]
        rfl
      rw [shape]
      exact large
    · have whole : ((splitSign (text.dropWhile isSpace)).2 ++ nines).takeWhile isDigit =
          (splitSign (text.dropWhile isSpace)).2 ++ nines := by
        apply List.takeWhile_eq_self_iff.mpr
        apply List.all_eq_true.mp
        rw [List.all_append, digits]
        rfl
      rw [splitSign_dropWhile_append blank, whole]
      exact Nat.lt_of_lt_of_le large (digitsValue_append_ge _ _)
  · rw [stoll_append_of_not_open ‹_›]
    exact unsettled

end Decimal
end KVStore

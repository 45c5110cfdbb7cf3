import KVStore.Server.Replicated

namespace KVStore
namespace Server

open Engine Decimal Resp

variable {P : Platform}

/-!
# Expiry times of a SET

A time to live passes through a multiplication to nanoseconds, a test of its sign and an
addition to the clock before it is stored.  The addition cannot overflow, because both of
its terms are below `2 ^ 63`.  The multiplication can:  it is done on the type of
`time.Duration`, which has 64 bits, after the number has been accepted.

A product that wraps to a negative number makes the entry immortal, and one that wraps to
a positive number makes it expire early.
-/

/-! ## What is stored -/

/-- `expiry_ns` of the entry of a key. -/
def storedExpiry (handle : Option (EngineHandle P)) (key : Bytes) : Option UInt64 :=
  handle.bind fun h => (h.table.view key).map Prod.snd

/-- The moment that a SET stores for a time to live. -/
theorem storedExpiry_set {h : EngineHandle P} (wf : h.table.WF) {value : Bytes}
    (small : value.length ≤ 512 * 1024) (key : Bytes) (ttl : Int64) (moment : Moment) :
    storedExpiry (GoEngine.set (some h) key value ttl moment).1 key =
      some (expiryOf (if ttl > 0 then ttl else 0) moment.now) := by
  rw [GoEngine.set, engineSet]
  simp only [if_neg (Nat.not_lt.mpr small), storedExpiry, Option.bind_some, view_insert wf, if_true,
    Option.map_some]
  rfl

/-- A stored moment is that of the exact time to live when this fits into 63 bits, and another
one when it does not. -/
theorem expiryOf_exact_iff {ttl : Int64} {exact : Int} (positive : 0 < exact)
    (wrapped : ttl.toInt = exact.bmod (2 ^ 64)) (now : Clock) :
    ((expiryOf (if ttl > 0 then ttl else 0) now).toNat : Int) = now.val + exact <->
      exact < 2 ^ 63 := by
  have high := ttl.toInt_lt
  constructor
  · intro same
    by_cases sign : ttl > 0
    · rw [if_pos sign, toNat_expiryOf sign now] at same
      omega
    · have immortal : (expiryOf 0 now).toNat = 0 := rfl
      rw [if_neg sign, immortal] at same
      omega
  · intro fits
    rw [Int.bmod_eq_of_le (by omega) (by omega)] at wrapped
    have sign : ttl > 0 := Int64.lt_iff_toInt_lt.mpr (by rw [wrapped]; exact positive)
    rw [if_pos sign, toNat_expiryOf sign now, wrapped]

/-! ## Options of a command -/

inductive TimeUnit where
  | second
  | millisecond

/-- `time.Second` and `time.Millisecond`. -/
def TimeUnit.duration : TimeUnit -> Int64
  | .second => 1000000000
  | .millisecond => 1000000

theorem TimeUnit.duration_pos (unit : TimeUnit) : 0 < unit.duration.toInt := by
  cases unit <;> decide

/-- The last option that is accepted:  its number and its unit. -/
def acceptedOption (toUpper : Bytes -> Bytes) :
    Option (Int64 × TimeUnit) -> List Bytes -> Option (Int64 × TimeUnit)
  | accepted, option :: argument :: rest =>
      if toUpper option = text "EX" then
        match atoi argument with
        | some seconds => acceptedOption toUpper (some (seconds, .second)) rest
        | none => acceptedOption toUpper accepted rest
      else if toUpper option = text "PX" then
        match atoi argument with
        | some ms => acceptedOption toUpper (some (ms, .millisecond)) rest
        | none => acceptedOption toUpper accepted rest
      else acceptedOption toUpper accepted (argument :: rest)
  | accepted, _ => accepted

/-- The time to live of an option, as the server computes it. -/
def optionTtl : Option (Int64 × TimeUnit) -> Int64
  | none => 0
  | some (number, unit) => number * unit.duration

theorem optionsTtl_eq (toUpper : Bytes -> Bytes) (accepted : Option (Int64 × TimeUnit))
    (options : List Bytes) :
    optionsTtl toUpper (optionTtl accepted) options =
        optionTtl (acceptedOption toUpper accepted options) := by
  induction accepted, options using acceptedOption.induct toUpper with
  | case1 accepted option argument rest isEX seconds parsed ih =>
      rw [optionsTtl, acceptedOption, if_pos isEX, if_pos isEX]
      simp only [parsed]
      exact ih
  | case2 accepted option argument rest isEX parsed ih =>
      rw [optionsTtl, acceptedOption, if_pos isEX, if_pos isEX]
      simp only [parsed]
      exact ih
  | case3 accepted option argument rest notEX isPX ms parsed ih =>
      rw [optionsTtl, acceptedOption, if_neg notEX, if_neg notEX, if_pos isPX, if_pos isPX]
      simp only [parsed]
      exact ih
  | case4 accepted option argument rest notEX isPX parsed ih =>
      rw [optionsTtl, acceptedOption, if_neg notEX, if_neg notEX, if_pos isPX, if_pos isPX]
      simp only [parsed]
      exact ih
  | case5 accepted option argument rest notEX notPX ih =>
      rw [optionsTtl, acceptedOption, if_neg notEX, if_neg notEX, if_neg notPX, if_neg notPX]
      exact ih
  | case6 accepted options short => rw [optionsTtl, acceptedOption] <;> exact short

theorem ttl_of_acceptedOption {toUpper : Bytes -> Bytes} {options : List Bytes} {number : Int64}
    {unit : TimeUnit} (accepted : acceptedOption toUpper none options = some (number, unit)) :
    optionsTtl toUpper 0 options = number * unit.duration := by
  have computed := optionsTtl_eq toUpper none options
  rw [accepted] at computed
  exact computed

/-! ## The engine of a server -/

/-- The tables of an engine stay well formed. -/
theorem exists_reached {numThreads : Int} {memLimitBytes : Nat} {handle : EngineHandle P}
    (created : engineCreate P numThreads memLimitBytes = some handle) (calls : List ApiCall) :
    Exists fun h => runApi (some handle) calls = some h ∧ h.table.WF := by
  have fresh := table_of_created created
  have wf : handle.table.WF := fresh ▸ defaultConfig.wf_fresh none
  exact ⟨_, runApi_some handle calls, wf_runCalls wf _⟩

theorem toInt_seconds (seconds : Nat) (bound : seconds < 2 ^ 64) :
    (secondsTtl (UInt64.ofNat seconds).toInt64).toInt =
        ((seconds : Int) * 1000000000).bmod (2 ^ 64) := by
  have number : (UInt64.ofNat seconds).toInt64.toInt = (seconds : Int).bmod (2 ^ 64) := by
    change (UInt64.ofNat seconds).toBitVec.toInt = _
    rw [BitVec.toInt_eq_toNat_bmod]
    change (((UInt64.ofNat seconds).toNat : Int)).bmod _ = _
    rw [UInt64.toNat_ofNat', Nat.mod_eq_of_lt bound]
  have unit : (1000000000 : Int64).toInt = 1000000000 := by decide
  rw [secondsTtl, Int64.toInt_mul, number, unit, Int.bmod_mul_bmod]

/-- A SET with an accepted time to live, by the RESP server and by the apply loop of the sharded
server, on an engine after any calls:  the entry gets the exact moment of its end exactly when
the nanoseconds fit into 63 bits. -/
theorem expiry_exact_iff (P : Platform) (numThreads : Int) (memLimitBytes : Nat)
    (handle : EngineHandle P) (created : engineCreate P numThreads memLimitBytes = some handle)
    (calls : List ApiCall) (moment : Moment) (toUpper : Bytes -> Bytes) (key value : Bytes)
    (small : value.length ≤ 512 * 1024) :
    (forall (first : Bytes) (options : List Bytes) (number : Int64) (unit : TimeUnit),
      toUpper first = text "SET" ->
        acceptedOption toUpper none options = some (number, unit) -> 0 < number.toInt ->
        ((Exists fun expiry => storedExpiry
              ((handleCommand toUpper (first :: key :: value :: options)).run
                (runApi (some handle) calls) moment).1 key =
            some expiry ∧ (expiry.toNat : Int) =
              moment.now.val + number.toInt * unit.duration.toInt) <->
          number.toInt * unit.duration.toInt < 2 ^ 63)) ∧
      forall (command seconds : Bytes) (others : List Bytes) (number : Nat),
        Words.fields command = text "SET" :: key :: value :: seconds :: others ->
          parseUint seconds = some number ->
        0 < number ->
        Exists fun ttl => Sharded.applyLoop command = some (.set key value ttl) ∧
          ((Exists fun expiry =>
              storedExpiry (GoEngine.set (runApi (some handle) calls) key value ttl moment).1 key
                = some expiry ∧
                (expiry.toNat : Int) = moment.now.val + number * 1000000000) <->
            (number : Int) * 1000000000 < 2 ^ 63) := by
  rcases exists_reached created calls with ⟨h, reached, wf⟩
  rw [reached]
  constructor
  · intro first options number unit isSet accepted positive
    have ttl := ttl_of_acceptedOption accepted
    have command : handleCommand toUpper (first :: key :: value :: options) =
        .sets key value (number * unit.duration) setReply := by
      rw [handleCommand]
      simp only [isSet, set_ne_ping, if_false, if_true, ttl]
    rw [command, Exchange.run]
    change (Exists fun expiry => storedExpiry (GoEngine.set (some h) key value _ moment).1 key
      = _ ∧ _) <-> _
    rw [storedExpiry_set wf small]
    have exact := expiryOf_exact_iff (Int.mul_pos positive unit.duration_pos)
      (Int64.toInt_mul number unit.duration) moment.now
    simpa using exact
  · intro command seconds others number words parsed positive
    refine ⟨secondsTtl (UInt64.ofNat number).toInt64, ?_, ?_⟩
    · simp only [Sharded.applyLoop, words, if_true, Sharded.ttlOf, parsed]
    · rw [storedExpiry_set wf small]
      have exact := expiryOf_exact_iff (by omega)
        (toInt_seconds number (parseUint_lt parsed)) moment.now
      simpa using exact

/-- Ten seconds, in both ways. -/
theorem expiry_exact_iff_ten :
    ((Exists fun expiry => storedExpiry
          ((handleCommand asciiUpper [text "set", text "k", text "v", text "EX", text "10"]).run
            (engineCreate Platform.source 1 1) ⟨7, 7, 7, []⟩).1 (text "k") = some expiry ∧
        (expiry.toNat : Int) = 7 + 10 * 1000000000) <-> (10 : Int) * 1000000000 < 2 ^ 63) ∧
      Exists fun ttl => Sharded.applyLoop (text "SET k v 10") =
        some (.set (text "k") (text "v") ttl) ∧
        ((Exists fun expiry => storedExpiry
            (GoEngine.set (engineCreate Platform.source 1 1) (text "k") (text "v") ttl
              ⟨7, 7, 7, []⟩).1 (text "k") =
              some expiry ∧ (expiry.toNat : Int) = 7 + 10 * 1000000000) <->
                  (10 : Int) * 1000000000 < 2 ^ 63) := by
  have upper : asciiUpper (text "set") = text "SET" ∧ asciiUpper (text "EX") = text "EX" :=
    by decide +kernel
  have numbers : atoi (text "10") = some 10 ∧ parseUint (text "10") = some 10 := by decide +kernel
  have words : Words.fields (text "SET k v 10") = [text "SET", text "k", text "v", text "10"] :=
    by decide +kernel
  have small : (text "v").length ≤ 512 * 1024 := by decide +kernel
  have accepted : acceptedOption asciiUpper none [text "EX", text "10"] = some (10, .second) := by
    simp only [acceptedOption, upper.2, if_true, numbers.1]
  have exact := expiry_exact_iff Platform.source
    1 1 ⟨1, 1, defaultConfig.fresh Platform.source none⟩ rfl [] ⟨7, 7, 7, []⟩ asciiUpper (text "k")
      (text "v") small
  exact ⟨exact.1 (text "set") _ 10 .second upper.1 accepted (by decide),
    exact.2 _ _ [] 10 words numbers.2 (by decide)⟩

/-- `EX 9223372037` makes an entry immortal, and `EX 18446744074` expires before `EX 1`. -/
theorem expiry_wraps :
    let expiry (seconds : Bytes) := storedExpiry
      ((handleCommand asciiUpper [text "SET", text "k", text "v", text "EX", seconds]).run
        (engineCreate Platform.source 1 1) ⟨7, 7, 7, []⟩).1 (text "k")
    expiry (text "9223372037") = some 0 ∧ expiry (text "18446744074") = some 290448391 ∧
      expiry (text "1") = some 1000000007 := by
  decide +kernel

end Server
end KVStore

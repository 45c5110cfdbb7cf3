import KVStore.Engine.Accounting

namespace KVStore
namespace Engine

open HashTable

variable {P : Platform}

/-!
# The number of buckets

A table starts with a power of two buckets and doubles them in `resize_if_needed`, which
`insert` calls before it adds an entry.  The call looks at the load once and doubles at
most once.  One doubling is enough because the load has never been more than one entry
over the threshold, also for tables of one or two buckets.

The source compares the load as a `double`.  A division by a power of two is exact, and so
is the conversion of the number of entries up to `2 ^ 53` of them.
-/

/-! ## The threshold -/

/-- The `double` nearest to a number, with ties to even:  53 bits of it are kept. -/
def toDouble (value : Nat) : Nat :=
  let unit := 2 ^ (value.log2 - 52)
  let kept := value / unit
  if 2 * (value % unit) < unit ∨ 2 * (value % unit) = unit ∧ kept % 2 = 0 then kept * unit
  else (kept + 1) * unit

/-- `load_factor > LOAD_FACTOR_THRESHOLD`.  The number of buckets is a power of two, so that the
quotient needs no rounding. -/
def loadExceeds (numEntries buckets : Nat) : Bool :=
  decide (3 * toDouble buckets < 4 * toDouble numEntries)

theorem toDouble_of_mod_eq_zero {value : Nat} (whole : value % 2 ^ (value.log2 - 52) = 0) :
    toDouble value = value := by
  have positive : 0 < 2 ^ (value.log2 - 52) := Nat.two_pow_pos _
  have parts := Nat.div_add_mod value (2 ^ (value.log2 - 52))
  simp only [toDouble, whole, Nat.mul_zero]
  rw [if_pos (Or.inl positive), Nat.mul_comm]
  omega

theorem toDouble_of_lt {value : Nat} (small : value < 2 ^ 53) : toDouble value = value := by
  apply toDouble_of_mod_eq_zero
  have short : value.log2 - 52 = 0 := by
    by_cases zero : value = 0
    · simp [zero]
    · have bits := (Nat.log2_lt zero).mpr small
      omega
  rw [short]
  exact Nat.mod_one value

theorem toDouble_two_pow (exponent : Nat) : toDouble (2 ^ exponent) = 2 ^ exponent := by
  apply toDouble_of_mod_eq_zero
  rw [Nat.log2_two_pow]
  exact Nat.mod_eq_zero_of_dvd (Nat.pow_dvd_pow 2 (Nat.sub_le exponent 52))

theorem loadExceeds_iff {numEntries : Nat} (few : numEntries < 2 ^ 53) (exponent : Nat) :
    loadExceeds numEntries (2 ^ exponent) = true <-> 4 * numEntries > 3 * 2 ^ exponent := by
  rw [loadExceeds, toDouble_of_lt few, toDouble_two_pow, decide_eq_true_iff]

/-! ## What the operations do to the buckets -/

/-- The number of buckets stays, and that of the entries does not grow. -/
def Shrinks (t after : HashTable P) : Prop :=
  after.buckets.length = t.buckets.length ∧ after.numEntries ≤ t.numEntries

theorem shrinks_refl (t : HashTable P) : Shrinks t t := ⟨rfl, Nat.le_refl _⟩

theorem Shrinks.trans {first second third : HashTable P} (before : Shrinks first second)
    (after : Shrinks second third) :
    Shrinks first third :=
  ⟨after.1.trans before.1, Nat.le_trans after.2 before.2⟩

theorem length_setChain (t : HashTable P) (key : Bytes) (chain : Chain) :
    (t.setChain key chain).buckets.length = t.buckets.length :=
  List.length_set

theorem shrinks_remove (t : HashTable P) (key : Bytes) : Shrinks t (t.remove key).1 := by
  rw [remove]
  split
  · exact shrinks_refl t
  · exact ⟨length_setChain _ _ _, Nat.sub_le _ _⟩

theorem shrinks_get (t : HashTable P) (key : Bytes) (now accessNow : UInt64) :
    Shrinks t (t.get key now accessNow).1 := by
  rw [HashTable.get]
  split
  · exact shrinks_refl t
  · split
    · exact shrinks_refl t
    · exact ⟨length_setChain _ _ _, Nat.le_refl _⟩

theorem shrinks_evictLoop (t : HashTable P) (fuel : Nat) : Shrinks t (evictLoop fuel t) := by
  refine evictLoop_invariant (fun current => Shrinks t current) ?_ ?_ (shrinks_refl t) fuel
  · intro current kept _
    exact kept
  · intro current kept _
    exact kept.trans (shrinks_remove _ _)

theorem length_foldl_rehashEntry (newCapacity : Nat) (kvs : List KeyValuePair)
    (buckets : List Chain) :
    (kvs.foldl (rehashEntry newCapacity) buckets).length = buckets.length := by
  induction kvs generalizing buckets with
  | nil => rfl
  | cons kv kvs ih =>
      rw [List.foldl_cons, ih, rehashEntry, List.length_set]

theorem length_rehash (t : HashTable P) (newCapacity : Nat) :
    (t.rehash newCapacity).buckets.length = newCapacity := by
  rw [rehash, length_foldl_rehashEntry, List.length_replicate]

/-- An entry is updated, or there is one more. -/
theorem store_grows (t : HashTable P) (key : Bytes) (value : ValueEntry) :
    (t.store key value).buckets.length = t.buckets.length ∧
        (t.store key value).numEntries ≤ t.numEntries + 1 := by
  rw [store]
  split
  · exact ⟨length_setChain _ _ _, Nat.le_succ _⟩
  · exact ⟨length_setChain _ _ _, Nat.le_refl _⟩

theorem growCapacity_two_pow (initialCapacity fuel exponent : Nat) :
    Exists fun final => growCapacity initialCapacity fuel (2 ^ exponent) = 2 ^ final := by
  induction fuel generalizing exponent with
  | zero => exact ⟨exponent, rfl⟩
  | succ fuel ih =>
      rw [growCapacity]
      split
      · rw [← Nat.pow_succ']
        exact ih (exponent + 1)
      · exact ⟨exponent, rfl⟩

/-! ## The invariant -/

/-- A power of two buckets, and at most one entry over the threshold. -/
structure Disciplined (t : HashTable P) : Prop where
  power : Exists fun exponent => t.buckets.length = 2 ^ exponent
  load : 4 * t.numEntries ≤ 3 * t.buckets.length + 4

theorem Disciplined.shrinks {t after : HashTable P} (disciplined : Disciplined t)
    (shrinks : Shrinks t after) :
    Disciplined after := by
  rcases disciplined with ⟨power, load⟩
  rcases shrinks with ⟨buckets, entries⟩
  refine ⟨by rwa [buckets], ?_⟩
  rw [buckets]
  omega

variable {t : HashTable P}

section

variable (disciplined : Disciplined t)

include disciplined

/-- The table that `insert` has before it looks at the load. -/
theorem Disciplined.evictIfNeeded (record : WALRecord) :
    Disciplined (t.log record).evictIfNeeded :=
  disciplined.shrinks ((shrinks_refl t).trans (shrinks_evictLoop (t.log record) _))

/-- The comparison of the source decides as that of the model. -/
theorem Disciplined.resizeIfNeeded_eq (few : t.numEntries < 2 ^ 53) :
    t.resizeIfNeeded =
      if loadExceeds t.numEntries t.buckets.length then t.rehash (t.buckets.length * 2) else t := by
  rcases disciplined.power with ⟨exponent, buckets⟩
  have decides := loadExceeds_iff few exponent
  rw [← buckets] at decides
  simp only [HashTable.resizeIfNeeded, decides]

/-- One doubling brings the load back to the threshold. -/
theorem Disciplined.resizeIfNeeded :
    (Exists fun exponent => t.resizeIfNeeded.buckets.length = 2 ^ exponent) ∧
      4 * t.resizeIfNeeded.numEntries ≤ 3 * t.resizeIfNeeded.buckets.length := by
  rcases disciplined with ⟨⟨exponent, buckets⟩, load⟩
  rw [HashTable.resizeIfNeeded]
  split
  · have positive := Nat.two_pow_pos exponent
    refine ⟨⟨exponent + 1, by rw [length_rehash, buckets, Nat.pow_succ]⟩, ?_⟩
    rw [length_rehash]
    change 4 * t.numEntries ≤ _
    omega
  · exact ⟨⟨exponent, buckets⟩, by omega⟩

theorem Disciplined.insert (key : Bytes) (value : ValueEntry) :
    Disciplined (t.insert key value) := by
  rcases (disciplined.evictIfNeeded (setRecord key value)).resizeIfNeeded with
    ⟨⟨exponent, buckets⟩, load⟩
  rcases store_grows (t.log (setRecord key value)).evictIfNeeded.resizeIfNeeded key
    value with ⟨same, grows⟩
  have added : 4 * (t.insert key value).numEntries ≤ 3 * (t.insert key value).buckets.length + 4 := by
    rw [HashTable.insert, same]
    omega
  exact ⟨⟨exponent, same.trans buckets⟩, added⟩

theorem Disciplined.applyStep (step : TableStep) :
    Disciplined (step.apply t) := by
  cases step with
  | call made =>
      cases made with
      | insert key value => exact disciplined.insert key value
      | get key now accessNow => exact disciplined.shrinks (shrinks_get t key now accessNow)
      | remove key => exact disciplined.shrinks (shrinks_remove t key)
      | flushWal => exact disciplined.shrinks (shrinks_refl t)
  | log record => exact disciplined.shrinks (shrinks_refl t)
  | evict => exact disciplined.shrinks (shrinks_evictLoop t 1)

theorem Disciplined.runSteps (steps : List TableStep) :
    Disciplined (runSteps t steps) := by
  induction steps generalizing t with
  | nil => exact disciplined
  | cons step steps ih => exact ih (disciplined.applyStep step)

end

theorem disciplined_fresh (P : Platform) (config : TableConfig) (walFile : Option Bytes) :
    Disciplined (config.fresh P walFile) := by
  rcases growCapacity_two_pow config.initialCapacity config.initialCapacity 0 with
    ⟨exponent, capacity⟩
  have buckets : (config.fresh P walFile).buckets.length =
      growCapacity config.initialCapacity config.initialCapacity 1 := by
    cases walFile <;> simp [TableConfig.fresh, HashTable.new, enableWal]
  have entries : (config.fresh P walFile).numEntries = 0 := by
    cases walFile <;> simp [TableConfig.fresh, HashTable.new, enableWal]
  exact ⟨⟨exponent, buckets.trans capacity⟩, by simp [entries]⟩

/-- A table of any initial capacity, after any steps, has a power of two buckets and at most one
entry over the threshold.  Inside the next `insert` one look at the load brings it to the
threshold before an entry is added. -/
theorem bucket_discipline (P : Platform) (config : TableConfig) (walFile : Option Bytes)
    (steps : List TableStep) :
    let t := runSteps (config.fresh P walFile) steps
    (Exists fun exponent => t.buckets.length = 2 ^ exponent) ∧
      4 * t.numEntries ≤ 3 * t.buckets.length + 4 ∧
      forall (key : Bytes) (value : ValueEntry),
        let resized := (t.log (setRecord key value)).evictIfNeeded.resizeIfNeeded
        t.insert key value = resized.store key value ∧
            4 * resized.numEntries ≤ 3 * resized.buckets.length := by
  intro t
  have disciplined : Disciplined t := (disciplined_fresh P config walFile).runSteps steps
  refine ⟨disciplined.power, disciplined.load, fun key value => ⟨rfl, ?_⟩⟩
  exact (disciplined.evictIfNeeded (setRecord key value)).resizeIfNeeded.2

end Engine
end KVStore

import Mathlib.Data.Nat.Bitwise
import Mathlib.Tactic.NormNum

/-! Machine words of the map: wrapping 32-bit arithmetic, the packed `free_head` word
and the decoding of 64-bit keys. A `u32` is a natural number below `2 ^ 32`.
-/

namespace AtomicSlotMap

/-- `u32::wrapping_add`, which is also what `AtomicU32::fetch_add` stores. -/
def wrappingAdd (a b : Nat) : Nat := (a + b) % 2 ^ 32

/-- `u32::wrapping_sub`, which is also what `AtomicU32::fetch_sub` stores. -/
def wrappingSub (a b : Nat) : Nat := (a + 2 ^ 32 - b) % 2 ^ 32

/-- A `usize` addition: overflow panics with `debug_assertions` and wraps without. -/
def addUsize (dbg : Bool) (a b : Nat) : Option Nat :=
  if dbg && decide (2 ^ 64 ≤ a + b) then none else some ((a + b) % 2 ^ 64)

/-- The list end of the free list, `u32::MAX`. -/
def SENTINEL : Nat := 2 ^ 32 - 1

/-- The reference count above which `acquire_guard` and a clone refuse. -/
def MAX_REFCOUNT : Nat := 0xFF_FF_FF_00

/-- A sum that fits is the sum, in every build. -/
theorem addUsize_of_fits {dbg : Bool} {a b : Nat} (fits : a + b < 2 ^ 64)
    : addUsize dbg a b = some (a + b) := by
  rw [addUsize, decide_eq_false (Nat.not_le_of_lt fits), Bool.and_false, Nat.mod_eq_of_lt fits]
  rfl

theorem wrappingSub_one {count : Nat} (positive : 0 < count) (bounded : count < 2 ^ 32)
    : wrappingSub count 1 = count - 1 := by
  simp only [wrappingSub]
  omega

/-- Setting the low bit of an even word adds one to it. -/
theorem or_one_of_even {version : Nat} (even : version % 2 = 0)
    : version ||| 1 = version + 1 := by
  have doubled : version = 2 * (version / 2) := by omega
  rw [doubled]
  exact (Nat.two_pow_add_eq_or_of_lt (i := 1) (by omega) (version / 2)).symm

/-- Setting the low bit of an odd word changes nothing. -/
theorem or_one_of_odd {version : Nat} (odd : version % 2 = 1) : version ||| 1 = version := by
  have below : version = (version - 1) ||| 1 := by
    rw [or_one_of_even (by omega)]
    omega
  rw [below, Nat.or_assoc, Nat.or_self]

/-- A word with its low bit set is odd. -/
theorem or_one_odd (version : Nat) : (version ||| 1) % 2 = 1 :=
  Nat.or_mod_two_eq_one.mpr (Or.inr rfl)

/-- Setting the low bit stays within a word. -/
theorem or_one_lt {version : Nat} (bound : version < 2 ^ 32) : version ||| 1 < 2 ^ 32 :=
  Nat.or_lt_two_pow bound (by omega)

/-- Creates a packed `free_head` from a tag and index. -/
def packFreeHead (tag index : Nat) : Nat := (tag <<< 32) ||| index

/-- Unpacks a packed `free_head` word into its tag and index. -/
def unpackFreeHead (packed : Nat) : Nat × Nat := ((packed >>> 32) % 2 ^ 32, packed % 2 ^ 32)

theorem packFreeHead_eq {tag index : Nat} (small : index < 2 ^ 32)
    : packFreeHead tag index = tag * 2 ^ 32 + index := by
  rw [packFreeHead, ← Nat.shiftLeft_add_eq_or_of_lt small, Nat.shiftLeft_eq]

/-- Unpacking inverts packing for words that fit. -/
@[simp] theorem unpackFreeHead_pack {tag index : Nat} (tagSmall : tag < 2 ^ 32)
    (small : index < 2 ^ 32)
    : unpackFreeHead (packFreeHead tag index) = (tag, index) := by
  rw [packFreeHead_eq small, unpackFreeHead, Nat.shiftRight_eq_div_pow]
  simp only [Prod.mk.injEq]
  omega

/-- Two packed words are equal only for equal tags and indices. -/
theorem packFreeHead_inj {tag index tag' index' : Nat} (small : index < 2 ^ 32)
    (small' : index' < 2 ^ 32)
    (same : packFreeHead tag index = packFreeHead tag' index')
    : tag = tag' ∧ index = index' := by
  rw [packFreeHead_eq small, packFreeHead_eq small'] at same
  omega

/-- What the map uses of slotmap's `Key` and `KeyData`: a key is exchanged with a 64-bit
word, and making a key from a word changes nothing but the lowest version bit, which it
sets.
-/
class Key (K : Type) where
  asFfi : K → UInt64
  fromFfi : UInt64 → K
  asFfi_fromFfi : ∀ value, asFfi (fromFfi value) = value ||| ((1 : UInt64) <<< 32)

/-- A key that is just its word, as `DefaultKey` is. -/
instance : Key UInt64 where
  asFfi := id
  fromFfi := fun value => value ||| ((1 : UInt64) <<< 32)
  asFfi_fromFfi := fun _ => rfl

namespace KeyData

variable {K : Type} [Key K]

/-- `KeyDataRead::idx`: the low 32 bits of the key. -/
def idx (key : K) : Nat := (Key.asFfi key &&& 0xffff_ffff).toNat

/-- `KeyDataRead::version`: the high 32 bits of the key, forced odd. -/
def version (key : K) : Nat := ((Key.asFfi key >>> 32) ||| 1).toNat

/-- What a key is decoded to. -/
def place (key : K) : Nat × Nat := (idx key, version key)

/-- `KeyDataRead::new`. -/
def new (idx version : Nat) : K :=
  Key.fromFfi ((UInt64.ofNat version <<< 32) ||| UInt64.ofNat idx)

theorem idx_eq (key : K) : idx key = (Key.asFfi key).toNat % 2 ^ 32 := by
  simp only [idx, UInt64.toNat_and]
  exact Nat.and_two_pow_sub_one_eq_mod (Key.asFfi key).toNat 32

theorem version_eq (key : K)
    : version key = ((Key.asFfi key).toNat / 2 ^ 32) ||| 1 := by
  simp only [version, UInt64.toNat_or, UInt64.toNat_shiftRight, Nat.shiftRight_eq_div_pow]
  rfl

theorem version_odd (key : K) : version key % 2 = 1 := by
  rw [version_eq]
  exact or_one_odd _

/-- The word of a key made from an index and an odd version is the two, side by side. -/
theorem asFfi_new {index version : Nat} (small : index < 2 ^ 32) (bound : version < 2 ^ 32)
    (odd : version % 2 = 1)
    : (Key.asFfi (new index version : K)).toNat = version * 2 ^ 32 + index := by
  have high : (UInt64.ofNat version <<< 32).toNat = version <<< 32 := by
    rw [UInt64.toNat_shiftLeft, UInt64.toNat_ofNat_of_lt' (by simp [UInt64.size]; omega)]
    exact Nat.mod_eq_of_lt (by rw [Nat.shiftLeft_eq]; exact by simp; omega)
  have low : (UInt64.ofNat index).toNat = index :=
    UInt64.toNat_ofNat_of_lt' (by simp [UInt64.size]; omega)
  have bit : ((1 : UInt64) <<< 32).toNat = 1 <<< 32 := by decide
  calc (Key.asFfi (new index version : K)).toNat
    _ = version <<< 32 ||| index ||| 1 <<< 32 := by
      rw [new, Key.asFfi_fromFfi, UInt64.toNat_or, UInt64.toNat_or, high, low, bit]
    _ = (version ||| 1) <<< 32 ||| index := by
      rw [Nat.shiftLeft_or_distrib, Nat.or_assoc, Nat.or_comm index, Nat.or_assoc]
    _ = packFreeHead version index := by rw [or_one_of_odd odd, packFreeHead]
    _ = version * 2 ^ 32 + index := packFreeHead_eq small

/-- A key made from an index and an odd version reads back as that index. -/
@[simp] theorem idx_new {index version : Nat} (small : index < 2 ^ 32)
    (bound : version < 2 ^ 32) (odd : version % 2 = 1)
    : idx (new index version : K) = index := by
  rw [idx_eq, asFfi_new small bound odd]
  omega

/-- A key made from an index and an odd version reads back as that version. -/
@[simp] theorem version_new {index version : Nat} (small : index < 2 ^ 32)
    (bound : version < 2 ^ 32) (odd : version % 2 = 1)
    : KeyData.version (new index version : K) = version := by
  have high : (version * 2 ^ 32 + index) / 2 ^ 32 = version := by omega
  rw [version_eq, asFfi_new small bound odd, high, or_one_of_odd odd]

end KeyData

end AtomicSlotMap

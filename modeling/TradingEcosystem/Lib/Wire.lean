import Mathlib.Data.List.Basic
import Mathlib.Tactic.Ring

/-!
# Records on a Byte Stream

Fixed-size records sent over a stream that may cut them anywhere.

- `toBytes`, `ofBytes` : unsigned integers, least significant byte first
- `whole`, `rest` : the complete records at the front of a buffer, and what is left
- `whole_append`, `rest_append` : it does not matter where the stream is cut
-/

namespace Lib.Wire

/-! ## Integers -/

/-- The `w` low bytes of `n`, least significant first. -/
def toBytes : ℕ → ℕ → List UInt8
  | 0, _ => []
  | w + 1, n => UInt8.ofNat n :: toBytes w (n / 256)

/-- The number with these bytes, least significant first. -/
def ofBytes (bytes : List UInt8) : ℕ := bytes.foldr (fun byte n => byte.toNat + 256 * n) 0

@[simp] theorem length_toBytes (w : ℕ) : ∀ n, (toBytes w n).length = w := by
  induction w with
  | zero =>
    intro n
    rfl
  | succ w ih =>
    intro n
    exact congrArg (· + 1) (ih (n / 256))

/-- Only the low bytes are written. -/
theorem toBytes_mod (w : ℕ) : ∀ n, toBytes w (n % 256 ^ w) = toBytes w n := by
  induction w with
  | zero =>
    intro n
    rfl
  | succ w ih =>
    intro n
    have hrest : n % 256 ^ (w + 1) / 256 = n / 256 % 256 ^ w := by
      rw [pow_succ', Nat.mod_mul_right_div_self]
    have hfirst : UInt8.ofNat (n % 256 ^ (w + 1)) = UInt8.ofNat n := by
      apply UInt8.toNat_inj.mp
      rw [UInt8.toNat_ofNat', UInt8.toNat_ofNat']
      exact Nat.mod_mod_of_dvd n (Dvd.intro_left _ (pow_succ 256 w).symm)
    show UInt8.ofNat _ :: toBytes w (n % 256 ^ (w + 1) / 256) = UInt8.ofNat n :: toBytes w (n / 256)
    rw [hfirst, hrest, ih]

theorem ofBytes_toBytes (w : ℕ) : ∀ n, n < 256 ^ w → ofBytes (toBytes w n) = n := by
  induction w with
  | zero =>
    intro n hn
    rw [pow_zero] at hn
    exact (Nat.lt_one_iff.mp hn).symm
  | succ w ih =>
    intro n hn
    have hrest : ofBytes (toBytes w (n / 256)) = n / 256 := by
      apply ih
      rw [pow_succ] at hn
      omega
    show (UInt8.ofNat n).toNat + 256 * ofBytes (toBytes w (n / 256)) = n
    rw [hrest, UInt8.toNat_ofNat']
    omega

theorem ofBytes_lt (bytes : List UInt8) : ofBytes bytes < 256 ^ bytes.length := by
  induction bytes with
  | nil => exact Nat.one_pos
  | cons byte bytes ih =>
    have hbyte : byte.toNat < 256 := byte.toNat_lt
    show byte.toNat + 256 * ofBytes bytes < 256 ^ (bytes.length + 1)
    rw [pow_succ]
    omega

/-- Read an integer of `w` bytes off the front of a buffer. -/
def readInt (w : ℕ) (bytes : List UInt8) : ℕ × List UInt8 := (ofBytes (bytes.take w), bytes.drop w)

theorem readInt_toBytes {w n : ℕ} (hn : n < 256 ^ w) (bytes : List UInt8) :
    readInt w (toBytes w n ++ bytes) = (n, bytes) := by
  have hlen : (toBytes w n).length = w := length_toBytes w n
  unfold readInt
  rw [List.take_left' hlen, List.drop_left' hlen, ofBytes_toBytes w n hn]

theorem readInt_lt (w : ℕ) (bytes : List UInt8) : (readInt w bytes).1 < 256 ^ w := by
  have hlen : (bytes.take w).length ≤ w := List.length_take_le ..
  exact (ofBytes_lt _).trans_le (Nat.pow_le_pow_right (by omega) hlen)

/-! ## Records -/

variable {β : Type*}

/-- The complete records of `size` bytes at the front of a buffer. -/
def whole (size : ℕ) (buffer : List β) : List (List β) :=
  (List.range (buffer.length / size)).map fun i => (buffer.drop (i * size)).take size

/-- What is left of a buffer behind its complete records. -/
def rest (size : ℕ) (buffer : List β) : List β := buffer.drop (buffer.length / size * size)

variable {size : ℕ} {record buffer : List β}

theorem whole_record (hsize : 0 < size) (hrecord : record.length = size) :
    whole size (record ++ buffer) = record :: whole size buffer := by
  have hlen : (record ++ buffer).length / size = buffer.length / size + 1 := by
    rw [List.length_append, hrecord, Nat.add_comm, Nat.add_div_right _ hsize]
  unfold whole
  rw [hlen, List.range_succ_eq_map, List.map_cons, List.map_map]
  congr 1
  · rw [Nat.zero_mul, List.drop_zero]
    exact List.take_left' hrecord
  · apply List.map_congr_left
    intro i _
    show ((record ++ buffer).drop ((i + 1) * size)).take size = _
    rw [Nat.add_one_mul, Nat.add_comm, ← List.drop_drop, List.drop_left' hrecord]

theorem rest_record (hsize : 0 < size) (hrecord : record.length = size) :
    rest size (record ++ buffer) = rest size buffer := by
  unfold rest
  rw [List.length_append, hrecord, Nat.add_comm, Nat.add_div_right _ hsize, Nat.succ_mul,
    Nat.add_comm, ← List.drop_drop, List.drop_left' hrecord]

theorem whole_of_lt (h : buffer.length < size) : whole size buffer = [] := by
  unfold whole
  rw [Nat.div_eq_of_lt h]
  rfl

theorem rest_of_lt (h : buffer.length < size) : rest size buffer = buffer := by
  unfold rest
  rw [Nat.div_eq_of_lt h, Nat.zero_mul]
  rfl

/-- Complete records in front of a buffer. -/
theorem whole_flatten {records : List (List β)} (hsize : 0 < size)
    (hrecords : ∀ r ∈ records, r.length = size) :
    whole size (records.flatten ++ buffer) = records ++ whole size buffer ∧
      rest size (records.flatten ++ buffer) = rest size buffer := by
  induction records with
  | nil => exact ⟨rfl, rfl⟩
  | cons r records ih =>
    have hr : r.length = size := hrecords r (List.mem_cons_self ..)
    obtain ⟨hwhole, hrest⟩ := ih fun r' hr' => hrecords r' (List.mem_cons_of_mem _ hr')
    rw [List.flatten_cons, List.append_assoc]
    constructor
    · rw [whole_record hsize hr, hwhole]
      rfl
    · rw [rest_record hsize hr, hrest]

theorem whole_of_flatten {records : List (List β)} (hsize : 0 < size)
    (hrecords : ∀ r ∈ records, r.length = size) : whole size records.flatten = records := by
  have hnil : whole size ([] : List β) = [] := whole_of_lt hsize
  rw [← List.append_nil records.flatten, (whole_flatten hsize hrecords).1, hnil, List.append_nil]

theorem length_of_mem_whole : ∀ r ∈ whole size buffer, r.length = size := by
  intro r hr
  obtain ⟨i, hi, rfl⟩ := List.mem_map.mp hr
  have hi' := List.mem_range.mp hi
  have hmul : (i + 1) * size ≤ buffer.length :=
    (Nat.mul_le_mul_right size hi').trans (Nat.div_mul_le_self ..)
  rw [Nat.add_one_mul] at hmul
  rw [List.length_take, List.length_drop]
  omega

theorem length_rest_lt (hsize : 0 < size) : (rest size buffer).length < size := by
  unfold rest
  rw [List.length_drop]
  have hdiv := Nat.div_add_mod' buffer.length size
  have hmod := Nat.mod_lt buffer.length hsize
  omega

/-- A buffer is its complete records and the rest; induction on the number of records. -/
theorem flatten_whole_append_rest (hsize : 0 < size) :
    ∀ (n : ℕ) (buffer : List β), buffer.length / size = n →
      (whole size buffer).flatten ++ rest size buffer = buffer := by
  intro n
  induction n with
  | zero =>
    intro buffer hn
    have hlt : buffer.length < size := (Nat.div_eq_zero_iff_lt hsize).mp hn
    rw [whole_of_lt hlt, rest_of_lt hlt]
    rfl
  | succ n ih =>
    intro buffer hn
    have hle : size ≤ buffer.length := by
      by_contra hlt
      rw [Nat.div_eq_of_lt (Nat.lt_of_not_le hlt)] at hn
      cases hn
    have htake : (buffer.take size).length = size := List.length_take_of_le hle
    have hdrop : (buffer.drop size).length / size = n := by
      rw [Nat.div_eq_sub_div hsize hle] at hn
      rw [List.length_drop]
      exact Nat.succ.inj hn
    conv_lhs => rw [← List.take_append_drop size buffer]
    rw [whole_record hsize htake, rest_record hsize htake, List.flatten_cons, List.append_assoc,
      ih _ hdrop, List.take_append_drop]

/-- **It does not matter where a stream is cut**: the records of two chunks are those of the
first, and then those of the second behind what the first one left. -/
theorem whole_append (hsize : 0 < size) (chunk chunk' : List β) :
    whole size (chunk ++ chunk') =
      whole size chunk ++ whole size (rest size chunk ++ chunk') := by
  conv_lhs => rw [← flatten_whole_append_rest hsize _ chunk rfl, List.append_assoc]
  exact (whole_flatten hsize length_of_mem_whole).1

theorem rest_append (hsize : 0 < size) (chunk chunk' : List β) :
    rest size (chunk ++ chunk') = rest size (rest size chunk ++ chunk') := by
  conv_lhs => rw [← flatten_whole_append_rest hsize _ chunk rfl, List.append_assoc]
  exact (whole_flatten hsize length_of_mem_whole).2

/-- The records of an initial part of a stream of records are the first ones. -/
theorem whole_isPrefix {records : List (List β)} {stream : List β} (hsize : 0 < size)
    (hrecords : ∀ r ∈ records, r.length = size) (hinitial : stream <+: records.flatten) :
    whole size stream <+: records := by
  obtain ⟨tail, htail⟩ := hinitial
  have hall := whole_of_flatten hsize hrecords
  rw [← htail, whole_append hsize] at hall
  exact ⟨_, hall⟩

end Lib.Wire

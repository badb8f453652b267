/-
  BYTES — strings of octets, the little- and big-endian readings of numbers, and hexadecimal.

  Everything that crosses the boundary of this library is a list of octets: encodings, messages,
  hashes.  A number of known width is written with `toLE`/`toBE` and read back with `ofLE`/`ofBE`;
  the readings are plain folds, so `ofLE_toLE` (a number below `capacity k` survives its own
  `k` octets) is one induction on the width.

  `Octets n` is a byte string whose length is part of its type: point encodings, identifiers and
  digests are `Octets 32`, so no function on them has to ask for their length again.
-/
namespace Covenant

/-- A string of octets. -/
abbrev Bytes := List UInt8

/-- A string of exactly `n` octets. -/
abbrev Octets (n : Nat) := { b : Bytes // b.length = n }

/-! ## Numbers as octets -/

namespace Bytes

/-- The number whose base-256 digits are the octets, least significant first. -/
def ofLE : Bytes → Nat
  | [] => 0
  | b :: r => b.toNat + 256 * ofLE r

/-- The `k` least significant base-256 digits of a number, least significant first. -/
def toLE : Nat → Nat → Bytes
  | 0, _ => []
  | k + 1, n => UInt8.ofNat (n % 256) :: toLE k (n / 256)

/-- The number whose base-256 digits are the octets, most significant first. -/
def ofBE (b : Bytes) : Nat := ofLE b.reverse

/-- The `k` least significant base-256 digits of a number, most significant first. -/
def toBE (k n : Nat) : Bytes := (toLE k n).reverse

@[simp] theorem length_toLE (k n : Nat) : (toLE k n).length = k := by
  induction k generalizing n with
  | zero => rfl
  | succ k ih => simp [toLE, ih]

@[simp] theorem length_toBE (k n : Nat) : (toBE k n).length = k := by simp [toBE]

/-- How many numbers `k` octets can spell. -/
def capacity : Nat → Nat
  | 0 => 1
  | k + 1 => 256 * capacity k

theorem ofLE_lt (b : Bytes) : ofLE b < capacity b.length := by
  induction b with
  | nil => decide
  | cons x r ih =>
    have := x.toNat_lt
    simp only [ofLE, List.length_cons, capacity]
    omega

/-- A number that fits in `k` octets is read back from them. -/
theorem ofLE_toLE (k n : Nat) (h : n < capacity k) : ofLE (toLE k n) = n := by
  induction k generalizing n with
  | zero => simp [capacity] at h; simp [toLE, ofLE, h]
  | succ k ih =>
    have : n / 256 < capacity k := Nat.div_lt_of_lt_mul h
    simp only [toLE, ofLE, ih _ this, UInt8.toNat_ofNat']
    omega

/-- Octets are determined by the number they spell and their count. -/
theorem toLE_ofLE (b : Bytes) : toLE b.length (ofLE b) = b := by
  induction b with
  | nil => rfl
  | cons x r ih =>
    have hx := x.toNat_lt
    have h1 : (x.toNat + 256 * ofLE r) % 256 = x.toNat := by omega
    have h2 : (x.toNat + 256 * ofLE r) / 256 = ofLE r := by omega
    simp only [ofLE, List.length_cons, toLE, h1, h2, ih, UInt8.ofNat_toNat]

/-- The first `n` octets and what follows them, when there are that many. -/
def splitOctets : (n : Nat) → Bytes → Option (Octets n × Bytes)
  | 0, b => some (⟨[], rfl⟩, b)
  | _ + 1, [] => none
  | n + 1, x :: r => (splitOctets n r).map fun s => (⟨x :: s.1.1, by simp [s.1.2]⟩, s.2)

/-- The octets as a block of `n`, when their number is right. -/
def toOctets? (n : Nat) (b : Bytes) : Option (Octets n) :=
  if h : b.length = n then some ⟨b, h⟩ else none

end Bytes

/-! ## Blocks of fixed length -/

namespace Octets

/-- The block of `n` zero octets. -/
def zero (n : Nat) : Octets n := ⟨List.replicate n 0, by simp⟩

/-- The `n` little-endian octets of a number. -/
def ofNatLE (n x : Nat) : Octets n := ⟨Bytes.toLE n x, Bytes.length_toLE n x⟩

/-- The `n` big-endian octets of a number. -/
def ofNatBE (n x : Nat) : Octets n := ⟨Bytes.toBE n x, Bytes.length_toBE n x⟩

/-- The first `n` octets of a string, filled up with zeros when it is shorter. -/
def firstOf (n : Nat) (b : Bytes) : Octets n :=
  ⟨(b ++ List.replicate n 0).take n, by simp⟩

/-- A block is the front of what begins with it. -/
theorem firstOf_append {n : Nat} (b : Octets n) (rest : Bytes) : firstOf n (b.1 ++ rest) = b := by
  obtain ⟨b, rfl⟩ := b
  exact Subtype.ext (by simp [firstOf])

theorem ofNatLE_ofLE {n : Nat} (b : Octets n) : ofNatLE n (Bytes.ofLE b.1) = b := by
  obtain ⟨b, rfl⟩ := b
  exact Subtype.ext (Bytes.toLE_ofLE b)

end Octets

/-! ## Hexadecimal -/

namespace Hex

/-- The sixteen digits, written in lower case. -/
def digit (n : Nat) : Char := if n < 10 then Char.ofNat (48 + n) else Char.ofNat (87 + n)

/-- The value of a digit of either case. -/
def value? (c : Char) : Option Nat :=
  if '0' ≤ c ∧ c ≤ '9' then some (c.toNat - 48)
  else if 'a' ≤ c ∧ c ≤ 'f' then some (c.toNat - 87)
  else if 'A' ≤ c ∧ c ≤ 'F' then some (c.toNat - 55)
  else none

/-- Two digits an octet, the high one first. -/
def encodeChars : Bytes → List Char
  | [] => []
  | b :: r => digit (b.toNat / 16) :: digit (b.toNat % 16) :: encodeChars r

/-- The text form of a byte string. -/
def encode (b : Bytes) : String := String.ofList (encodeChars b)

/-- Reads pairs of digits; an odd digit or any other character refuses the whole text. -/
def decodeChars : List Char → Option Bytes
  | [] => some []
  | [_] => none
  | hi :: lo :: r => do
    let h ← value? hi
    let l ← value? lo
    let bs ← decodeChars r
    some (UInt8.ofNat (16 * h + l) :: bs)

/-- The byte string a text spells in digits of either case. -/
def decode (s : String) : Option Bytes := decodeChars s.toList

theorem value?_digit {n : Nat} (h : n < 16) : value? (digit n) = some n := by
  have hall : ∀ i : Fin 16, value? (digit i) = some i.1 := by decide
  exact hall ⟨n, h⟩

/-- The text form of a byte string spells it. -/
theorem decode_encode_eq (b : Bytes) : decode (encode b) = some b := by
  rw [decode, encode, String.toList_ofList]
  induction b with
  | nil => rfl
  | cons x b ih =>
    have hx := x.toNat_lt
    have hdigits : 16 * (x.toNat / 16) + x.toNat % 16 = x.toNat := by omega
    rw [encodeChars, decodeChars, value?_digit (by omega), value?_digit (by omega), ih]
    simp only [Option.bind_eq_bind, Option.bind_some, hdigits, UInt8.ofNat_toNat]

example : encode [0, 171, 16] = "00ab10" := by decide
example : decode "00aB10" = some [0, 171, 16] := by decide
example : decode "0" = none ∧ decode "0g" = none := by decide

end Hex

end Covenant

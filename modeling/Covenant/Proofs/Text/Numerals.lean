/-
  NUMERALS — a text in Base58 and the octets it spells determine each other.

  Octets and characters both are numerals, in base 256 and in base 58: some leading zeros, which
  have no weight and are taken over one for one, and then the digits of a number, the first of which
  is not zero.  The digits of a number are those of `Nat.digits` the other way round, however much
  fuel is given beyond what is needed (`digits_eq`), and only one series of digits without a leading
  zero spells the number (`reverse_digits_number`).  So each way of converting undoes the other.

  1. **Digits** — in any base.
  2. **Leading zeros** — where a numeral is split.
  3. **Characters** — a text is read as digits exactly when it is written with the symbols of these
     digits (`mapM_value?_eq_some`).
  4. **Octets** — as digits in base 256.
  5. **Converting** — `decode_encode_self` and `encode_of_decode`.
-/
import Covenant.Text.Base58
import Mathlib.Data.Nat.Digits.Lemmas

namespace Covenant.Base58

/-! ## Digits -/

section

variable {base n fuel : Nat} {ds : List Nat}

/-- With fuel enough, the digits are all there. -/
theorem digits_eq (hbase : 1 < base) (hfuel : n < base ^ fuel) (acc : List Nat) :
    digits base fuel n acc = (Nat.digits base n).reverse ++ acc := by
  induction fuel generalizing n acc with
  | zero =>
    obtain rfl : n = 0 := by simpa using hfuel
    simp [digits]
  | succ fuel ih =>
    rw [digits]
    by_cases hn : n = 0
    · simp [hn]
    · have hless : n / base < base ^ fuel := Nat.div_lt_of_lt_mul (by rwa [← Nat.pow_succ'])
      -- the accumulator holds the digits below the ones that are left
      rw [if_neg hn, ih hless, Nat.digits_def' hbase (Nat.pos_of_ne_zero hn), List.reverse_cons,
        List.append_assoc, List.singleton_append]

theorem number_eq (base : Nat) (ds : List Nat) : number base ds = Nat.ofDigits base ds.reverse := by
  rw [Nat.ofDigits_eq_foldr, List.foldr_reverse, number]
  simp only [Nat.cast_id, Nat.add_comm]

/-- A number with so many digits is below the power of the base. -/
theorem number_lt (hbase : 1 < base) (hds : ∀ d ∈ ds, d < base) :
    number base ds < base ^ ds.length := by
  have h := Nat.ofDigits_lt_base_pow_length hbase (l := ds.reverse) (by simpa using hds)
  rwa [List.length_reverse, ← number_eq] at h

theorem number_reverse_digits (base n : Nat) : number base (Nat.digits base n).reverse = n := by
  rw [number_eq, List.reverse_reverse, Nat.ofDigits_digits]

/-- The digits of a number have no zero in front. -/
theorem head?_reverse_digits {base n : Nat} : (Nat.digits base n).reverse.head? ≠ some 0 := by
  by_cases hn : n = 0
  · simp [hn]
  · have hne : Nat.digits base n ≠ [] := Nat.digits_ne_nil_iff_ne_zero.2 hn
    rw [List.head?_reverse, List.getLast?_eq_getLast_of_ne_nil hne, Ne, Option.some.injEq]
    exact Nat.getLast_digit_ne_zero base hn

/-- Digits without a zero in front are the digits of the number that they spell. -/
theorem reverse_digits_number (hbase : 1 < base) (hds : ∀ d ∈ ds, d < base)
    (hhead : ds.head? ≠ some 0) : (Nat.digits base (number base ds)).reverse = ds := by
  have hlast (h : ds.reverse ≠ []) : ds.reverse.getLast h ≠ 0 := by
    rw [List.head?_eq_getLast?_reverse, List.getLast?_eq_getLast_of_ne_nil h] at hhead
    simpa using hhead
  rw [number_eq, Nat.digits_ofDigits base hbase ds.reverse (by simpa using hds) hlast,
    List.reverse_reverse]

end

/-! ## Leading zeros -/

section

variable {α : Type} [DecidableEq α] {a : α} {k : Nat} {xs : List α}

/-- A list is some copies of `a` in front of a list that does not start with it. -/
theorem exists_leading (a : α) : ∀ xs : List α,
    ∃ k ys, xs = List.replicate k a ++ ys ∧ ys.head? ≠ some a
  | [] => ⟨0, [], rfl, by simp⟩
  | x :: xs => by
    by_cases hx : x = a
    · obtain ⟨k, ys, hxs, hys⟩ := exists_leading a xs
      exact ⟨k + 1, ys, by rw [hx, hxs, List.replicate_succ, List.cons_append], hys⟩
    · exact ⟨0, x :: xs, rfl, by simpa using hx⟩

theorem takeWhile_leading (h : xs.head? ≠ some a) :
    (List.replicate k a ++ xs).takeWhile (· = a) = List.replicate k a := by
  have hnone : xs.takeWhile (· = a) = [] := by
    cases xs with
    | nil => rfl
    | cons x xs => rw [List.takeWhile_cons_of_neg]; simpa using h
  rw [List.takeWhile_append_of_pos (by simp), hnone, List.append_nil]

end

/-! ## Characters -/

/-- The character of a digit. -/
def symbol (d : Nat) : Char := alphabet.getD d '1'

/-- A character is read as the digit that it is the symbol of, and no two digits share one. -/
theorem value?_eq_some {c : Char} {d : Nat} : value? c = some d ↔ d < 58 ∧ symbol d = c := by
  have hlength : alphabet.length = 58 := by decide
  have hnodup : alphabet.Nodup := by decide
  have hsymbol (hd : d < alphabet.length) : symbol d = alphabet[d] := by simp [symbol, hd]
  rw [value?, List.idxOf?_eq_some_iff]
  constructor
  · rintro ⟨hd, hc, -⟩
    exact ⟨hlength ▸ hd, (hsymbol hd).trans hc⟩
  · rintro ⟨hd, rfl⟩
    have hd' : d < alphabet.length := hlength.symm ▸ hd
    refine ⟨hd', (hsymbol hd').symm, fun j hj heq => ?_⟩
    exact Nat.ne_of_lt hj (hnodup.getElem_inj_iff.1 (heq.trans (hsymbol hd')))

/-- A text is read digit by digit exactly when it is written with the symbols of these digits. -/
theorem mapM_value?_eq_some {cs : List Char} : ∀ {ds : List Nat},
    cs.mapM value? = some ds ↔ (∀ d ∈ ds, d < 58) ∧ cs = ds.map symbol := by
  induction cs with
  | nil =>
    intro ds
    cases ds <;> simp
  | cons c cs ih =>
    intro ds
    simp only [List.mapM_cons, Option.bind_eq_bind, Option.bind_eq_some_iff, Option.pure_def,
      Option.some.injEq, value?_eq_some, ih]
    constructor
    · rintro ⟨d, ⟨hd, rfl⟩, ds, ⟨hds, rfl⟩, rfl⟩
      exact ⟨List.forall_mem_cons.2 ⟨hd, hds⟩, rfl⟩
    · rintro ⟨hds, heq⟩
      cases ds with
      | nil => cases heq
      | cons d ds =>
        obtain ⟨rfl, rfl⟩ := List.cons.inj heq
        obtain ⟨hd, hds⟩ := List.forall_mem_cons.1 hds
        exact ⟨d, ⟨hd, rfl⟩, ds, ⟨hds, rfl⟩, rfl⟩

/-! ## Octets -/

theorem map_toNat_lt (b : Bytes) : ∀ d ∈ b.map UInt8.toNat, d < 256 := by
  simp only [List.forall_mem_map]
  exact fun x _ => x.toNat_lt

theorem map_ofNat_toNat (b : Bytes) : (b.map UInt8.toNat).map UInt8.ofNat = b := by
  rw [List.map_map]
  exact (List.map_congr_left fun x _ => UInt8.ofNat_toNat).trans (List.map_id _)

theorem map_toNat_ofNat {ds : List Nat} (hds : ∀ d ∈ ds, d < 256) :
    (ds.map UInt8.ofNat).map UInt8.toNat = ds := by
  rw [List.map_map]
  exact (List.map_congr_left fun d hd => UInt8.toNat_ofNat_of_lt' (hds d hd)).trans (List.map_id _)

/-- Octets start with a zero exactly when they do as digits. -/
theorem head?_map_toNat {b : Bytes} : (b.map UInt8.toNat).head? = some 0 ↔ b.head? = some 0 := by
  rw [List.head?_map, Option.map_eq_some_iff]
  constructor
  · rintro ⟨x, hx, hzero⟩
    exact hx.trans (congrArg some (UInt8.toNat_inj.1 hzero))
  · exact fun h => ⟨0, h, rfl⟩

/-! ## Converting -/

/-- What is written for octets, split behind their leading zeros. -/
theorem encode_leading {k : Nat} {b : Bytes} (hb : b.head? ≠ some 0) :
    encode (List.replicate k 0 ++ b) = String.ofList ((List.replicate k 0 ++
      (Nat.digits 58 (number 256 (b.map UInt8.toNat))).reverse).map symbol) := by
  -- two digits of base 58 hold more than one octet
  have hfuel : number 256 (b.map UInt8.toNat) < 58 ^ (2 * b.length) := by
    have hlt : number 256 (b.map UInt8.toNat) < 256 ^ (b.map UInt8.toNat).length :=
      number_lt (by decide) (map_toNat_lt b)
    rw [List.length_map] at hlt
    refine hlt.trans_le ?_
    rw [Nat.pow_mul]
    exact Nat.pow_le_pow_left (by decide) _
  have hzeros : (List.replicate k (0 : UInt8) ++ b).takeWhile (· = 0) = List.replicate k 0 :=
    takeWhile_leading hb
  have hone : symbol 0 = '1' := by decide
  rw [encode]
  simp only [hzeros, List.length_replicate, List.drop_left', digits_eq (by decide) hfuel,
    List.append_nil, List.map_append, List.map_replicate, hone]
  rfl

/-- What is read from a text, split behind the leading zeros among its digits. -/
theorem decode_leading {k : Nat} {s : String} {ds : List Nat} (hds : ∀ d ∈ ds, d < 58)
    (hhead : ds.head? ≠ some 0) (hs : s.toList = (List.replicate k 0 ++ ds).map symbol) :
    decode s = some (List.replicate k 0 ++
      (Nat.digits 256 (number 58 ds)).reverse.map UInt8.ofNat) := by
  -- one octet holds more than one digit of base 58
  have hfuel : number 58 ds < 256 ^ ds.length :=
    (number_lt (by decide) hds).trans_le (Nat.pow_le_pow_left (by decide) _)
  have hzeros : (List.replicate k 0 ++ ds).takeWhile (· = 0) = List.replicate k 0 :=
    takeWhile_leading hhead
  have hall : ∀ d ∈ List.replicate k 0 ++ ds, d < 58 := by
    intro d hd
    rcases List.mem_append.1 hd with hd | hd
    · rw [List.eq_of_mem_replicate hd]
      decide
    · exact hds d hd
  rw [decode, mapM_value?_eq_some.2 ⟨hall, hs⟩]
  simp only [Option.bind_eq_bind, Option.bind_some, hzeros, List.length_replicate,
    List.drop_left', digits_eq (by decide) hfuel, List.append_nil, List.map_replicate]

/-- **What was written is read back.** -/
theorem decode_encode_self (b : Bytes) : decode (encode b) = some b := by
  obtain ⟨k, b, rfl, hb⟩ := exists_leading (0 : UInt8) b
  have hdigits : ∀ d ∈ (Nat.digits 58 (number 256 (b.map UInt8.toNat))).reverse, d < 58 := by
    simpa using fun d => Nat.digits_lt_base (by decide)
  have hhead : (b.map UInt8.toNat).head? ≠ some 0 := mt head?_map_toNat.1 hb
  rw [encode_leading hb, decode_leading hdigits head?_reverse_digits String.toList_ofList,
    number_reverse_digits, reverse_digits_number (by decide) (map_toNat_lt b) hhead,
    map_ofNat_toNat]

/-- **What is read is written the same.** -/
theorem encode_of_decode {s : String} {b : Bytes} (h : decode s = some b) : encode b = s := by
  obtain ⟨digits, hdigits, -⟩ := Option.bind_eq_some_iff.1 h
  obtain ⟨hlt, hs⟩ := mapM_value?_eq_some.1 hdigits
  obtain ⟨k, ds, rfl, hhead⟩ := exists_leading 0 digits
  have hds : ∀ d ∈ ds, d < 58 := fun d hd => hlt d (List.mem_append_right _ hd)
  rw [decode_leading hds hhead hs, Option.some.injEq] at h
  have hoctets : ((Nat.digits 256 (number 58 ds)).reverse.map UInt8.ofNat).map UInt8.toNat =
      (Nat.digits 256 (number 58 ds)).reverse :=
    map_toNat_ofNat (by simpa using fun d => Nat.digits_lt_base (by decide))
  -- the zeros are all counted in k, so the number itself starts with none
  have hfirst : ((Nat.digits 256 (number 58 ds)).reverse.map UInt8.ofNat).head? ≠ some 0 := by
    rw [Ne, ← head?_map_toNat, hoctets]
    exact head?_reverse_digits
  rw [← h, encode_leading hfirst, hoctets, number_reverse_digits,
    reverse_digits_number (by decide) hds hhead, ← hs, String.ofList_toList]

end Covenant.Base58

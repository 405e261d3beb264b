import Mathlib.Data.Nat.Digits.Defs
import TokenForth.Numeral

/-!
# Reading and writing numerals

A number that is written in a radix from 2 to 36 is read back from its digits. The decimal literals
of a source are told apart by a rule of their own: a text is one if it consists of an optional minus
sign and decimal digits, and if the integer these stand for fits a cell.
-/
namespace TokenForth

theorem Cell.ofInt?_eq_some_iff {n : Int} {c : Cell} : Cell.ofInt? n = some c ↔ c.toInt = n := by
  unfold Cell.ofInt?
  split
  · next h =>
    have hcell : (Int64.ofInt n).toInt = n := Int64.toInt_ofInt_of_le h.1 (by omega)
    constructor
    · intro hc
      cases hc
      exact hcell
    · intro hc
      rw [← hc, Int64.ofInt_toInt]
  · next h =>
    constructor
    · intro hc
      cases hc
    · intro hc
      have hlow := c.le_toInt
      have hhigh := c.toInt_lt
      omega

theorem Cell.toInt_of_add? {a b sum : Cell} (h : Cell.add? a b = some sum) :
    sum.toInt = a.toInt + b.toInt := Cell.ofInt?_eq_some_iff.mp h

namespace Numeral

theorem digitValue?_digitChar {d : Nat} (h : d < 36) : digitValue? (digitChar d) = some d := by
  have hall : ∀ d : Fin 36, digitValue? (digitChar d) = some d.val := by decide
  exact hall ⟨d, h⟩

theorem digits_of_lt {radix n : Nat} (h : n < radix) : digits radix n = [n] := by
  rw [digits, if_neg (by omega)]

theorem digits_of_le {radix n : Nat} (hradix : 2 ≤ radix) (h : radix ≤ n) :
    digits radix n = n % radix :: digits radix (n / radix) := by
  rw [digits, if_pos ⟨hradix, h⟩]

theorem magnitude_of_lt {radix n : Nat} (h : n < radix) : magnitude radix n = [digitChar n] := by
  rw [magnitude, digits_of_lt h]
  rfl

theorem magnitude_of_le {radix n : Nat} (hradix : 2 ≤ radix) (h : radix ≤ n) :
    magnitude radix n = magnitude radix (n / radix) ++ [digitChar (n % radix)] := by
  rw [magnitude, digits_of_le hradix h]
  simp [magnitude]

theorem magnitude_ne_nil (radix n : Nat) : magnitude radix n ≠ [] := by
  unfold magnitude digits
  split <;> simp

theorem readFrom_concat {radix d : Nat} {c : Char} (hd : digitValue? c = some d) (h : d < radix)
    (n : Nat) (text : List Char) :
    readFrom radix n (text ++ [c]) = (readFrom radix n text).map (· * radix + d) := by
  induction text generalizing n with
  | nil => simp [readFrom, hd, h]
  | cons x text ih =>
    simp only [List.cons_append, readFrom]
    cases digitValue? x with
    | none => rfl
    | some e =>
      by_cases he : e < radix
      · simp only [he, if_true, ih]
      · simp only [he, if_false, Option.map_none]

theorem readFrom_magnitude (radix : Nat) (hlow : 2 ≤ radix) (hhigh : radix ≤ 36) (n : Nat) :
    readFrom radix 0 (magnitude radix n) = some n := by
  induction n using Nat.strongRecOn with
  | _ n ih =>
    rcases Nat.lt_or_ge n radix with h | h
    · rw [magnitude_of_lt h]
      simp [readFrom, digitValue?_digitChar (Nat.lt_of_lt_of_le h hhigh), h]
    · have hmod : n % radix < radix := Nat.mod_lt n (by omega)
      have hdigit := digitValue?_digitChar (Nat.lt_of_lt_of_le hmod hhigh)
      rw [magnitude_of_le hlow h, readFrom_concat hdigit hmod,
        ih (n / radix) (Nat.div_lt_self (by omega) (by omega)), Option.map_some,
        Nat.div_add_mod']

/-- The integer that a text of an optional minus sign and decimal digits stands for. -/
inductive Decimal : List Char → Int → Prop
  | plain {digits : List Char} (h : digits ≠ []) (hdigits : ∀ c ∈ digits, c.isDigit) :
    Decimal digits (Nat.ofDigitChars 10 digits 0)
  | negative {digits : List Char} (h : digits ≠ []) (hdigits : ∀ c ∈ digits, c.isDigit) :
    Decimal ('-' :: digits) (-(Nat.ofDigitChars 10 digits 0 : Int))

theorem digitValue?_lt_ten {c : Char} {d : Nat} (h : digitValue? c = some d) (hd : d < 10) :
    c.isDigit ∧ d = c.toNat - 48 := by
  have htoNat (a : Char) : a.val.toNat = a.toNat := rfl
  unfold digitValue? at h
  simp only [Char.le_def, UInt32.le_iff_toNat_le, htoNat] at h
  simp only [Char.isDigit, Bool.and_eq_true, decide_eq_true_eq, ge_iff_le, UInt32.le_iff_toNat_le,
    htoNat]
  have h0 : '0'.toNat = 48 := rfl
  have h9 : '9'.toNat = 57 := rfl
  have ha : 'a'.toNat = 97 := rfl
  have hA : 'A'.toNat = 65 := rfl
  rw [h0, h9, ha, hA] at h
  rw [h0, h9]
  split at h
  · next hc =>
    cases h
    exact ⟨hc, rfl⟩
  · split at h
    · cases h
      omega
    · split at h
      · cases h
        omega
      · cases h

theorem digitValue?_of_isDigit {c : Char} (h : c.isDigit) :
    digitValue? c = some (c.toNat - 48) ∧ c.toNat - 48 < 10 := by
  simp only [Char.isDigit, Bool.and_eq_true, decide_eq_true_eq, ge_iff_le] at h
  have hnat : c.toNat ≤ 57 := h.2
  refine ⟨?_, by omega⟩
  unfold digitValue?
  rw [if_pos ⟨h.1, h.2⟩]

/-- Decimal digits are read as the number they are the digits of, and nothing else is read. -/
theorem readFrom_eq_some_iff {text : List Char} {n k : Nat} :
    readFrom 10 n text = some k ↔ (∀ c ∈ text, c.isDigit) ∧ k = Nat.ofDigitChars 10 text n := by
  induction text generalizing n with
  | nil =>
    simp only [readFrom, Nat.ofDigitChars, List.foldl_nil, Option.some.injEq, List.not_mem_nil,
      false_imp_iff, implies_true, true_and]
    exact eq_comm
  | cons c text ih =>
    have hstep : Nat.ofDigitChars 10 (c :: text) n =
        Nat.ofDigitChars 10 text (n * 10 + (c.toNat - 48)) := by
      simp only [Nat.ofDigitChars, List.foldl_cons, Nat.mul_comm n 10]
      rfl
    by_cases hc : c.isDigit
    · obtain ⟨hvalue, hlt⟩ := digitValue?_of_isDigit hc
      simp only [readFrom, hvalue, hlt, if_true, ih, hstep, List.forall_mem_cons, hc, true_and]
    · refine iff_of_false (fun h => ?_) fun h => hc (h.1 c List.mem_cons_self)
      simp only [readFrom] at h
      cases hvalue : digitValue? c with
      | none => simp [hvalue] at h
      | some d =>
        by_cases hd : d < 10
        · exact hc (digitValue?_lt_ten hvalue hd).1
        · simp [hvalue, hd] at h

theorem readMagnitude_eq_some_iff {text : List Char} {k : Nat} :
    readMagnitude 10 text = some k ↔
      text ≠ [] ∧ (∀ c ∈ text, c.isDigit) ∧ k = Nat.ofDigitChars 10 text 0 := by
  cases text with
  | nil => simp [readMagnitude]
  | cons c text => simp only [readMagnitude, readFrom_eq_some_iff, ne_eq, reduceCtorEq,
      not_false_eq_true, true_and]

/-- A literal is read exactly if it stands for an integer that fits a cell. -/
theorem literal?_eq_some_iff {text : List Char} {v : Cell} :
    literal? text = some v ↔ Decimal text v.toInt := by
  constructor
  · intro h
    unfold literal? at h
    split at h
    · next digits =>
      obtain ⟨n, hn, hv⟩ := Option.bind_eq_some_iff.mp h
      obtain ⟨hne, hdigits, rfl⟩ := readMagnitude_eq_some_iff.mp hn
      rw [Cell.ofInt?_eq_some_iff.mp hv]
      exact .negative hne hdigits
    · obtain ⟨n, hn, hv⟩ := Option.bind_eq_some_iff.mp h
      obtain ⟨hne, hdigits, rfl⟩ := readMagnitude_eq_some_iff.mp hn
      rw [Cell.ofInt?_eq_some_iff.mp hv]
      exact .plain hne hdigits
  · intro h
    generalize hi : v.toInt = i at h
    cases h with
    | plain hne hdigits =>
      -- digits do not start with a minus sign, so the text is read as a whole
      have hminus : ∀ rest, text ≠ '-' :: rest := by
        rintro rest rfl
        have hdash : ('-' : Char).isDigit := hdigits '-' List.mem_cons_self
        revert hdash
        decide
      have hliteral : literal? text = (readMagnitude 10 text).bind fun n => Cell.ofInt? n := by
        unfold literal?
        split
        · next rest => exact absurd rfl (hminus rest)
        · rfl
      rw [hliteral, readMagnitude_eq_some_iff.mpr ⟨hne, hdigits, rfl⟩, Option.bind_some,
        Cell.ofInt?_eq_some_iff.mpr hi]
    | negative hne hdigits =>
      simp only [literal?, readMagnitude_eq_some_iff.mpr ⟨hne, hdigits, rfl⟩, Option.bind_some,
        Cell.ofInt?_eq_some_iff.mpr hi]

/-- A cell is written as the digits of its size, behind a minus sign if it is negative. -/
theorem toList_signed (radix : Nat) (v : Cell) :
    (signed radix v).toList =
      if v.toInt < 0 then '-' :: magnitude (writingRadix radix) v.toInt.natAbs
      else magnitude (writingRadix radix) v.toInt.natAbs := by
  have hsign : v < 0 ↔ v.toInt < 0 := by simp [Int64.lt_iff_toInt_lt]
  simp only [signed, String.toList_ofList, hsign]

/-- A cell that is written in decimal is a literal for its value. -/
theorem decimal_stands (v : Cell) : Decimal (decimal v).toList v.toInt := by
  have hread := readFrom_magnitude 10 (by omega) (by omega) v.toInt.natAbs
  obtain ⟨hdigits, hvalue⟩ := readFrom_eq_some_iff.mp hread
  have hne := magnitude_ne_nil 10 v.toInt.natAbs
  have htext : (decimal v).toList = if v.toInt < 0 then '-' :: magnitude 10 v.toInt.natAbs
      else magnitude 10 v.toInt.natAbs := toList_signed 10 v
  rw [htext]
  split
  · next hneg =>
    have heq : -(v.toInt.natAbs : Int) = v.toInt := by omega
    have h := Decimal.negative hne hdigits
    rwa [← hvalue, heq] at h
  · next hpos =>
    have heq : (v.toInt.natAbs : Int) = v.toInt := by omega
    have h := Decimal.plain hne hdigits
    rwa [← hvalue, heq] at h

end Numeral

end TokenForth

import Mathlib.Data.Nat.Digits.Defs
import TokenForth.Proofs.Numerals

/-!
# Canonical numerals

In every radix a number has one numeral: its digits from the most significant one on, without a zero
in front. A cell is written as the numeral of its value with a sign, or as that of its bits, and what
is written with a sign is read back as the same cell.
-/
namespace TokenForth.Numeral

def symbols : List Char := "0123456789abcdefghijklmnopqrstuvwxyz".toList

/-- The places of a number in a radix, most significant first, without a zero in front of others. -/
structure Places (radix n : Nat) (places : List Nat) : Prop where
  nonempty : places ≠ []
  below : ∀ d ∈ places, d < radix
  leading : places.head? = some 0 → places = [0]
  value : Nat.ofDigits radix places.reverse = n

/-- The text is the numeral of a number. -/
def IsNumeral (radix n : Nat) (text : List Char) : Prop :=
  ∃ places, Places radix n places ∧ text.map some = places.map (symbols[·]?)

/-- The text is the numeral of an integer: that of its size, behind a minus sign if it is
negative. -/
inductive IsSignedNumeral (radix : Nat) : Int → List Char → Prop
  | plain {n : Nat} {text : List Char} (h : IsNumeral radix n text) : IsSignedNumeral radix n text
  | negative {n : Nat} {text : List Char} (hn : n ≠ 0) (h : IsNumeral radix n text) :
    IsSignedNumeral radix (-n) ('-' :: text)

variable {radix n : Nat}

theorem Places.eq_digits {places : List Nat} (h : Places radix n places) (hradix : 2 ≤ radix) :
    places = if n = 0 then [0] else (Nat.digits radix n).reverse := by
  by_cases hzero : places = [0]
  · have hn : n = 0 := by
      rw [← h.value, hzero]
      simp
    rw [hzero, if_pos hn]
  · have hlast : ∀ hne : places.reverse ≠ [], places.reverse.getLast hne ≠ 0 := by
      intro hne hlast
      apply hzero
      apply h.leading
      rw [List.getLast_reverse] at hlast
      rw [List.head?_eq_some_head h.nonempty, hlast]
    have hdigits := Nat.digits_ofDigits radix hradix places.reverse
      (fun d hd => h.below d (List.mem_reverse.mp hd)) hlast
    rw [h.value] at hdigits
    have hn : n ≠ 0 := by
      rw [← Nat.digits_ne_nil_iff_ne_zero (b := radix), hdigits]
      simpa using h.nonempty
    rw [if_neg hn, hdigits, List.reverse_reverse]

theorem IsNumeral.unique {text text' : List Char} (h : IsNumeral radix n text)
    (h' : IsNumeral radix n text') (hradix : 2 ≤ radix) : text = text' := by
  obtain ⟨places, hplaces, htext⟩ := h
  obtain ⟨places', hplaces', htext'⟩ := h'
  rw [hplaces.eq_digits hradix] at htext
  rw [hplaces'.eq_digits hradix, ← htext] at htext'
  exact ((List.map_inj_right fun _ _ => Option.some.inj).mp htext').symm

theorem places_digits (hradix : 2 ≤ radix) (n : Nat) :
    Places radix n (digits radix n).reverse := by
  induction n using Nat.strongRecOn with
  | _ n ih =>
    rcases Nat.lt_or_ge n radix with h | h
    · rw [digits_of_lt h]
      exact ⟨by simp, by simpa using h, by simp, by simp⟩
    · have hquotient := ih (n / radix) (Nat.div_lt_self (by omega) (by omega))
      have hpositive : n / radix ≠ 0 := by
        have := Nat.div_pos h (by omega)
        omega
      rw [digits_of_le hradix h, List.reverse_cons]
      refine ⟨by simp, ?_, ?_, ?_⟩
      · intro d hd
        rcases List.mem_append.mp hd with hd | hd
        · exact hquotient.below d hd
        · rw [List.mem_singleton.mp hd]
          exact Nat.mod_lt n (by omega)
      · -- the most significant place is that of the quotient, which is not zero
        intro hhead
        have hfirst := List.head?_eq_some_head hquotient.nonempty
        rw [List.head?_append, hfirst, Option.some_or, ← hfirst] at hhead
        have hvalue := hquotient.value
        rw [hquotient.leading hhead] at hvalue
        exact absurd (by simpa using hvalue.symm) hpositive
      · have hvalue := hquotient.value
        rw [List.reverse_reverse] at hvalue
        rw [List.reverse_append, List.reverse_reverse, List.reverse_singleton,
          List.singleton_append, Nat.ofDigits_cons, hvalue]
        exact Nat.mod_add_div n radix

theorem symbols_getElem? {d : Nat} (h : d < 36) : symbols[d]? = some (digitChar d) := by
  have hall : ∀ d : Fin 36, symbols[d.val]? = some (digitChar d) := by decide
  exact hall ⟨d, h⟩

theorem isNumeral_magnitude (hlow : 2 ≤ radix) (hhigh : radix ≤ 36) (n : Nat) :
    IsNumeral radix n (magnitude radix n) := by
  have hplaces := places_digits hlow n
  refine ⟨_, hplaces, ?_⟩
  rw [magnitude, ← List.map_reverse, List.map_map]
  apply List.map_congr_left
  intro d hd
  exact (symbols_getElem? (Nat.lt_of_lt_of_le (hplaces.below d hd) hhigh)).symm

theorem writingRadix_bounds (radix : Nat) : 2 ≤ writingRadix radix ∧ writingRadix radix ≤ 36 := by
  unfold writingRadix
  split
  · next h => simpa [isRadix] using h
  · omega

theorem isSignedNumeral_signed (radix : Nat) (v : Cell) :
    IsSignedNumeral (writingRadix radix) v.toInt (signed radix v).toList := by
  obtain ⟨hlow, hhigh⟩ := writingRadix_bounds radix
  have hnumeral := isNumeral_magnitude hlow hhigh v.toInt.natAbs
  rw [toList_signed]
  split
  · next hsign =>
    have hsigned := IsSignedNumeral.negative (by omega) hnumeral
    rwa [Int.ofNat_natAbs_of_nonpos (by omega), Int.neg_neg] at hsigned
  · next hsign =>
    have hsigned := IsSignedNumeral.plain hnumeral
    rwa [Int.natAbs_of_nonneg (by omega)] at hsigned

theorem toNat_toUInt64 (v : Cell) : v.toUInt64.toNat = (v.toInt % 2 ^ 64).toNat := by
  have hbits : v.toInt = (v.toUInt64.toNat : Int).bmod (2 ^ 64) :=
    BitVec.toInt_eq_toNat_bmod v.toBitVec
  have hpower : (2 : Int) ^ 64 = ((2 ^ 64 : Nat) : Int) := by norm_cast
  have hlt := v.toUInt64.toNat_lt
  rw [hbits, hpower, Int.bmod_emod]
  omega

theorem isNumeral_unsigned (radix : Nat) (v : Cell) :
    IsNumeral (writingRadix radix) (v.toInt % 2 ^ 64).toNat (unsigned radix v).toList := by
  obtain ⟨hlow, hhigh⟩ := writingRadix_bounds radix
  rw [unsigned, String.toList_ofList, toNat_toUInt64]
  exact isNumeral_magnitude hlow hhigh _

theorem read?_negative (hradix : isRadix radix = true) {text : String} {digits : List Char}
    (h : text.toList = '-' :: digits) :
    read? radix text = (readMagnitude radix digits).bind fun n => Cell.ofInt? (-(n : Int)) := by
  simp only [read?, hradix, h, if_true]

theorem read?_plain (hradix : isRadix radix = true) {text : String}
    (h : ∀ c ∈ text.toList.head?, digitValue? c ≠ none) :
    read? radix text = (readMagnitude radix text.toList).bind fun n => Cell.ofInt? n := by
  rw [read?, if_pos hradix]
  split
  · next rest htext =>
    rw [htext] at h
    exact absurd rfl (h '-' rfl)
  · next rest htext =>
    rw [htext] at h
    exact absurd rfl (h '+' rfl)
  · rfl

theorem readMagnitude_magnitude (hlow : 2 ≤ radix) (hhigh : radix ≤ 36) (n : Nat) :
    readMagnitude radix (magnitude radix n) = some n := by
  have hread := readFrom_magnitude radix hlow hhigh n
  obtain ⟨c, rest, htext⟩ := List.exists_cons_of_ne_nil (magnitude_ne_nil radix n)
  rw [htext] at hread ⊢
  exact hread

theorem read?_signed (hlow : 2 ≤ radix) (hhigh : radix ≤ 36) (v : Cell) :
    read? radix (signed radix v) = some v := by
  have hradix : isRadix radix = true := by simp [isRadix, hlow, hhigh]
  have htext := toList_signed radix v
  rw [writingRadix, if_pos hradix] at htext
  have hread := readMagnitude_magnitude hlow hhigh v.toInt.natAbs
  split at htext
  · next hsign =>
    rw [read?_negative hradix htext, hread, Option.bind_some, Cell.ofInt?_eq_some_iff]
    omega
  · next hsign =>
    have hhead : ∀ c ∈ (signed radix v).toList.head?, digitValue? c ≠ none := by
      intro c hc hnone
      obtain ⟨rest, hrest⟩ := List.head?_eq_some_iff.mp hc
      rw [← htext, hrest] at hread
      simp [readMagnitude, readFrom, hnone] at hread
    rw [read?_plain hradix hhead, htext, hread, Option.bind_some, Cell.ofInt?_eq_some_iff]
    omega

/-- In a radix from 2 to 36 a cell is written as its numeral, with a sign or by its bits, and read
back from the one with a sign. Every other radix writes decimal numerals. There is one numeral for
each number. -/
theorem written_cell_read_back (radix : Nat) (v : Cell) :
    (2 ≤ radix → radix ≤ 36 →
      read? radix (signed radix v) = some v ∧
      IsSignedNumeral radix v.toInt (signed radix v).toList ∧
      IsNumeral radix (v.toInt % 2 ^ 64).toNat (unsigned radix v).toList) ∧
    (radix < 2 ∨ 36 < radix →
      IsSignedNumeral 10 v.toInt (signed radix v).toList ∧
      IsNumeral 10 (v.toInt % 2 ^ 64).toNat (unsigned radix v).toList) ∧
    (2 ≤ radix → ∀ n text text', IsNumeral radix n text → IsNumeral radix n text' →
      text = text') := by
  have hsigned := isSignedNumeral_signed radix v
  have hunsigned := isNumeral_unsigned radix v
  refine ⟨fun hlow hhigh => ⟨read?_signed hlow hhigh v, ?_⟩, fun hradix => ?_, ?_⟩
  · have hwriting : writingRadix radix = radix := by simp [writingRadix, isRadix, hlow, hhigh]
    rw [hwriting] at hsigned hunsigned
    exact ⟨hsigned, hunsigned⟩
  · have hwriting : writingRadix radix = 10 := by
      rw [writingRadix, if_neg]
      simp only [isRadix, Bool.and_eq_true, decide_eq_true_eq]
      omega
    rw [hwriting] at hsigned hunsigned
    exact ⟨hsigned, hunsigned⟩
  · exact fun hradix n text text' h h' => h.unique h' hradix

/-- The least cell, in hexadecimal and in a radix that is none. -/
theorem written_cell_read_back_least :
    let least : Cell := -9223372036854775808
    signed 16 least = "-8000000000000000" ∧ read? 16 "-8000000000000000" = some least ∧
    IsSignedNumeral 16 (-9223372036854775808) "-8000000000000000".toList ∧
    IsNumeral 16 9223372036854775808 (unsigned 16 least).toList ∧
    IsSignedNumeral 10 (-9223372036854775808) (signed 37 least).toList ∧
    ∀ text, IsNumeral 16 9223372036854775808 text → text = "8000000000000000".toList := by
  intro least
  have hsigned : signed 16 least = "-8000000000000000" := by decide +kernel
  have hunsigned : unsigned 16 least = "8000000000000000" := by decide +kernel
  obtain ⟨hwritten, -, hunique⟩ := written_cell_read_back 16 least
  obtain ⟨hread, hnumeral, hbits⟩ := hwritten (by omega) (by omega)
  have hdecimal := (written_cell_read_back 37 least).2.1 (by omega)
  rw [hsigned] at hread hnumeral
  refine ⟨hsigned, hread, hnumeral, hbits, hdecimal.1, fun text htext => ?_⟩
  rw [hunsigned] at hbits
  exact hunique (by omega) _ _ _ htext hbits

end TokenForth.Numeral

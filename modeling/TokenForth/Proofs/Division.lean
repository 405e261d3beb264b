import Mathlib.Data.Int.ModEq
import Mathlib.Data.Rat.Floor
import Mathlib.Tactic.LinearCombination
import TokenForth.Catalog

/-!
# Division

The three division words take their operands alike and differ in what they push. Quotients are those
of the rational numbers, truncated toward zero. One of them does not fit a cell, that of the least
cell by minus one, and wraps around.
-/
namespace TokenForth

/-- The integer next to a number in the direction of zero. -/
def truncate (x : ℚ) : ℤ := if 0 ≤ x then ⌊x⌋ else ⌈x⌉

/-- A number is truncated by taking away what is less than one and has its sign. -/
theorem truncate_eq {x : ℚ} {n : ℤ} (hnonneg : 0 ≤ x → 0 ≤ x - n) (hneg : x < 0 → x - n ≤ 0)
    (hpart : |x - n| < 1) : truncate x = n := by
  obtain ⟨hlower, hupper⟩ := abs_lt.mp hpart
  unfold truncate
  split
  · next hx =>
    have hn := hnonneg hx
    exact Int.floor_eq_iff.mpr ⟨by linarith, by linarith⟩
  · next hx =>
    have hn := hneg (not_le.mp hx)
    exact Int.ceil_eq_iff.mpr ⟨by linarith, by linarith⟩

/-- The remainder of a division has the sign of the dividend. -/
theorem tmod_nonneg_or_nonpos (a b : ℤ) : (0 ≤ a → 0 ≤ a.tmod b) ∧ (a ≤ 0 → a.tmod b ≤ 0) := by
  refine ⟨Int.tmod_nonneg b, fun ha => ?_⟩
  have hneg := Int.tmod_nonneg b (Int.neg_nonneg_of_nonpos ha)
  rw [Int.neg_tmod] at hneg
  omega

/-- The remainder is smaller than the divisor. -/
theorem abs_tmod_lt {a b : ℤ} (hb : b ≠ 0) : |a.tmod b| < |b| := by
  rw [Int.abs_eq_natAbs, Int.abs_eq_natAbs, Int.natAbs_tmod]
  exact_mod_cast Nat.mod_lt _ (Int.natAbs_pos.mpr hb)

theorem tdiv_eq_truncate {a b : ℤ} (hb : b ≠ 0) : a.tdiv b = truncate (a / b) := by
  have hbq : (b : ℚ) ≠ 0 := by exact_mod_cast hb
  have hsum : (a.tmod b : ℚ) + b * a.tdiv b = a := by exact_mod_cast Int.tmod_add_mul_tdiv a b
  have hpart : (a / b : ℚ) - a.tdiv b = a.tmod b / b := by
    rw [eq_div_iff hbq, sub_mul, div_mul_cancel₀ _ hbq]
    linear_combination -hsum
  obtain ⟨hpos, hneg⟩ := tmod_nonneg_or_nonpos a b
  symm
  apply truncate_eq
  · intro hquotient
    rw [hpart]
    rcases div_nonneg_iff.mp hquotient with ⟨ha, hb⟩ | ⟨ha, hb⟩
    · exact div_nonneg (by exact_mod_cast hpos (by exact_mod_cast ha)) hb
    · exact div_nonneg_of_nonpos (by exact_mod_cast hneg (by exact_mod_cast ha)) hb
  · intro hquotient
    rw [hpart]
    rcases div_neg_iff.mp hquotient with ⟨ha, hb⟩ | ⟨ha, hb⟩
    · exact div_nonpos_of_nonneg_of_nonpos
        (by exact_mod_cast hpos (by exact_mod_cast ha.le)) hb.le
    · exact div_nonpos_of_nonpos_of_nonneg
        (by exact_mod_cast hneg (by exact_mod_cast ha.le)) hb.le
  · rw [hpart, abs_div, div_lt_one (abs_pos.mpr hbq)]
    exact_mod_cast abs_tmod_lt hb

namespace Cell

/-- The two cells are quotient and remainder of a dividend and a divisor. -/
structure Divided (a b q r : Cell) : Prop where
  sum : q.toInt * b.toInt + r.toInt ≡ a.toInt [ZMOD 2 ^ 64]
  bound : |r.toInt| < |b.toInt|
  sign : r = 0 ∨ r.toInt.sign = a.toInt.sign
  truncated : ¬ (a = Int64.minValue ∧ b = -1) → q.toInt = truncate (a.toInt / b.toInt)
  wraps : a = Int64.minValue ∧ b = -1 → q = Int64.minValue ∧ r = 0

theorem toInt_ne_zero {b : Cell} (hb : b ≠ 0) : b.toInt ≠ 0 := by
  rw [← Int64.toInt_zero]
  exact fun h => hb (Int64.toInt_inj.mp h)

/-- All quotients fit a cell but one. -/
theorem toInt_quotient {a b : Cell} (h : ¬ (a = Int64.minValue ∧ b = -1)) :
    (a / b).toInt = a.toInt.tdiv b.toInt := by
  by_cases ha : a = Int64.minValue
  · exact Int64.toInt_div_of_ne_right a b fun hb => h ⟨ha, hb⟩
  · exact Int64.toInt_div_of_ne_left a b ha

theorem divided_div_mod {a b : Cell} (hb : b ≠ 0) : Divided a b (a / b) (a % b) where
  sum := by
    have hsum : a.toInt.tdiv b.toInt * b.toInt + a.toInt.tmod b.toInt = a.toInt := by
      linear_combination Int.tmod_add_mul_tdiv a.toInt b.toInt
    have hquotient : (a / b).toInt ≡ a.toInt.tdiv b.toInt [ZMOD 2 ^ 64] := by
      rw [Int64.toInt_div]
      exact Int.bmod_emod
    rw [Int64.toInt_mod]
    calc (a / b).toInt * b.toInt + a.toInt.tmod b.toInt
        ≡ a.toInt.tdiv b.toInt * b.toInt + a.toInt.tmod b.toInt [ZMOD 2 ^ 64] :=
          (hquotient.mul_right b.toInt).add_right _
      _ = a.toInt := hsum
  bound := by
    rw [Int64.toInt_mod]
    exact abs_tmod_lt (toInt_ne_zero hb)
  sign := by
    rw [← Int64.toInt_inj, Int64.toInt_mod, Int64.toInt_zero, Int.sign_tmod]
    split
    · next hdvd => exact .inl (Int.tmod_eq_zero_of_dvd hdvd)
    · exact .inr rfl
  truncated h := by rw [toInt_quotient h, tdiv_eq_truncate (toInt_ne_zero hb)]
  wraps := by
    rintro ⟨rfl, rfl⟩
    exact ⟨Int64.minValue_div_neg_one, by decide⟩

end Cell

open Machine

def Machine.dividing (results : Cell → Cell → List Cell) : Exec Unit := do
  let (a, b) ← popOperands
  pushAll (results a b)

/-- What a division word pushes, the first cell at the bottom. -/
def Arithmetic.results? : Arithmetic → Option (Cell → Cell → List Cell)
  | quotient => some fun a b => [a / b]
  | remainder => some fun a b => [a % b]
  | divide => some fun a b => [a % b, a / b]
  | _ => none

theorem Arithmetic.run_eq_dividing {word : Arithmetic} {results : Cell → Cell → List Cell}
    (h : word.results? = some results) : word.run = dividing results := by
  cases word <;> cases h <;> rfl

namespace Machine

theorem pushAll_eq (cells : List Cell) (m : Machine) :
    pushAll cells m = .done () { m with
      data := ⟨cells.reverse ++ m.data.cells, m.data.free - cells.length⟩ } := by
  induction cells generalizing m with
  | nil => rfl
  | cons c cells ih =>
    have hnext := ih (pushed c m)
    simp only [pushAll, push, Exec.update, Bind.bind, hnext]
    simp [pushed, Stack.push, Nat.sub_sub, Nat.add_comm]

section Operands

variable {m : Machine} {a b : Cell} {rest : List Cell} (h : m.data.cells = b :: a :: rest)
include h

theorem popOperands_eq : popOperands m =
    let taken : Machine := { m with data := ⟨rest, m.data.free + 2⟩ }
    if b = 0 then .failed (taken.fault .divisionByZero) taken else .done (a, b) taken := by
  obtain ⟨config, ⟨cells, free⟩, returns, radix, dictionary, memory⟩ := m
  obtain rfl : cells = b :: a :: rest := h
  simp only [popOperands, pop, Stack.pop?, Bind.bind]
  split <;> rfl

/-- The operands are gone, whether the division fails or not. -/
theorem dividing_zero (hb : b = 0) (results : Cell → Cell → List Cell) :
    ∃ m', dividing results m = .failed (m.fault .divisionByZero) m' := by
  simp only [dividing, Bind.bind, popOperands_eq h, hb, if_true]
  exact ⟨_, rfl⟩

theorem dividing_nonzero (hb : b ≠ 0) (results : Cell → Cell → List Cell) :
    ∃ free, dividing results m =
      .done () { m with data := ⟨(results a b).reverse ++ rest, free⟩ } := by
  simp only [dividing, Bind.bind, popOperands_eq h, hb, if_false, pushAll_eq]
  exact ⟨_, rfl⟩

/-- A division word leaves its results above the rest of the stack, and fails if there are none. -/
theorem execute_division (word : Arithmetic) {w : Word} {results : Cell → Cell → List Cell}
    (hw : w.action = .primitive (.arithmetic word)) (hword : word.results? = some results) (n : Nat)
    (location : Location) :
    (b = 0 → ∃ f m', execute n location w m = .failed f m' ∧ f.kind = .divisionByZero) ∧
    (b ≠ 0 → ∃ free, execute n location w m = .done () { m with
      data := ⟨(results a b).reverse ++ rest, free⟩, location := some location }) := by
  have hrun : execute n location w m =
      (dividing results).after callExited (callEntered ⟨w.name, location⟩ m) := by
    rw [← Arithmetic.run_eq_dividing hword]
    simp only [execute, runWord, runAction, hw]
    rfl
  have hcalled : (callEntered ⟨w.name, location⟩ m).data.cells = b :: a :: rest := h
  rw [hrun]
  constructor
  · intro hb
    obtain ⟨m', hfailed⟩ := dividing_zero hcalled hb results
    simp only [Exec.after, hfailed]
    exact ⟨_, _, rfl, rfl⟩
  · intro hb
    obtain ⟨free, hdone⟩ := dividing_nonzero hcalled hb results
    simp only [Exec.after, hdone]
    exact ⟨free, rfl⟩

/-- With the divisor zero on top of the stack all three division words fail. With any other divisor
they leave quotient and remainder of the same division above the rest of the stack, `/MOD` both of
them with the quotient on top, and change nothing else but the location. -/
theorem division_words_agree (n : Nat) (location : Location) :
    ∃ quotient remainder divide : Word,
      Catalog.words.find? (·.name = "/") = some quotient ∧
      Catalog.words.find? (·.name = "MOD") = some remainder ∧
      Catalog.words.find? (·.name = "/MOD") = some divide ∧
      (b = 0 → ∀ w ∈ [quotient, remainder, divide], ∃ f m',
        execute n location w m = .failed f m' ∧ f.kind = .divisionByZero) ∧
      (b ≠ 0 → ∃ q r : Cell, Cell.Divided a b q r ∧
        (∃ free, execute n location divide m =
          .done () { m with data := ⟨q :: r :: rest, free⟩, location := some location }) ∧
        (∃ free, execute n location quotient m =
          .done () { m with data := ⟨q :: rest, free⟩, location := some location }) ∧
        ∃ free, execute n location remainder m =
          .done () { m with data := ⟨r :: rest, free⟩, location := some location }) := by
  refine ⟨_, _, _, rfl, rfl, rfl, ?_, ?_⟩
  · intro hb w hw
    simp only [List.mem_cons, List.not_mem_nil, or_false] at hw
    rcases hw with rfl | rfl | rfl
    · exact (execute_division h .quotient rfl rfl n location).1 hb
    · exact (execute_division h .remainder rfl rfl n location).1 hb
    · exact (execute_division h .divide rfl rfl n location).1 hb
  · intro hb
    refine ⟨a / b, a % b, Cell.divided_div_mod hb, ?_, ?_, ?_⟩
    · exact (execute_division h .divide rfl rfl n location).2 hb
    · exact (execute_division h .quotient rfl rfl n location).2 hb
    · exact (execute_division h .remainder rfl rfl n location).2 hb

end Operands

/-- The least cell is divided by minus one above another cell, and a cell by zero. -/
theorem division_words_agree_least :
    let m : Machine := { blank {} with data := ⟨[-1, Int64.minValue, 7], 0⟩ }
    let zero : Machine := { blank {} with data := ⟨[0, 5], 0⟩ }
    ∃ divide : Word, Catalog.words.find? (·.name = "/MOD") = some divide ∧
      (∃ free, execute 0 {} divide m =
        .done () { m with data := ⟨[Int64.minValue, 0, 7], free⟩, location := some {} }) ∧
      ∃ f m', execute 0 {} divide zero = .failed f m' ∧ f.kind = .divisionByZero := by
  intro m zero
  have hm : m.data.cells = [-1, Int64.minValue, 7] := rfl
  have hzero : zero.data.cells = [0, 5] := rfl
  obtain ⟨_, _, divide, -, -, hdivide, -, hdone⟩ := division_words_agree hm 0 {}
  obtain ⟨_, _, divide', -, -, hdivide', hfailed, -⟩ := division_words_agree hzero 0 {}
  obtain ⟨q, r, hdivided, hrun, -⟩ := hdone (by decide)
  obtain ⟨rfl, rfl⟩ := hdivided.wraps ⟨rfl, rfl⟩
  obtain rfl : divide = divide' := Option.some.inj (hdivide.symm.trans hdivide')
  exact ⟨divide, hdivide, hrun, hfailed rfl divide (by simp)⟩

end Machine

end TokenForth

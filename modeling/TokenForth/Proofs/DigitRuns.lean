import TokenForth.Catalog
import TokenForth.Proofs.Bookkeeping
import TokenForth.Proofs.Canonical
import TokenForth.Proofs.Rendering

/-!
# Runs of decimal digits

A run of decimal digits is a literal of the source if its decimal value fits a cell, and then the
radix of the machine does not matter. A longer run is a word, and a word that has no other meaning is
read in the radix of the machine. In a radix of ten or more such a run is too long as well. In a
smaller radix it may fit: then it stands for another number than its decimal one.
-/
namespace TokenForth

namespace Numeral

/-- The integer that a text of an optional minus sign and decimal digits stands for in a radix, if the
radix has all of its digits. -/
inductive InRadix (radix : Nat) : List Char → Int → Prop
  | plain {digits : List Char} (h : digits ≠ []) (hdigits : ∀ c ∈ digits, c.isDigit)
    (hbelow : ∀ c ∈ digits, c.toNat - 48 < radix) :
    InRadix radix digits (Nat.ofDigitChars radix digits 0)
  | negative {digits : List Char} (h : digits ≠ []) (hdigits : ∀ c ∈ digits, c.isDigit)
    (hbelow : ∀ c ∈ digits, c.toNat - 48 < radix) :
    InRadix radix ('-' :: digits) (-(Nat.ofDigitChars radix digits 0 : Int))

theorem ofDigitChars_cons (radix : Nat) (c : Char) (text : List Char) (n : Nat) :
    Nat.ofDigitChars radix (c :: text) n =
      Nat.ofDigitChars radix text (n * radix + (c.toNat - 48)) := by
  rw [Nat.mul_comm]
  rfl

/-- Decimal digits are read in every radix that has them. -/
theorem readFrom_digits_iff {radix n k : Nat} {text : List Char} (h : ∀ c ∈ text, c.isDigit) :
    readFrom radix n text = some k ↔
      (∀ c ∈ text, c.toNat - 48 < radix) ∧ k = Nat.ofDigitChars radix text n := by
  induction text generalizing n with
  | nil => simp [readFrom, Nat.ofDigitChars, eq_comm]
  | cons c text ih =>
    rw [List.forall_mem_cons] at h
    rw [readFrom, (digitValue?_of_isDigit h.1).1, ofDigitChars_cons, List.forall_mem_cons]
    by_cases hc : c.toNat - 48 < radix
    · simp only [hc, if_true, ih h.2, true_and]
    · simp [hc]

theorem readMagnitude_digits_iff {radix k : Nat} {text : List Char} (hne : text ≠ [])
    (h : ∀ c ∈ text, c.isDigit) : readMagnitude radix text = some k ↔
      (∀ c ∈ text, c.toNat - 48 < radix) ∧ k = Nat.ofDigitChars radix text 0 := by
  obtain ⟨c, rest, rfl⟩ := List.exists_cons_of_ne_nil hne
  exact readFrom_digits_iff h

theorem not_isDigit_minus {digits : List Char} : ¬ ∀ c ∈ '-' :: digits, c.isDigit := by
  intro h
  have hminus : ('-' : Char).isDigit := h '-' List.mem_cons_self
  revert hminus
  decide

/-- A run of decimal digits is read as what it stands for in the radix, if that fits a cell. -/
theorem read?_digits_iff {radix : Nat} (hradix : isRadix radix = true) {text : String} {value : Int}
    (h : Decimal text.toList value) {v : Cell} :
    read? radix text = some v ↔ InRadix radix text.toList v.toInt := by
  generalize htext : text.toList = run at h
  cases h with
  | plain hne hdigits =>
    have hhead : ∀ c ∈ text.toList.head?, digitValue? c ≠ none := by
      intro c hc
      have hmem : c ∈ run := htext ▸ List.mem_of_head? hc
      simp [(digitValue?_of_isDigit (hdigits c hmem)).1]
    rw [read?_plain hradix hhead, htext, Option.bind_eq_some_iff]
    constructor
    · rintro ⟨n, hn, hv⟩
      obtain ⟨hbelow, rfl⟩ := (readMagnitude_digits_iff hne hdigits).mp hn
      rw [Cell.ofInt?_eq_some_iff.mp hv]
      exact .plain hne hdigits hbelow
    · intro hv
      generalize hi : v.toInt = i at hv
      cases hv with
      | plain _ _ hbelow =>
        exact ⟨_, (readMagnitude_digits_iff hne hdigits).mpr ⟨hbelow, rfl⟩,
          Cell.ofInt?_eq_some_iff.mpr hi⟩
      | negative => exact absurd hdigits not_isDigit_minus
  | @negative digits hne hdigits =>
    rw [read?_negative hradix htext, Option.bind_eq_some_iff]
    constructor
    · rintro ⟨n, hn, hv⟩
      obtain ⟨hbelow, rfl⟩ := (readMagnitude_digits_iff hne hdigits).mp hn
      rw [Cell.ofInt?_eq_some_iff.mp hv]
      exact .negative hne hdigits hbelow
    · intro hv
      generalize hi : v.toInt = i at hv
      cases hv with
      | plain _ hall _ => exact absurd hall not_isDigit_minus
      | negative _ _ hbelow =>
        exact ⟨_, (readMagnitude_digits_iff hne hdigits).mpr ⟨hbelow, rfl⟩,
          Cell.ofInt?_eq_some_iff.mpr hi⟩

/-- The same digits stand for no less in a greater radix. -/
theorem ofDigitChars_mono {radix radix' : Nat} (h : radix ≤ radix') (text : List Char) {n n' : Nat}
    (hn : n ≤ n') : Nat.ofDigitChars radix text n ≤ Nat.ofDigitChars radix' text n' := by
  induction text generalizing n n' with
  | nil => exact hn
  | cons c text ih =>
    rw [ofDigitChars_cons, ofDigitChars_cons]
    apply ih
    have hproduct : n * radix ≤ n' * radix' := Nat.mul_le_mul hn h
    omega

/-- What fits no cell in decimal fits none in a greater radix. -/
theorem not_inRadix_of_ten_le {radix : Nat} (hradix : 10 ≤ radix) {text : List Char} {value : Int}
    (h : Decimal text value) (hlarge : ∀ v : Cell, v.toInt ≠ value) (v : Cell) :
    ¬ InRadix radix text v.toInt := by
  have hrange : value < -9223372036854775808 ∨ 9223372036854775807 < value := by
    by_contra hfits
    apply hlarge (Int64.ofInt value)
    exact Int64.toInt_ofInt_of_le (by omega) (by omega)
  have hlow := v.le_toInt
  have hhigh := v.toInt_lt
  intro hv
  generalize hi : v.toInt = i at hv
  cases h with
  | plain hne hdigits =>
    have hmono := ofDigitChars_mono hradix text (Nat.le_refl 0)
    cases hv with
    | plain => omega
    | negative => exact not_isDigit_minus hdigits
  | @negative digits hne hdigits =>
    have hmono := ofDigitChars_mono hradix digits (Nat.le_refl 0)
    cases hv with
    | plain _ hall _ => exact not_isDigit_minus hall
    | negative => omega

end Numeral

theorem Numeral.Decimal.unique {text : List Char} {n n' : Int} (h : Numeral.Decimal text n)
    (h' : Numeral.Decimal text n') : n = n' := by
  cases h with
  | plain _ hdigits =>
    cases h' with
    | plain => rfl
    | negative => exact absurd hdigits not_isDigit_minus
  | negative =>
    cases h' with
    | plain _ hdigits => exact absurd hdigits not_isDigit_minus
    | negative => rfl

/-- A run of digits that fits no cell is a word. -/
theorem Numeral.Decimal.spelled_word {text : String} {value : Int}
    (h : Numeral.Decimal text.toList value) (hlarge : ∀ v : Cell, v.toInt ≠ value) :
    (Lexeme.word text).Spelled text.toList := by
  have hspelled := Lexeme.Spelled.word h.isRun fun v hv => hlarge v (hv.unique h)
  rwa [String.ofList_toList] at hspelled

/-- A run is a source of one token. -/
theorem results_run {text : String} {lexeme : Lexeme} (h : lexeme.Spelled text.toList)
    (hrun : lexeme.isRun = true) (path : String) :
    Statement.results path text =
      [.ok (.expression [⟨lexeme, (Location.start path).after text.toList⟩])] := by
  let piece : Piece := ⟨lexeme, text.toList, []⟩
  have hwritten : Written (piece.spelling ++ (piece.gap ++ [])) [piece] [] :=
    .cons h (by simp [piece, IsGap]) (by simp [piece, Ended]) .nil
  let layout : Layout := ⟨[], [piece], []⟩
  have hlayout : layout.IsOf text.toList :=
    ⟨by simp [layout, IsGap], _, by simp [layout, piece], hwritten⟩
  have htokens := collect_eq_ok (tokenize_complete hlayout rfl path)
  let t : Token := ⟨lexeme, (Location.start path).after text.toList⟩
  have hpartition : Statement.Partition [t] [.expression [t]] := by
    apply Statement.partition_cons_iff.mpr
    refine ⟨[t], [], rfl, .expression ?_ (by simp), .nil, by simp⟩
    rintro hcolon
    rw [show lexeme = .colon from hcolon] at hrun
    cases hrun
  have hdrain := Statement.drain_tokens_iff.mpr hpartition
  rw [Statement.results, htokens]
  exact hdrain

namespace Machine

open Exec

theorem process_expression {path text : String} {tokens : List Token}
    (h : Statement.results path text = [.ok (.expression tokens)]) {steps : Nat} {m m' : Machine}
    (hrun : runTokens steps tokens { m with output := "" } = .done () m') :
    process steps path text m = .done [m'.output] { m' with output := "" } := by
  rw [process, h]
  simp only [runResults, runResultsVia, runResultVia, runStatementVia, carryOutVia, takeOutput,
    Setting.act, Setting.onFault, Bind.bind, Pure.pure, Exec.onFault, hrun]

theorem runTokens_number (m : Machine) (v : Cell) (loc : Location) (k : Nat) :
    runTokens (k + 3) [⟨.number v, loc⟩] m =
      .done () { m with data := m.data.push v, location := some loc } := rfl

/-- A name that is run by itself does what it means. -/
theorem runTokens_word (m : Machine) (name : String) (loc : Location) (k : Nat) :
    runTokens (k + 3) [⟨.word name, loc⟩] m =
      ((runMeaning (Invocation.run (runTokens (k + 2))) (k + 1) loc name
        (runStream (runTokens (k + 2)) (k + 1)) (m.meaning name)).after streamExited).onFault
          (fun f => !f.isLeave) cleared { streamEntered [] m with location := some loc } := rfl

theorem runTokens_numeral {m : Machine} {name : String} {v : Cell} (h : m.meaning name = .number v)
    (loc : Location) (k : Nat) : runTokens (k + 3) [⟨.word name, loc⟩] m =
      .done () { m with data := m.data.push v, location := some loc } := by
  rw [runTokens_word, h]
  rfl

theorem runTokens_unknown {m : Machine} {name : String} (h : m.meaning name = .unknown)
    (loc : Location) (k : Nat) : runTokens (k + 3) [⟨.word name, loc⟩] m =
      .done () { m with location := some loc, output := m.output ++ (name ++ "?") } := by
  rw [runTokens_word, h]
  rfl

/-- Without a variable or a word of that name, a name is a number or nothing. -/
theorem meaning_of_free {m : Machine} {name : String} (hvariable : m.memory.address? name = none)
    (hword : m.dictionary.get? name = none) :
    m.meaning name = (Numeral.read? m.radix name).elim .unknown .number := by
  rw [meaning, hvariable, hword]
  cases Numeral.read? m.radix name <;> rfl

/-- A run of digits that fits no cell is read in the radix of the machine. -/
theorem process_oversized {text : String} {value : Int} (h : Numeral.Decimal text.toList value)
    (hlarge : ∀ v : Cell, v.toInt ≠ value) {m : Machine} (hvariable : m.memory.address? text = none)
    (hword : m.dictionary.get? text = none) (path : String) (k : Nat) :
    (∀ v, Numeral.read? m.radix text = some v → process (k + 3) path text m = .done [""]
      { m with
        data := m.data.push v
        location := some ((Location.start path).after text.toList)
        output := "" }) ∧
    (Numeral.read? m.radix text = none → process (k + 3) path text m = .done [text ++ "?"]
      { m with location := some ((Location.start path).after text.toList), output := "" }) := by
  have hresults := results_run (h.spelled_word hlarge) rfl path
  have hmeaning : meaning { m with output := "" } text =
      (Numeral.read? m.radix text).elim .unknown .number := meaning_of_free hvariable hword
  constructor
  · intro v hread
    rw [hread] at hmeaning
    exact process_expression hresults (runTokens_numeral hmeaning _ k)
  · intro hread
    rw [hread] at hmeaning
    have hrun := process_expression hresults (runTokens_unknown hmeaning _ k)
    rwa [String.empty_append] at hrun

/-- A run of decimal digits that fits a cell is that number in every radix. One that does not fit is
no decimal number: it is what it stands for in the radix of the machine, if that fits, and otherwise
it is printed with a question mark. It never fits in a radix of ten or more. -/
theorem process_digit_run {text : String} {value : Int} (h : Numeral.Decimal text.toList value)
    (path : String) (m : Machine) (k : Nat) :
    (∀ v : Cell, v.toInt = value →
      process (k + 3) path text m = .done [""]
        { m with
          data := m.data.push v
          location := some ((Location.start path).after text.toList)
          output := "" }) ∧
    ((∀ v : Cell, v.toInt ≠ value) → Numeral.isRadix m.radix = true →
      m.memory.address? text = none → m.dictionary.get? text = none →
      (∀ v : Cell, Numeral.InRadix m.radix text.toList v.toInt →
        process (k + 3) path text m = .done [""]
          { m with
            data := m.data.push v
            location := some ((Location.start path).after text.toList)
            output := "" }) ∧
      ((∀ v : Cell, ¬ Numeral.InRadix m.radix text.toList v.toInt) →
        process (k + 3) path text m = .done [text ++ "?"]
          { m with
            location := some ((Location.start path).after text.toList)
            output := "" }) ∧
      (10 ≤ m.radix → ∀ v : Cell, ¬ Numeral.InRadix m.radix text.toList v.toInt)) := by
  refine ⟨fun v hv => ?_, fun hlarge hradix hvariable hword => ?_⟩
  · have hspelled : (Lexeme.number v).Spelled text.toList := .number h.isRun (hv ▸ h)
    exact process_expression (results_run hspelled rfl path) (runTokens_number _ v _ k)
  · obtain ⟨hnumber, hunknown⟩ := process_oversized h hlarge hvariable hword path k
    have hread (v : Cell) := Numeral.read?_digits_iff hradix h (v := v)
    refine ⟨fun v hv => hnumber v ((hread v).mpr hv), fun hnone => hunknown ?_, fun hten => ?_⟩
    · apply Option.eq_none_iff_forall_ne_some.mpr
      exact fun v hv => hnone v ((hread v).mp hv)
    · exact Numeral.not_inRadix_of_ten_le hten h hlarge

/-- The least run that does not fit, in hexadecimal. -/
theorem process_digit_run_least :
    let m := { blank {} with radix := 16 }
    Numeral.Decimal "9223372036854775808".toList 9223372036854775808 ∧
    (∀ v : Cell, v.toInt ≠ 9223372036854775808) ∧
    process 3 "<input>" "9223372036854775808" m = .done ["9223372036854775808?"]
      { m with location := some ⟨"<input>", 1, 20⟩ } ∧
    process 3 "<input>" "-9223372036854775808" m = .done [""]
      { m with
        data := m.data.push (-9223372036854775808)
        location := some ⟨"<input>", 1, 21⟩ } := by
  intro m
  have hrun : Numeral.Decimal "9223372036854775808".toList 9223372036854775808 :=
    .plain (by simp) (by simp)
  have hleast : Numeral.Decimal "-9223372036854775808".toList
      (Int64.toInt (-9223372036854775808)) := Numeral.literal?_eq_some_iff.mp (by decide +kernel)
  have hlarge : ∀ v : Cell, v.toInt ≠ 9223372036854775808 := by
    intro v
    have hhigh := v.toInt_lt
    omega
  obtain ⟨-, hword⟩ := process_digit_run hrun "<input>" m 0
  obtain ⟨-, hunknown, hten⟩ := hword hlarge rfl rfl rfl
  obtain ⟨hnumber, -⟩ := process_digit_run hleast "<input>" m 0
  exact ⟨hrun, hlarge, hunknown (hten (by decide)), hnumber _ rfl⟩

/-- A run that does not fit a cell is pushed as a number in a radix in which it fits, and not
reported as unknown. -/
theorem oversized_run_pushed_in_binary :
    let m := bare { radix := 2 }
    Numeral.Decimal "10000000000000000000".toList 10000000000000000000 ∧
    (∀ v : Cell, v.toInt ≠ 10000000000000000000) ∧ m.radix = 2 ∧
    m.memory.address? "10000000000000000000" = none ∧
    m.dictionary.get? "10000000000000000000" = none ∧
    process 3 "<input>" "10000000000000000000" m = .done [""]
      { m with
        data := m.data.push 524288
        location := some ((Location.start "<input>").after "10000000000000000000".toList)
        output := "" } := by
  intro m
  have hrun : Numeral.Decimal "10000000000000000000".toList 10000000000000000000 :=
    .plain (by simp) (by simp)
  have hlarge : ∀ v : Cell, v.toInt ≠ 10000000000000000000 := by
    intro v
    have hhigh := v.toInt_lt
    omega
  have hword : m.dictionary.get? "10000000000000000000" = none := by decide +kernel
  have hread : Numeral.read? 2 "10000000000000000000" = some 524288 := by decide +kernel
  have hpushed := (process_oversized hrun hlarge (m := m) rfl hword "<input>" 0).1 _ hread
  exact ⟨hrun, hlarge, rfl, rfl, hword, hpushed⟩

end Machine

end TokenForth

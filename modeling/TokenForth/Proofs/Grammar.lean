import Mathlib.Data.List.TakeWhile
import TokenForth.Proofs.Numerals
import TokenForth.Token.Lexer

/-!
# The grammar of tokens

A source is written as separators and lexemes in turn, each lexeme in a spelling of its own. Where
this does not reach the end of the source, what remains starts with something that no token starts
with: a comment or a quotation that is never closed, or a closing parenthesis. Every text can be
written in this way.
-/
namespace TokenForth

def separators : List Char := [' ', '\t', '\r', '\n']

/-- The characters that are special where a token starts, the point of a quotation apart. -/
def delimiters : List Char := [':', ';', '(', ')']

def IsGap (gap : List Char) : Prop := ∀ c ∈ gap, c ∈ separators

def Ended (rest : List Char) : Prop := ∀ c ∈ rest.head?, c ∈ separators

/-- Characters that form a number or a word if the text is ended after them. -/
structure IsRun (run : List Char) : Prop where
  nonempty : run ≠ []
  solid : ∀ c ∈ run, c ∉ separators
  start : ∀ c ∈ run.head?, c ∉ delimiters
  unquoted : ¬ ['.', '"'] <+: run

namespace Lexeme

def isRun : Lexeme → Bool
  | number _ | word _ => true
  | _ => false

/-- The ways in which a lexeme can be written. -/
inductive Spelled : Lexeme → List Char → Prop
  | colon : Spelled .colon [':']
  | semicolon : Spelled .semicolon [';']
  | comment {text : List Char} (h : ')' ∉ text) :
    Spelled (.comment (String.ofList text)) ('(' :: (text ++ [')']))
  | quote {text : List Char} (h : '"' ∉ text) :
    Spelled (.quote (String.ofList text)) ('.' :: '"' :: (text ++ ['"']))
  | number {run : List Char} {value : Cell} (h : IsRun run)
    (hvalue : Numeral.Decimal run value.toInt) : Spelled (.number value) run
  | word {run : List Char} (h : IsRun run) (hvalue : ∀ value : Cell, ¬ Numeral.Decimal run value.toInt) :
    Spelled (.word (String.ofList run)) run

theorem Spelled.exists_cons {lexeme : Lexeme} {spelling : List Char} (h : lexeme.Spelled spelling) :
    ∃ c cs, spelling = c :: cs ∧ c ∉ separators := by
  have hrun {run : List Char} (h : IsRun run) : ∃ c cs, run = c :: cs ∧ c ∉ separators := by
    obtain ⟨c, cs, rfl⟩ := List.exists_cons_of_ne_nil h.nonempty
    exact ⟨c, cs, rfl, h.solid c List.mem_cons_self⟩
  cases h with
  | colon | semicolon | comment | quote => exact ⟨_, _, rfl, by decide⟩
  | number h | word h => exact hrun h

end Lexeme

/-- The beginnings of a text that no token has, with what is wrong with them. -/
inductive Refused : List Char → Fault.Cause → Prop
  | openComment {text : List Char} (h : ')' ∉ text) : Refused ('(' :: text) .openComment
  | openQuote {text : List Char} (h : '"' ∉ text) : Refused ('.' :: '"' :: text) .openQuote
  | strayParenthesis {text : List Char} : Refused (')' :: text) .strayParenthesis

/-- A text ends well after its last token, or with something that is refused. -/
inductive Ending : List Char → Option Fault.Cause → Prop
  | complete : Ending [] none
  | refused {remainder : List Char} {cause : Fault.Cause} (h : Refused remainder cause) :
    Ending remainder (some cause)

/-- A lexeme as it is written, with the separators after it. -/
structure Piece where
  lexeme : Lexeme
  spelling : List Char
  gap : List Char
  deriving DecidableEq, Repr

/-- A text that is written as some pieces and a remainder. -/
inductive Written : List Char → List Piece → List Char → Prop
  | nil {remainder : List Char} : Written remainder [] remainder
  | cons {piece : Piece} {rest remainder : List Char} {pieces : List Piece}
    (hspelled : piece.lexeme.Spelled piece.spelling) (hgap : IsGap piece.gap)
    (hended : piece.lexeme.isRun = true → Ended (piece.gap ++ rest))
    (hrest : Written rest pieces remainder) :
    Written (piece.spelling ++ (piece.gap ++ rest)) (piece :: pieces) remainder

/-- The separators before the first lexeme, the lexemes with the separators after each of them, and
what remains. -/
structure Layout where
  gap : List Char
  pieces : List Piece
  remainder : List Char
  deriving DecidableEq, Repr

namespace Layout

def IsOf (layout : Layout) (text : List Char) : Prop :=
  IsGap layout.gap ∧
    ∃ body, text = layout.gap ++ body ∧ Written body layout.pieces layout.remainder

def lexemes (layout : Layout) : List Lexeme := layout.pieces.map (·.lexeme)

end Layout

theorem isSeparator_iff {c : Char} : isSeparator c = true ↔ c ∈ separators := by
  simp [isSeparator, separators, or_assoc]

theorem isSeparator_eq_false_iff {c : Char} : isSeparator c = false ↔ c ∉ separators := by
  rw [← isSeparator_iff, Bool.not_eq_true]

theorem takeWhile_append_eq {p : Char → Bool} {body rest : List Char}
    (hbody : ∀ c ∈ body, p c = true) (hrest : ∀ c ∈ rest.head?, p c = false) :
    (body ++ rest).takeWhile p = body := by
  rw [List.takeWhile_append_of_pos hbody]
  cases rest with
  | nil => simp
  | cons c rest => simp [hrest c rfl]

/-- The first character that is not dropped fails the test. -/
theorem head_dropWhile {p : Char → Bool} {text : List Char} {c : Char}
    (h : c ∈ (text.dropWhile p).head?) : p c = false := by
  have hhead := List.head?_dropWhile_not p text
  rw [Option.mem_def.mp h] at hhead
  simpa using hhead

theorem isGap_takeWhile (text : List Char) : IsGap (text.takeWhile isSeparator) :=
  fun _ hc => isSeparator_iff.mp (List.mem_takeWhile_imp hc)

theorem head_dropWhile_isSeparator (text : List Char) :
    ∀ c ∈ (text.dropWhile isSeparator).head?, c ∉ separators :=
  fun _ hc => isSeparator_eq_false_iff.mp (head_dropWhile hc)

theorem Refused.exists_cons {remainder : List Char} {cause : Fault.Cause}
    (h : Refused remainder cause) : ∃ c cs, remainder = c :: cs ∧ c ∉ separators := by
  cases h <;> exact ⟨_, _, rfl, by decide⟩

/-- Pieces do not start with a separator, so the separators before them can be told. -/
theorem Written.head {text remainder : List Char} {pieces : List Piece}
    {cause : Option Fault.Cause} (h : Written text pieces remainder) (hend : Ending remainder cause) :
    ∀ c ∈ text.head?, c ∉ separators := by
  have hcons {text rest : List Char} (h : ∃ c cs, text = c :: cs ∧ c ∉ separators) :
      ∀ c ∈ (text ++ rest).head?, c ∉ separators := by
    obtain ⟨c, cs, rfl, hc⟩ := h
    intro d hd
    cases hd
    exact hc
  cases h with
  | nil =>
    cases hend with
    | complete => exact fun c hc => by cases hc
    | refused h =>
      rw [← List.append_nil text]
      exact hcons h.exists_cons
  | cons hspelled _ _ _ => exact hcons hspelled.exists_cons

theorem exists_enclosed {stop : Char} {text : List Char} (h : stop ∈ text) :
    ∃ inner rest, stop ∉ inner ∧ text = inner ++ [stop] ++ rest := by
  obtain ⟨inner, rest, rfl, hinner⟩ := List.eq_append_cons_of_mem h
  exact ⟨inner, rest, hinner, by simp⟩

/-- A run up to the next separator is a number or a word. -/
theorem exists_spelled_run {run : List Char} (h : IsRun run) :
    ∃ lexeme : Lexeme, lexeme.Spelled run := by
  by_cases hvalue : ∃ value : Cell, Numeral.Decimal run value.toInt
  · obtain ⟨value, hvalue⟩ := hvalue
    exact ⟨_, .number h hvalue⟩
  · exact ⟨_, .word h fun value hv => hvalue ⟨value, hv⟩⟩

theorem isRun_takeWhile {c : Char} {cs : List Char} (hc : c ∉ separators) (hstart : c ∉ delimiters)
    (hquote : ¬ ['.', '"'] <+: c :: cs) : IsRun ((c :: cs).takeWhile fun d => !isSeparator d) where
  nonempty := by simp [isSeparator_eq_false_iff.mpr hc]
  solid := by
    intro d hd
    have hsolid := List.mem_takeWhile_imp hd
    exact isSeparator_eq_false_iff.mp (by simpa using hsolid)
  start := by
    intro d hd
    simp only [isSeparator_eq_false_iff.mpr hc, List.takeWhile_cons, Bool.not_false, if_true,
      List.head?_cons, Option.mem_some_iff] at hd
    exact hd ▸ hstart
  unquoted := fun h => hquote (h.trans (List.takeWhile_prefix _))

theorem ended_dropWhile (text : List Char) : Ended (text.dropWhile fun d => !isSeparator d) := by
  intro c hc
  have hsep := head_dropWhile hc
  exact isSeparator_iff.mp (by simpa using hsep)

/-- A text that does not start with a separator starts with a token or is refused. -/
theorem refused_or_spelled {c : Char} (cs : List Char) (hc : c ∉ separators) :
    (∃ cause, Refused (c :: cs) cause) ∨
      ∃ (lexeme : Lexeme) (spelling rest : List Char), c :: cs = spelling ++ rest ∧
        lexeme.Spelled spelling ∧ (lexeme.isRun = true → Ended rest) := by
  by_cases hdelimiter : c ∈ delimiters
  · simp only [delimiters, List.mem_cons, List.not_mem_nil, or_false] at hdelimiter
    rcases hdelimiter with rfl | rfl | rfl | rfl
    · exact .inr ⟨_, _, cs, rfl, .colon, fun h => by cases h⟩
    · exact .inr ⟨_, _, cs, rfl, .semicolon, fun h => by cases h⟩
    · by_cases hstop : ')' ∈ cs
      · obtain ⟨text, rest, htext, rfl⟩ := exists_enclosed hstop
        exact .inr ⟨_, _, rest, by simp, .comment htext, fun h => by cases h⟩
      · exact .inl ⟨_, .openComment hstop⟩
    · exact .inl ⟨_, .strayParenthesis⟩
  · by_cases hquote : ['.', '"'] <+: c :: cs
    · obtain ⟨text, htext⟩ := hquote
      rw [← htext]
      by_cases hstop : '"' ∈ text
      · obtain ⟨inner, rest, hinner, rfl⟩ := exists_enclosed hstop
        exact .inr ⟨_, _, rest, by simp, .quote hinner, fun h => by cases h⟩
      · exact .inl ⟨_, .openQuote hstop⟩
    · obtain ⟨lexeme, hspelled⟩ := exists_spelled_run (isRun_takeWhile hc hdelimiter hquote)
      refine .inr ⟨lexeme, _, _, List.takeWhile_append_dropWhile.symm, hspelled, fun _ => ?_⟩
      exact ended_dropWhile (c :: cs)

theorem exists_written (text : List Char) (h : ∀ c ∈ text.head?, c ∉ separators) :
    ∃ pieces remainder cause, Written text pieces remainder ∧ Ending remainder cause := by
  induction hn : text.length using Nat.strongRecOn generalizing text with
  | _ n ih =>
    cases text with
    | nil => exact ⟨[], [], none, .nil, .complete⟩
    | cons c cs =>
      rcases refused_or_spelled cs (h c rfl) with ⟨cause, hrefused⟩ | hspelled
      · exact ⟨[], c :: cs, some cause, .nil, .refused hrefused⟩
      · obtain ⟨lexeme, spelling, rest, htext, hspelled, hended⟩ := hspelled
        obtain ⟨d, ds, rfl, -⟩ := hspelled.exists_cons
        have hshorter : (rest.dropWhile isSeparator).length < n := by
          have hdrop := (List.dropWhile_sublist (l := rest) isSeparator).length_le
          rw [htext] at hn
          simp only [List.cons_append, List.length_cons, List.length_append] at hn
          omega
        obtain ⟨pieces, remainder, cause, hwritten, hend⟩ :=
          ih _ hshorter _ (head_dropWhile_isSeparator rest) rfl
        -- the separators after the lexeme belong to its piece
        have hrest : rest.takeWhile isSeparator ++ rest.dropWhile isSeparator = rest :=
          List.takeWhile_append_dropWhile
        let piece : Piece := ⟨lexeme, d :: ds, rest.takeWhile isSeparator⟩
        have hpiece : piece.lexeme.isRun = true → Ended (piece.gap ++ rest.dropWhile isSeparator) := by
          rwa [hrest]
        refine ⟨piece :: pieces, remainder, cause, ?_, hend⟩
        rw [htext, ← hrest]
        exact .cons hspelled (isGap_takeWhile rest) hpiece hwritten

/-- Every text can be written as separators and lexemes, up to something that is refused. -/
theorem exists_layout (text : List Char) :
    ∃ (layout : Layout) (cause : Option Fault.Cause), layout.IsOf text ∧ Ending layout.remainder cause := by
  obtain ⟨pieces, remainder, cause, hwritten, hend⟩ :=
    exists_written _ (head_dropWhile_isSeparator text)
  refine ⟨⟨text.takeWhile isSeparator, pieces, remainder⟩, cause, ⟨isGap_takeWhile text, _, ?_, hwritten⟩, hend⟩
  exact List.takeWhile_append_dropWhile.symm

end TokenForth

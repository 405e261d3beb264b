import Mathlib.Data.List.Induction
import TokenForth.Proofs.Lexing

/-!
# Positions in the source

A token stands at the location behind its last character. The line of that location is told by the
line ends before it, and the column by the characters since the last of them. Since every token takes
some text, each stands behind the one before it.
-/
namespace TokenForth

namespace Location

def behind (path : String) (text : List Char) : Location :=
  ⟨path, 1 + text.count '\n', 1 + (text.reverse.takeWhile (· ≠ '\n')).length⟩

theorem behind_concat (path : String) (text : List Char) (c : Char) :
    behind path (text ++ [c]) = (behind path text).advance c := by
  by_cases hc : c = '\n'
  · simp [behind, advance, hc, Nat.add_assoc]
  · simp [behind, advance, hc, Nat.add_comm]

/-- Reading characters one by one leads to the location behind the text they form. -/
theorem after_start (path : String) (text : List Char) :
    (start path).after text = behind path text := by
  induction text using List.reverseRecOn with
  | nil => rfl
  | append_singleton text c ih =>
    rw [after_append, ih, behind_concat]
    rfl

/-- The first location stands before the second in one source. -/
def Before (a b : Location) : Prop := a.line < b.line ∨ a.line = b.line ∧ a.column < b.column

theorem Before.trans {a b c : Location} (hab : a.Before b) (hbc : b.Before c) : a.Before c := by
  simp only [Before] at *
  omega

theorem before_advance (loc : Location) (c : Char) : loc.Before (loc.advance c) := by
  unfold Before advance
  split
  · exact .inl (Nat.lt_succ_self _)
  · exact .inr ⟨rfl, Nat.lt_succ_self _⟩

theorem before_after (loc : Location) {text : List Char} (h : text ≠ []) :
    loc.Before (loc.after text) := by
  induction text generalizing loc with
  | nil => exact absurd rfl h
  | cons c text ih =>
    have hfirst := before_advance loc c
    by_cases htext : text = []
    · rw [htext]
      exact hfirst
    · exact hfirst.trans (ih (loc.advance c) htext)

/-- What stands behind the end of a text stands behind its start. -/
theorem Before.of_after {a b : Location} {text : List Char} (h : (a.after text).Before b) :
    a.Before b := by
  by_cases htext : text = []
  · simpa [htext] using h
  · exact (a.before_after htext).trans h

end Location

def Piece.writeAll (pieces : List Piece) : List Char :=
  pieces.flatMap fun piece => piece.spelling ++ piece.gap

theorem Written.text_eq {body remainder : List Char} {pieces : List Piece}
    (h : Written body pieces remainder) : body = Piece.writeAll pieces ++ remainder := by
  induction h with
  | nil => rfl
  | cons _ _ _ _ ih =>
    rw [Piece.writeAll, List.flatMap_cons, List.append_assoc, List.append_assoc, ih]
    rfl

namespace Layout

theorem IsOf.text_eq {layout : Layout} {text : List Char} (h : layout.IsOf text) :
    text = layout.gap ++ Piece.writeAll layout.pieces ++ layout.remainder := by
  obtain ⟨-, body, rfl, hwritten⟩ := h
  rw [hwritten.text_eq, List.append_assoc]

theorem length_tokensFrom (loc : Location) (pieces : List Piece) :
    (tokensFrom loc pieces).length = pieces.length := by
  simpa using congrArg List.length (lexemes_tokensFrom loc pieces)

/-- What follows some pieces stands behind the text up to their end. -/
theorem after_endFrom (layout : Layout) (path : String) (pieces : List Piece) (text : List Char) :
    (endFrom (layout.start path) pieces).after text =
      .behind path (layout.gap ++ Piece.writeAll pieces ++ text) := by
  rw [← Location.after_start, Location.after_append, Location.after_append]
  rfl

/-- The token at a place is that of the piece at this place. -/
theorem tokens_getElem? {layout : Layout} {path : String} {i : Nat} {t : Token}
    (h : (layout.tokens path)[i]? = some t) :
    ∃ first piece last, layout.pieces = first ++ piece :: last ∧ first.length = i ∧
      t = ⟨piece.lexeme, .behind path (layout.gap ++ Piece.writeAll first ++ piece.spelling)⟩ := by
  obtain ⟨hi, ht⟩ := List.getElem?_eq_some_iff.mp h
  have hparts := List.take_append_drop i (layout.tokens path)
  rw [List.drop_eq_getElem_cons hi, ht] at hparts
  obtain ⟨first, piece, last, hpieces, hfirst, rfl⟩ := tokensFrom_eq_append hparts.symm
  refine ⟨first, piece, last, hpieces, ?_, by rw [after_endFrom]⟩
  rw [← length_tokensFrom (layout.start path) first, hfirst, List.length_take]
  omega

/-- Each piece has its token, at the same place. -/
theorem getElem?_tokens {layout : Layout} (path : String) {first last : List Piece} {piece : Piece}
    (h : layout.pieces = first ++ piece :: last) :
    (layout.tokens path)[first.length]? =
      some ⟨piece.lexeme, .behind path (layout.gap ++ Piece.writeAll first ++ piece.spelling)⟩ := by
  rw [tokens, h, tokensFrom_append,
    List.getElem?_append_right (Nat.le_of_eq (length_tokensFrom _ _)), length_tokensFrom,
    Nat.sub_self, ← after_endFrom]
  rfl

end Layout

open Layout

theorem Refused.of_ending {remainder : List Char} {cause : Fault.Cause} {ending : Option Fault.Cause}
    (h : Refused remainder cause) (hend : Ending remainder ending) : ending = some cause := by
  cases hend with
  | complete => cases h
  | refused h' => cases h <;> cases h' <;> rfl

/-- What is refused is read up to its first character or to its end. -/
theorem Refused.extent_ne_nil {remainder : List Char} {cause : Fault.Cause}
    (h : Refused remainder cause) : cause.extent remainder ≠ [] := by
  cases h <;> simp [Fault.Cause.extent]

def locationOf? : Except Fault Token → Option Location
  | .ok t => some t.location
  | .error f => f.location

def Layout.resultsFrom (loc : Location) (pieces : List Piece) (remainder : List Char)
    (cause : Option Fault.Cause) : List (Except Fault Token) :=
  (tokensFrom loc pieces).map .ok ++ (faultsAt (endFrom loc pieces) remainder cause).map .error

theorem Layout.resultsFrom_cons (loc : Location) (piece : Piece) (pieces : List Piece)
    (remainder : List Char) (cause : Option Fault.Cause) :
    resultsFrom loc (piece :: pieces) remainder cause =
      .ok ⟨piece.lexeme, loc.after piece.spelling⟩ ::
        resultsFrom (loc.after (piece.spelling ++ piece.gap)) pieces remainder cause := by
  simp [resultsFrom, tokensFrom, endFrom]

/-- Tokens and the fault after them stand behind the start of the text, each behind the one before. -/
theorem Written.locations_increase {body remainder : List Char} {pieces : List Piece}
    {cause : Option Fault.Cause} (h : Written body pieces remainder) (hend : Ending remainder cause)
    (loc : Location) :
    (∀ next ∈ (resultsFrom loc pieces remainder cause).filterMap locationOf?, loc.Before next) ∧
      ((resultsFrom loc pieces remainder cause).filterMap locationOf?).Pairwise Location.Before := by
  induction h generalizing loc with
  | nil =>
    cases hend with
    | complete => exact ⟨fun next hnext => (by cases hnext), .nil⟩
    | refused hrefused =>
      refine ⟨fun next hnext => ?_, List.pairwise_singleton _ _⟩
      rw [List.mem_singleton.mp hnext]
      exact loc.before_after hrefused.extent_ne_nil
  | @cons piece rest remainder pieces hspelled _ _ _ ih =>
    have hspelling : loc.Before (loc.after piece.spelling) := by
      obtain ⟨c, cs, hcons, -⟩ := hspelled.exists_cons
      exact loc.before_after (by simp [hcons])
    -- the separators behind the token keep the order
    obtain ⟨hbehind, hpairwise⟩ := ih hend (loc.after (piece.spelling ++ piece.gap))
    have hlater (next : Location) (hnext : next ∈ (resultsFrom
        (loc.after (piece.spelling ++ piece.gap)) pieces remainder cause).filterMap locationOf?) :
        (loc.after piece.spelling).Before next := by
      have hafter := hbehind next hnext
      rw [Location.after_append] at hafter
      exact hafter.of_after
    rw [resultsFrom_cons, List.filterMap_cons_some (f := locationOf?) rfl, List.forall_mem_cons]
    exact ⟨⟨hspelling, fun next hnext => hspelling.trans (hlater next hnext)⟩,
      List.pairwise_cons.mpr ⟨hlater, hpairwise⟩⟩

/-- Faults come after all tokens. -/
theorem getElem?_results {tokens : List Token} {faults : List Fault} {i : Nat}
    {result : Except Fault Token}
    (h : (tokens.map .ok ++ faults.map .error)[i]? = some result) :
    (∃ t, result = .ok t ∧ tokens[i]? = some t) ∨
      ∃ f, result = .error f ∧ tokens.length ≤ i ∧ faults[i - tokens.length]? = some f := by
  rw [List.getElem?_append, List.length_map] at h
  split at h
  · rw [List.getElem?_map] at h
    obtain ⟨t, ht, rfl⟩ := Option.map_eq_some_iff.mp h
    exact .inl ⟨t, rfl, ht⟩
  · next hi =>
    rw [List.getElem?_map] at h
    obtain ⟨f, hf, rfl⟩ := Option.map_eq_some_iff.mp h
    exact .inr ⟨f, rfl, Nat.le_of_not_lt hi, hf⟩

/-- The fault of a layout is met behind its pieces, at what is refused. -/
theorem Layout.faults_getElem? {layout : Layout} {path : String} {cause : Option Fault.Cause}
    (hend : Ending layout.remainder cause) {i : Nat} {f : Fault}
    (h : (layout.faults path cause)[i]? = some f) :
    i = 0 ∧ Refused layout.remainder f.cause ∧ f.location = some (.behind path
      (layout.gap ++ Piece.writeAll layout.pieces ++ f.cause.extent layout.remainder)) := by
  generalize hremainder : layout.remainder = remainder at hend
  rw [faults, hremainder] at h
  cases hend with
  | complete => cases h
  | refused hrefused =>
    obtain ⟨hi, rfl⟩ := List.getElem?_eq_some_iff.mp h
    obtain rfl : i = 0 := by simpa [faultsAt] using hi
    exact ⟨rfl, hrefused, congrArg some (after_endFrom _ _ _ _)⟩

/-- The lexer gives out a token for each lexeme of the text and for nothing else, and each stands
behind the text up to the end of its spelling. The fault that follows if a rest is refused stands
behind the closing parenthesis that does not belong, or behind the whole text where a comment or a
quotation is never closed. So the locations increase. -/
theorem positions_exact (path text : String) :
    ∃ layout : Layout, layout.IsOf text.toList ∧ (∃ cause, Ending layout.remainder cause) ∧
      (∀ i t, (lex path text)[i]? = some (.ok t) →
        ∃ first piece last behind, layout.pieces = first ++ piece :: last ∧ first.length = i ∧
          text.toList = layout.gap ++ Piece.writeAll first ++ piece.spelling ++ behind ∧
          t.lexeme = piece.lexeme ∧
          t.location = .behind path (layout.gap ++ Piece.writeAll first ++ piece.spelling)) ∧
      (∀ first piece last, layout.pieces = first ++ piece :: last →
        (lex path text)[first.length]? = some (.ok ⟨piece.lexeme,
          .behind path (layout.gap ++ Piece.writeAll first ++ piece.spelling)⟩)) ∧
      (∀ i f, (lex path text)[i]? = some (.error f) →
        i = layout.pieces.length ∧ Refused layout.remainder f.cause ∧
          (f.cause = .strayParenthesis → ∃ behind,
            text.toList = layout.gap ++ Piece.writeAll layout.pieces ++ ')' :: behind ∧
            f.location = some (.behind path (layout.gap ++ Piece.writeAll layout.pieces ++ [')']))) ∧
          (f.cause ≠ .strayParenthesis → f.location = some (.behind path text.toList))) ∧
      (∀ cause, Refused layout.remainder cause →
        ∃ f, (lex path text)[layout.pieces.length]? = some (.error f) ∧ f.cause = cause) ∧
      ((lex path text).filterMap locationOf?).Pairwise Location.Before := by
  obtain ⟨layout, cause, hlayout, hend⟩ := exists_layout text.toList
  have hlex := lex_eq hlayout hend path
  have htext := hlayout.text_eq
  have hlength : (layout.tokens path).length = layout.pieces.length := length_tokensFrom _ _
  refine ⟨layout, hlayout, ⟨cause, hend⟩, fun i t ht => ?_, fun first piece last h => ?_,
    fun i f hf => ?_, fun c hc => ?_, ?_⟩
  · rw [hlex] at ht
    obtain ⟨u, hu, htoken⟩ | ⟨f, hf, -⟩ := getElem?_results ht
    · cases hu
      obtain ⟨first, piece, last, hpieces, hfirst, rfl⟩ := tokens_getElem? htoken
      refine ⟨first, piece, last, piece.gap ++ Piece.writeAll last ++ layout.remainder, hpieces,
        hfirst, ?_, rfl, rfl⟩
      rw [htext, hpieces]
      simp [Piece.writeAll]
    · cases hf
  · have htoken := getElem?_tokens path h
    obtain ⟨hlt, -⟩ := List.getElem?_eq_some_iff.mp htoken
    rw [hlex, List.getElem?_append_left (by rwa [List.length_map]), List.getElem?_map, htoken]
    rfl
  · rw [hlex] at hf
    obtain ⟨t, ht, -⟩ | ⟨g, hg, hi, hfault⟩ := getElem?_results hf
    · cases ht
    · cases hg
      obtain ⟨hplace, hrefused, hlocation⟩ := faults_getElem? hend hfault
      refine ⟨by omega, hrefused, fun hcause => ?_, fun hcause => ?_⟩
      · rw [hlocation, hcause]
        rw [hcause] at hrefused
        generalize layout.remainder = remainder at hrefused htext
        cases hrefused
        exact ⟨_, htext, rfl⟩
      · rw [hlocation, Fault.Cause.extent, if_neg hcause, ← htext]
  · obtain rfl := hc.of_ending hend
    rw [hlex, List.getElem?_append_right (by rw [List.length_map, hlength]), List.length_map,
      hlength, Nat.sub_self]
    exact ⟨_, rfl, rfl⟩
  · rw [hlex]
    obtain ⟨-, body, -, hwritten⟩ := hlayout
    exact (hwritten.locations_increase hend (layout.start path)).2

end TokenForth

import TokenForth.Proofs.Grammar

/-!
# The lexer and the grammar

The lexer gives out the lexemes of a layout of the source, each with the location that reading up to
its end leads to, and after them a fault if something is refused. Since a text has a layout and the
lexer gives out one thing only, the layout is the only one. So the lexer accepts a source exactly
if the grammar does.
-/
namespace TokenForth

namespace Location

def after (loc : Location) (text : List Char) : Location := text.foldl advance loc

@[simp] theorem after_nil (loc : Location) : loc.after [] = loc := rfl

@[simp] theorem after_append (loc : Location) (a b : List Char) :
    loc.after (a ++ b) = (loc.after a).after b := List.foldl_append

end Location

namespace Reader

/-- The second reader is the first one after a text has been taken. -/
structure Takes (r : Reader) (text : List Char) (s : Reader) : Prop where
  rest : r.rest = text ++ s.rest
  location : s.location = r.location.after text

variable {r s t : Reader}

theorem Takes.refl (r : Reader) : r.Takes [] r := ⟨rfl, rfl⟩

theorem Takes.trans {a b : List Char} (hs : r.Takes a s) (ht : s.Takes b t) : r.Takes (a ++ b) t where
  rest := by rw [hs.rest, ht.rest, List.append_assoc]
  location := by rw [ht.location, hs.location, Location.after_append]

theorem Takes.rest_eq {text rest : List Char} (h : r.Takes text s) (hr : r.rest = text ++ rest) :
    s.rest = rest := by
  rw [h.rest] at hr
  exact List.append_cancel_left hr

theorem takes_peek (n : Nat) (r : Reader) : r.Takes [] (r.peek n).2 := ⟨(rest_peek n r).symm, rfl⟩

theorem next_of_nil (h : r.rest = []) : r.next = (none, r) := by
  obtain ⟨ahead, unread, loc⟩ := r
  obtain ⟨rfl, rfl⟩ := List.append_eq_nil_iff.mp h
  rfl

theorem takes_next {c : Char} {cs : List Char} (h : r.rest = c :: cs) : r.Takes [c] r.next.2 where
  rest := by simp [h]
  location := by
    obtain ⟨ahead, unread, loc⟩ := r
    rcases ahead with _ | ⟨a, ahead⟩
    · rcases unread with _ | ⟨a, unread⟩
      · cases h
      · cases h
        rfl
    · cases h
      rfl

theorem takes_skip (n : Nat) (r : Reader) : r.Takes (r.rest.take n) (r.skip n) := by
  induction n generalizing r with
  | zero => exact .refl r
  | succ n ih =>
    have hnext := ih r.next.2
    cases h : r.rest with
    | nil => simpa [skip, next_of_nil h, h] using hnext
    | cons c cs =>
      have hrest : r.next.2.rest = cs := by simp [h]
      rw [hrest] at hnext
      exact (takes_next h).trans hnext

theorem takes_takeWhile (p : Char → Bool) (r : Reader) :
    r.Takes (r.rest.takeWhile p) (r.takeWhile p).2 := by
  have htake : r.rest.take (r.rest.takeWhile p).length = r.rest.takeWhile p :=
    (List.prefix_iff_eq_take.mp (List.takeWhile_prefix p)).symm
  have hskip := takes_skip (r.rest.takeWhile p).length r
  rwa [htake] at hskip

theorem enclosed_closed {stop : Char} {text rest : List Char}
    (hr : r.rest = text ++ [stop] ++ rest) (htext : stop ∉ text) (build : String → Lexeme)
    (missing : Fault.Cause) :
    ∃ s, r.enclosed stop build missing = (.ok ⟨build (String.ofList text), s.location⟩, s) ∧
      r.Takes (text ++ [stop]) s := by
  have hne : ∀ c ∈ text, decide (c ≠ stop) = true := by
    intro c hc
    have : c ≠ stop := fun h => htext (h ▸ hc)
    simpa using this
  have hspan : r.rest.takeWhile (fun c => decide (c ≠ stop)) = text := by
    rw [hr, List.append_assoc]
    exact takeWhile_append_eq hne (by simp)
  have htaken := takes_takeWhile (fun c => decide (c ≠ stop)) r
  rw [hspan] at htaken
  have hstop : (r.takeWhile (fun c => decide (c ≠ stop))).2.rest = stop :: rest := by
    apply htaken.rest_eq
    rw [hr, List.append_assoc]
    rfl
  refine ⟨_, ?_, htaken.trans (takes_next hstop)⟩
  have hnext := next_fst (r.takeWhile (fun c => decide (c ≠ stop))).2
  rw [hstop] at hnext
  have htext : (r.takeWhile (fun c => decide (c ≠ stop))).1 = text := hspan
  unfold enclosed
  generalize r.takeWhile (fun c => decide (c ≠ stop)) = taken at htext hnext
  obtain ⟨taken, s⟩ := taken
  dsimp only at htext hnext ⊢
  generalize s.next = following at hnext
  obtain ⟨o, s⟩ := following
  cases hnext
  rw [htext]

theorem enclosed_open {stop : Char} (h : stop ∉ r.rest) (build : String → Lexeme)
    (missing : Fault.Cause) :
    ∃ s, r.enclosed stop build missing = (.error (.atSource missing s.location), s) ∧
      r.Takes r.rest s := by
  have hspan : r.rest.takeWhile (fun c => decide (c ≠ stop)) = r.rest := by
    apply List.takeWhile_eq_self_iff.mpr
    intro c hc
    have : c ≠ stop := fun hstop => h (hstop ▸ hc)
    simpa using this
  have htaken := takes_takeWhile (fun c => decide (c ≠ stop)) r
  rw [hspan] at htaken
  have hend : (r.takeWhile (fun c => decide (c ≠ stop))).2.rest = [] :=
    htaken.rest_eq (List.append_nil _).symm
  refine ⟨_, ?_, htaken⟩
  simp only [enclosed, next_of_nil hend]

end Reader

theorem Lexeme.ofRun_eq_number {run : List Char} {value : Cell}
    (h : Numeral.Decimal run value.toInt) : Lexeme.ofRun run = .number value := by
  simp only [ofRun, Numeral.literal?_eq_some_iff.mpr h]

theorem Lexeme.ofRun_eq_word {run : List Char} (h : ∀ value : Cell, ¬ Numeral.Decimal run value.toInt) :
    Lexeme.ofRun run = .word (String.ofList run) := by
  have hnone : Numeral.literal? run = none :=
    Option.eq_none_iff_forall_ne_some.mpr fun value hvalue =>
      h value (Numeral.literal?_eq_some_iff.mp hvalue)
  simp only [ofRun, hnone]

/-- How much of something that is refused has been read when the fault arises. -/
def Fault.Cause.extent (cause : Fault.Cause) (remainder : List Char) : List Char :=
  if cause = .strayParenthesis then remainder.take 1 else remainder

namespace Reader

variable {r s : Reader}

/-- A run that is followed by a separator is not taken for a quotation. -/
theorem second_ne_quote {cs rest : List Char} (h : IsRun ('.' :: cs)) (hended : Ended rest) :
    ('.' :: cs ++ rest)[1]? ≠ some '"' := by
  cases cs with
  | nil =>
    intro hquote
    cases rest with
    | nil => cases hquote
    | cons d rest =>
      have hd : d = '"' := by simpa using hquote
      have hsep := hended d rfl
      rw [hd] at hsep
      revert hsep
      decide
  | cons d cs =>
    intro hquote
    have hd : d = '"' := by simpa using hquote
    exact h.unquoted ⟨cs, by rw [hd]; rfl⟩

theorem token_run {c : Char} {cs rest : List Char} (hr : r.rest = c :: cs ++ rest)
    (h : IsRun (c :: cs)) (hended : Ended rest) :
    ∃ s, r.token c = (.ok ⟨.ofRun (c :: cs), s.location⟩, s) ∧ r.Takes (c :: cs) s := by
  have hspan {s : Reader} (hs : r.Takes [] s) :
      (s.takeWhile fun d => !isSeparator d).1 = c :: cs ∧
        r.Takes (c :: cs) (s.takeWhile fun d => !isSeparator d).2 := by
    have hrest : s.rest.takeWhile (fun d => !isSeparator d) = c :: cs := by
      have hrest : s.rest = c :: cs ++ rest := hs.rest_eq hr
      rw [hrest]
      apply takeWhile_append_eq
      · intro d hd
        simp [isSeparator_eq_false_iff.mpr (h.solid d hd)]
      · intro d hd
        simp [isSeparator_iff.mpr (hended d hd)]
    have htaken := takes_takeWhile (fun d => !isSeparator d) s
    rw [hrest] at htaken
    exact ⟨hrest, hs.trans htaken⟩
  have hstart := h.start c rfl
  unfold token
  split
  -- a run starts with none of the four delimiters
  · exact absurd hstart (by decide)
  · exact absurd hstart (by decide)
  · exact absurd hstart (by decide)
  · exact absurd hstart (by decide)
  · by_cases hdot : c = '.'
    · subst hdot
      have hsecond : (r.peek 1).1 ≠ some '"' := by
        rw [peek_fst, hr]
        exact second_ne_quote h hended
      obtain ⟨htext, htakes⟩ := hspan (takes_peek 1 r)
      simp only [if_true, hsecond, if_false, htext]
      exact ⟨_, rfl, htakes⟩
    · obtain ⟨htext, htakes⟩ := hspan (.refl r)
      simp only [hdot, if_false, reduceCtorEq, htext]
      exact ⟨_, rfl, htakes⟩

theorem takes_opening {text : List Char} (hr : r.rest = '.' :: '"' :: text) :
    (r.peek 1).1 = some '"' ∧ r.Takes ['.', '"'] ((r.peek 1).2.skip 2) := by
  constructor
  · rw [peek_fst, hr]
    rfl
  · have hskip := takes_skip 2 (r.peek 1).2
    rw [rest_peek, hr] at hskip
    exact (takes_peek 1 r).trans hskip

/-- A lexeme in one of its spellings is read, and the reader stands after it. -/
theorem token_spelled {lexeme : Lexeme} {c : Char} {cs rest : List Char}
    (hr : r.rest = c :: cs ++ rest) (h : lexeme.Spelled (c :: cs))
    (hended : lexeme.isRun = true → Ended rest) :
    ∃ s, r.token c = (.ok ⟨lexeme, s.location⟩, s) ∧ r.Takes (c :: cs) s := by
  cases h with
  | colon => exact ⟨r.next.2, rfl, takes_next hr⟩
  | semicolon => exact ⟨r.next.2, rfl, takes_next hr⟩
  | @comment text htext =>
    have hopened := takes_next hr
    obtain ⟨s, hs, htakes⟩ := enclosed_closed (hopened.rest_eq hr) htext .comment .openComment
    exact ⟨s, hs, hopened.trans htakes⟩
  | @quote text htext =>
    obtain ⟨hsecond, hopened⟩ := takes_opening hr
    obtain ⟨s, hs, htakes⟩ := enclosed_closed (hopened.rest_eq hr) htext .quote .openQuote
    refine ⟨s, ?_, hopened.trans htakes⟩
    simpa [token, hsecond] using hs
  | number hrun hvalue =>
    obtain ⟨s, hs, htakes⟩ := token_run hr hrun (hended rfl)
    rw [Lexeme.ofRun_eq_number hvalue] at hs
    exact ⟨s, hs, htakes⟩
  | word hrun hvalue =>
    obtain ⟨s, hs, htakes⟩ := token_run hr hrun (hended rfl)
    rw [Lexeme.ofRun_eq_word hvalue] at hs
    exact ⟨s, hs, htakes⟩

/-- What is refused gives the fault for it. -/
theorem token_refused {cause : Fault.Cause} {c : Char} {cs : List Char} (hr : r.rest = c :: cs)
    (h : Refused (c :: cs) cause) :
    ∃ s, r.token c = (.error (.atSource cause s.location), s) ∧
      r.Takes (cause.extent (c :: cs)) s := by
  cases h with
  | openComment htext =>
    have hopened := takes_next hr
    have hrest : r.next.2.rest = cs := hopened.rest_eq hr
    rw [← hrest] at htext
    obtain ⟨s, hs, htakes⟩ := enclosed_open htext .comment .openComment
    rw [hrest] at htakes
    exact ⟨s, hs, hopened.trans htakes⟩
  | @openQuote text htext =>
    obtain ⟨hsecond, hopened⟩ := takes_opening hr
    have hrest : ((r.peek 1).2.skip 2).rest = text := hopened.rest_eq hr
    rw [← hrest] at htext
    obtain ⟨s, hs, htakes⟩ := enclosed_open htext .quote .openQuote
    rw [hrest] at htakes
    refine ⟨s, ?_, hopened.trans htakes⟩
    simpa [token, hsecond] using hs
  | strayParenthesis => exact ⟨r.next.2, rfl, takes_next hr⟩

end Reader

namespace Lexer

def deliver : Except Fault Token × Reader → Option (Except Fault Token) × Lexer
  | (.ok t, r) => (some (.ok t), ⟨r, false⟩)
  | (.error f, r) => (some (.error f), ⟨r, true⟩)

/-- A lexer skips the separators before a token. -/
theorem next_of_head {r : Reader} {gap : List Char} {c : Char} {cs : List Char}
    (hr : r.rest = gap ++ c :: cs) (hgap : IsGap gap) (hc : c ∉ separators) :
    ∃ s, r.Takes gap s ∧ next ⟨r, false⟩ = deliver (s.token c) := by
  have hspan : r.rest.takeWhile isSeparator = gap := by
    rw [hr]
    apply takeWhile_append_eq (fun d hd => isSeparator_iff.mpr (hgap d hd))
    rintro d hd
    cases hd
    exact isSeparator_eq_false_iff.mpr hc
  have htaken := Reader.takes_takeWhile isSeparator r
  rw [hspan] at htaken
  have hskipped := htaken.trans (Reader.takes_peek 0 _)
  rw [List.append_nil] at hskipped
  have hpeek : ((r.takeWhile isSeparator).2.peek 0).1 = some c := by
    rw [Reader.peek_fst, htaken.rest_eq hr]
    rfl
  refine ⟨_, hskipped, ?_⟩
  simp only [next, Bool.false_eq_true, if_false]
  generalize (r.takeWhile isSeparator).2.peek 0 = peeked at hpeek
  obtain ⟨o, s⟩ := peeked
  cases hpeek
  dsimp only
  rcases s.token c with ⟨_ | _, _⟩ <;> rfl

theorem next_of_gap {r : Reader} (hgap : IsGap r.rest) :
    ∃ s : Reader, next ⟨r, false⟩ = (none, ⟨s, false⟩) ∧ s.rest = [] := by
  have hrest : (r.takeWhile isSeparator).2.rest = [] := by
    rw [Reader.rest_takeWhile]
    apply List.dropWhile_eq_nil_iff.mpr
    exact fun c hc => isSeparator_iff.mpr (hgap c hc)
  have hpeek : ((r.takeWhile isSeparator).2.peek 0).1 = none := by
    rw [Reader.peek_fst, hrest]
    rfl
  refine ⟨((r.takeWhile isSeparator).2.peek 0).2, ?_, by rw [Reader.rest_peek, hrest]⟩
  simp only [next, Bool.false_eq_true, if_false]
  generalize (r.takeWhile isSeparator).2.peek 0 = peeked at hpeek
  obtain ⟨o, s⟩ := peeked
  cases hpeek
  rfl

theorem drain_of_none {l : Lexer} (h : l.next.1 = none) : l.drain = ([], l.next.2) := by
  rw [drain]
  split
  · next last hnext => rw [hnext]
  · next result following hnext =>
    rw [hnext] at h
    cases h

theorem drain_of_some {l following : Lexer} {result : Except Fault Token}
    (h : l.next = (some result, following)) :
    l.drain = (result :: following.drain.1, following.drain.2) := by
  rw [drain]
  split
  · next last hnext =>
    rw [hnext] at h
    cases h
  · next result' following' hnext =>
    rw [hnext] at h
    cases h
    rfl

/-- A lexer that has nothing more to give out stays so. -/
theorem next_next_of_none {l : Lexer} (h : l.next.1 = none) : l.next.2.next.1 = none := by
  obtain ⟨r, stopped⟩ := l
  cases stopped with
  | true => rfl
  | false =>
    have hgap : IsGap r.rest := by
      rcases hr : r.rest.dropWhile isSeparator with _ | ⟨c, cs⟩
      · exact fun c hc => isSeparator_iff.mp (List.dropWhile_eq_nil_iff.mp hr c hc)
      · have hrest : r.rest = r.rest.takeWhile isSeparator ++ c :: cs := by
          rw [← hr, List.takeWhile_append_dropWhile]
        have hc : c ∉ separators := head_dropWhile_isSeparator r.rest c (by rw [hr]; rfl)
        obtain ⟨s, -, hnext⟩ := next_of_head hrest (isGap_takeWhile _) hc
        rw [hnext] at h
        rcases hs : s.token c with ⟨_ | _, _⟩ <;> simp [hs, deliver] at h
    obtain ⟨s, hnext, hs⟩ := next_of_gap hgap
    obtain ⟨_, hagain, -⟩ := next_of_gap (r := s) (by simp [hs, IsGap])
    rw [hnext, hagain]

theorem next_drain (l : Lexer) : l.drain.2.next.1 = none := by
  induction hn : l.size using Nat.strongRecOn generalizing l with
  | _ n ih =>
    rcases hnext : l.next with ⟨_ | result, following⟩
    · rw [drain_of_none (by rw [hnext])]
      exact next_next_of_none (by rw [hnext])
    · rw [drain_of_some hnext]
      have hlt := l.size_next_lt result (by rw [hnext])
      rw [hnext] at hlt
      exact ih _ (hn ▸ hlt) following rfl

end Lexer

namespace Layout

def tokensFrom : Location → List Piece → List Token
  | _, [] => []
  | loc, piece :: pieces =>
    ⟨piece.lexeme, loc.after piece.spelling⟩ ::
      tokensFrom (loc.after (piece.spelling ++ piece.gap)) pieces

def endFrom (loc : Location) (pieces : List Piece) : Location :=
  loc.after (pieces.flatMap fun piece => piece.spelling ++ piece.gap)

def faultsAt (loc : Location) (remainder : List Char) : Option Fault.Cause → List Fault
  | none => []
  | some cause => [.atSource cause (loc.after (cause.extent remainder))]

def start (layout : Layout) (path : String) : Location := (Location.start path).after layout.gap

def tokens (layout : Layout) (path : String) : List Token :=
  tokensFrom (layout.start path) layout.pieces

def faults (layout : Layout) (path : String) (cause : Option Fault.Cause) : List Fault :=
  faultsAt (endFrom (layout.start path) layout.pieces) layout.remainder cause

theorem lexemes_tokensFrom (loc : Location) (pieces : List Piece) :
    (tokensFrom loc pieces).map (·.lexeme) = pieces.map (·.lexeme) := by
  induction pieces generalizing loc with
  | nil => rfl
  | cons piece pieces ih => simp [tokensFrom, ih]

theorem tokensFrom_append (loc : Location) (pieces pieces' : List Piece) :
    tokensFrom loc (pieces ++ pieces') =
      tokensFrom loc pieces ++ tokensFrom (endFrom loc pieces) pieces' := by
  induction pieces generalizing loc with
  | nil => rfl
  | cons piece pieces ih => simp [tokensFrom, endFrom, ih]

/-- Tokens up to some place are those of the pieces up to that place. -/
theorem tokensFrom_eq_append {loc : Location} {pieces : List Piece} {before after : List Token}
    {t : Token} (h : tokensFrom loc pieces = before ++ t :: after) :
    ∃ (first : List Piece) (piece : Piece) (last : List Piece), pieces = first ++ piece :: last ∧
      tokensFrom loc first = before ∧
      t = ⟨piece.lexeme, (endFrom loc first).after piece.spelling⟩ := by
  induction before generalizing loc pieces with
  | nil =>
    cases pieces with
    | nil => cases h
    | cons piece pieces =>
      cases h
      exact ⟨[], piece, pieces, rfl, rfl, rfl⟩
  | cons u before ih =>
    cases pieces with
    | nil => cases h
    | cons next pieces =>
      obtain ⟨hu, hrest⟩ := List.cons.inj h
      obtain ⟨first, piece, last, rfl, rfl, rfl⟩ := ih hrest
      refine ⟨next :: first, piece, last, rfl, ?_, ?_⟩
      · rw [← hu]
        rfl
      · simp [endFrom]

end Layout

open Layout

/-- The lexer gives out the tokens of the pieces and goes on with what remains, some separators
before it. -/
theorem Lexer.drain_pieces {body remainder : List Char} {pieces : List Piece}
    (h : Written body pieces remainder) {gap : List Char} (hgap : IsGap gap) {r : Reader}
    (hr : r.rest = gap ++ body) :
    ∃ (s : Reader) (gap' : List Char), IsGap gap' ∧ s.rest = gap' ++ remainder ∧
      s.location.after gap' = endFrom (r.location.after gap) pieces ∧
      (drain ⟨r, false⟩).1 =
        (tokensFrom (r.location.after gap) pieces).map .ok ++ (drain ⟨s, false⟩).1 := by
  induction h generalizing gap r with
  | nil => exact ⟨r, gap, hgap, hr, rfl, rfl⟩
  | @cons piece rest remainder pieces hspelled hpiece hended _ ih =>
    obtain ⟨c, cs, hspelling, hc⟩ := hspelled.exists_cons
    rw [hspelling] at hr hspelled
    obtain ⟨s, hs, hnext⟩ := next_of_head hr hgap hc
    obtain ⟨s', htoken, htakes⟩ := Reader.token_spelled (hs.rest_eq hr) hspelled hended
    rw [htoken] at hnext
    have hlocation : s'.location = (r.location.after gap).after piece.spelling := by
      rw [htakes.location, hs.location, hspelling]
    obtain ⟨last, gap', hgap', hlast, hend, hdrain⟩ :=
      ih hpiece (htakes.rest_eq (hs.rest_eq hr))
    refine ⟨last, gap', hgap', hlast, ?_, ?_⟩
    · rw [hend, hlocation]
      simp [endFrom]
    · rw [drain_of_some hnext, hdrain, hlocation]
      simp [tokensFrom]

/-- The lexer gives out the tokens of the pieces and the fault of what remains. -/
theorem Lexer.drain_written {body remainder : List Char} {pieces : List Piece}
    {cause : Option Fault.Cause} (h : Written body pieces remainder) (hend : Ending remainder cause)
    {gap : List Char} (hgap : IsGap gap) {r : Reader} (hr : r.rest = gap ++ body) :
    (drain ⟨r, false⟩).1 = (tokensFrom (r.location.after gap) pieces).map .ok ++
      (faultsAt (endFrom (r.location.after gap) pieces) remainder cause).map .error := by
  obtain ⟨s, gap', hgap', hs, hlocation, hdrain⟩ := drain_pieces h hgap hr
  rw [hdrain, ← hlocation]
  congr 1
  cases hend with
  | complete =>
    rw [List.append_nil] at hs
    obtain ⟨last, hnext, -⟩ := next_of_gap (hs ▸ hgap')
    rw [drain_of_none (by rw [hnext])]
    rfl
  | @refused remainder cause h =>
    obtain ⟨c, cs, rfl, hc⟩ := h.exists_cons
    obtain ⟨t, ht, hnext⟩ := next_of_head hs hgap' hc
    obtain ⟨t', htoken, htakes⟩ := Reader.token_refused (ht.rest_eq hs) h
    rw [htoken] at hnext
    have hstopped : (drain ⟨t', true⟩).1 = [] := by rw [drain_of_none rfl]
    rw [drain_of_some hnext, hstopped, htakes.location, ht.location]
    rfl

/-- A source in some layout is read as the tokens of the layout and the fault of what remains. -/
theorem lex_eq {text : String} {layout : Layout} {cause : Option Fault.Cause}
    (h : layout.IsOf text.toList) (hend : Ending layout.remainder cause) (path : String) :
    lex path text =
      (layout.tokens path).map .ok ++ (layout.faults path cause).map .error := by
  obtain ⟨hgap, body, htext, hwritten⟩ := h
  exact Lexer.drain_written hwritten hend hgap (r := Reader.ofText path text) htext

private def readerAt (text : List Char) : Reader := ⟨[], text, {}⟩

theorem Lexeme.Spelled.unique {lexeme lexeme' : Lexeme} {spelling spelling' rest rest' : List Char}
    (h : lexeme.Spelled spelling) (hended : lexeme.isRun = true → Ended rest)
    (h' : lexeme'.Spelled spelling') (hended' : lexeme'.isRun = true → Ended rest')
    (heq : spelling ++ rest = spelling' ++ rest') :
    lexeme = lexeme' ∧ spelling = spelling' ∧ rest = rest' := by
  obtain ⟨c, cs, rfl, -⟩ := h.exists_cons
  obtain ⟨d, ds, rfl, -⟩ := h'.exists_cons
  obtain rfl : c = d := (List.cons.inj heq).1
  -- the reader finds one token only, and both lexemes are read as that token
  have hr : (readerAt (c :: cs ++ rest)).rest = c :: cs ++ rest := rfl
  have hr' : (readerAt (c :: cs ++ rest)).rest = c :: ds ++ rest' := heq
  obtain ⟨s, htoken, htakes⟩ := Reader.token_spelled hr h hended
  obtain ⟨s', htoken', htakes'⟩ := Reader.token_spelled hr' h' hended'
  obtain ⟨hresult, rfl⟩ := Prod.mk.inj (htoken.symm.trans htoken')
  have hrest : rest = rest' := (htakes.rest_eq hr).symm.trans (htakes'.rest_eq hr')
  refine ⟨congrArg Token.lexeme (Except.ok.inj hresult), ?_, hrest⟩
  rw [hrest] at heq
  exact List.append_cancel_right heq

theorem Refused.not_spelled {lexeme : Lexeme} {text spelling rest : List Char}
    {cause : Fault.Cause} (h : Refused text cause) (hspelled : lexeme.Spelled spelling)
    (hended : lexeme.isRun = true → Ended rest) : text ≠ spelling ++ rest := by
  rintro rfl
  obtain ⟨c, cs, rfl, -⟩ := hspelled.exists_cons
  have hr : (readerAt (c :: cs ++ rest)).rest = c :: cs ++ rest := rfl
  obtain ⟨s, htoken, -⟩ := Reader.token_spelled hr hspelled hended
  obtain ⟨s', htoken', -⟩ := Reader.token_refused hr h
  cases (Prod.mk.inj (htoken.symm.trans htoken')).1

theorem Ending.not_spelled {lexeme : Lexeme} {spelling rest : List Char}
    {cause : Option Fault.Cause} (h : Ending (spelling ++ rest) cause)
    (hspelled : lexeme.Spelled spelling) (hended : lexeme.isRun = true → Ended rest) : False := by
  generalize htext : spelling ++ rest = text at h
  cases h with
  | complete =>
    obtain ⟨c, cs, rfl, -⟩ := hspelled.exists_cons
    cases htext
  | refused h => exact h.not_spelled hspelled hended htext.symm

theorem gap_unique {gap gap' rest rest' : List Char} (hgap : IsGap gap) (hgap' : IsGap gap')
    (hrest : ∀ c ∈ rest.head?, c ∉ separators) (hrest' : ∀ c ∈ rest'.head?, c ∉ separators)
    (heq : gap ++ rest = gap' ++ rest') : gap = gap' ∧ rest = rest' := by
  have hspan {gap rest : List Char} (hgap : IsGap gap) (hrest : ∀ c ∈ rest.head?, c ∉ separators) :
      (gap ++ rest).takeWhile isSeparator = gap :=
    takeWhile_append_eq (fun c hc => isSeparator_iff.mpr (hgap c hc))
      fun c hc => isSeparator_eq_false_iff.mpr (hrest c hc)
  have hgaps : gap = gap' := by rw [← hspan hgap hrest, heq, hspan hgap' hrest']
  rw [hgaps] at heq
  exact ⟨hgaps, List.append_cancel_left heq⟩

theorem Written.unique {text remainder remainder' : List Char} {pieces pieces' : List Piece}
    {cause cause' : Option Fault.Cause} (h : Written text pieces remainder)
    (hend : Ending remainder cause) (h' : Written text pieces' remainder')
    (hend' : Ending remainder' cause') : pieces = pieces' ∧ remainder = remainder' := by
  induction h generalizing pieces' with
  | nil =>
    cases h' with
    | nil => exact ⟨rfl, rfl⟩
    | cons hspelled _ hended _ => exact (hend.not_spelled hspelled hended).elim
  | @cons piece rest remainder pieces hspelled hgap hended hrest ih =>
    generalize htext : piece.spelling ++ (piece.gap ++ rest) = text at h'
    cases h' with
    | nil =>
      rw [← htext] at hend'
      exact (hend'.not_spelled hspelled hended).elim
    | @cons piece' rest' _ pieces' hspelled' hgap' hended' hrest' =>
      obtain ⟨hlexeme, hspelling, hafter⟩ := hspelled.unique hended hspelled' hended' htext
      obtain ⟨hgaps, rfl⟩ := gap_unique hgap hgap' (hrest.head hend) (hrest'.head hend') hafter
      obtain ⟨rfl, rfl⟩ := ih hend hrest'
      have hpiece : piece = piece' := by
        cases piece
        cases piece'
        simp_all
      rw [hpiece]
      exact ⟨rfl, rfl⟩

theorem Layout.IsOf.unique {text : List Char} {layout layout' : Layout}
    {cause cause' : Option Fault.Cause} (h : layout.IsOf text) (hend : Ending layout.remainder cause)
    (h' : layout'.IsOf text) (hend' : Ending layout'.remainder cause') : layout = layout' := by
  obtain ⟨hgap, body, rfl, hwritten⟩ := h
  obtain ⟨hgap', body', heq, hwritten'⟩ := h'
  obtain ⟨hgaps, rfl⟩ := gap_unique hgap hgap' (hwritten.head hend) (hwritten'.head hend') heq
  obtain ⟨hpieces, hremainder⟩ := hwritten.unique hend hwritten' hend'
  cases layout
  cases layout'
  simp_all

theorem collect_ok {α : Type} (results : List α) : collect (results.map .ok) = .ok results := by
  induction results with
  | nil => rfl
  | cons a results ih =>
    simp only [List.map_cons, collect, ih]
    rfl

theorem collect_error {α : Type} (results : List α) (f : Fault) :
    collect (results.map .ok ++ [.error f]) = .error f := by
  induction results with
  | nil => rfl
  | cons a results ih =>
    simp only [List.map_cons, List.cons_append, collect, ih]
    rfl

theorem collect_eq_ok {α : Type} {results : List (Except Fault α)} {values : List α}
    (h : collect results = .ok values) : results = values.map .ok := by
  induction results generalizing values with
  | nil =>
    cases h
    rfl
  | cons result rest ih =>
    cases result with
    | error f => cases h
    | ok a =>
      simp only [collect] at h
      cases hrest : collect rest with
      | error f => rw [hrest] at h; cases h
      | ok more =>
        rw [hrest] at h
        cases h
        rw [ih hrest, List.map_cons]

theorem Layout.lexemes_tokens (layout : Layout) (path : String) :
    (layout.tokens path).map (·.lexeme) = layout.lexemes := lexemes_tokensFrom _ _

theorem tokenize_complete {text : String} {layout : Layout} (h : layout.IsOf text.toList)
    (hremainder : layout.remainder = []) (path : String) :
    tokenize path text = .ok (layout.tokens path) := by
  have hlex := lex_eq h (hremainder ▸ Ending.complete) path
  simp only [Layout.faults, faultsAt, List.map_nil, List.append_nil] at hlex
  rw [tokenize, hlex, collect_ok]

theorem lex_refused {text : String} {layout : Layout} {cause : Fault.Cause}
    (h : layout.IsOf text.toList) (hrefused : Refused layout.remainder cause) (path : String) :
    ∃ fault : Fault, fault.cause = cause ∧
      lex path text = (layout.tokens path).map .ok ++ [.error fault] ∧
      tokenize path text = .error fault := by
  have hlex := lex_eq h (.refused hrefused) path
  refine ⟨_, rfl, hlex, ?_⟩
  rw [tokenize, hlex]
  exact collect_error _ _

/-- A fault of the lexer comes from a text that is refused. -/
theorem refused_of_mem_lex {path text : String} {f : Fault} (h : .error f ∈ lex path text) :
    ∃ remainder, Refused remainder f.cause := by
  obtain ⟨layout, cause, hlayout, hend⟩ := exists_layout text.toList
  rw [lex_eq hlayout hend path] at h
  have hfault : f ∈ layout.faults path cause := by simpa using h
  cases cause with
  | none => cases hfault
  | some cause =>
    rw [List.mem_singleton.mp hfault]
    generalize layout.remainder = remainder at hend
    cases hend with
    | refused hrefused => exact ⟨remainder, hrefused⟩

/-- A source is accepted exactly if it is written in a layout without a remainder, and the tokens
are those of the layout. Any other source has exactly one layout up to something that is refused:
its tokens are given out, then one fault, and then nothing. -/
theorem tokenize_layout (path text : String) :
    (∀ lexemes : List Lexeme,
      (∃ tokens, tokenize path text = .ok tokens ∧ tokens.map (·.lexeme) = lexemes) ↔
        ∃ layout : Layout, layout.IsOf text.toList ∧ layout.remainder = [] ∧
          layout.lexemes = lexemes) ∧
    ((∀ tokens, tokenize path text ≠ .ok tokens) →
      ∃ (layout : Layout) (cause : Fault.Cause),
        layout.IsOf text.toList ∧ Refused layout.remainder cause ∧
        (∀ (other : Layout) (cause' : Fault.Cause), other.IsOf text.toList →
          Refused other.remainder cause' → other = layout) ∧
        ∃ (tokens : List Token) (fault : Fault),
          tokens.map (·.lexeme) = layout.lexemes ∧ fault.cause = cause ∧
          lex path text = tokens.map .ok ++ [.error fault] ∧
          tokenize path text = .error fault ∧
          (Lexer.ofText path text).drain.2.next.1 = none) := by
  obtain ⟨layout, cause, hlayout, hend⟩ := exists_layout text.toList
  refine ⟨fun lexemes => ⟨?_, ?_⟩, fun hrejected => ?_⟩
  · rintro ⟨tokens, htokens, rfl⟩
    generalize hremainder : layout.remainder = remainder at hend
    cases hend with
    | complete =>
      rw [tokenize_complete hlayout hremainder path] at htokens
      cases htokens
      exact ⟨layout, hlayout, hremainder, (layout.lexemes_tokens path).symm⟩
    | refused hrefused =>
      rw [← hremainder] at hrefused
      obtain ⟨fault, -, -, hfault⟩ := lex_refused hlayout hrefused path
      rw [hfault] at htokens
      cases htokens
  · rintro ⟨layout, hlayout, hremainder, rfl⟩
    exact ⟨_, tokenize_complete hlayout hremainder path, layout.lexemes_tokens path⟩
  · generalize hremainder : layout.remainder = remainder at hend
    cases hend with
    | complete => exact absurd (tokenize_complete hlayout hremainder path) (hrejected _)
    | refused hrefused =>
      rw [← hremainder] at hrefused
      obtain ⟨fault, hcause, hlex, hfault⟩ := lex_refused hlayout hrefused path
      refine ⟨layout, _, hlayout, hrefused, fun other cause' hother hrefused' => ?_, _, fault,
        layout.lexemes_tokens path, hcause, hlex, hfault, Lexer.next_drain _⟩
      exact hother.unique (.refused hrefused') hlayout (.refused hrefused)

/-- A comment that is never closed, after a number and a word with a parenthesis in it. -/
theorem tokenize_layout_open :
    (∀ tokens, tokenize "f" "-07 DUP( ( a" ≠ .ok tokens) ∧
    ∃ (layout : Layout) (cause : Fault.Cause), layout.IsOf "-07 DUP( ( a".toList ∧
      Refused layout.remainder cause ∧ layout.lexemes = [.number (-7), .word "DUP("] := by
  have hrejected : ∀ tokens, tokenize "f" "-07 DUP( ( a" ≠ .ok tokens := by
    intro tokens htokens
    have hfault : (tokenize "f" "-07 DUP( ( a").isOk = false := by decide +kernel
    rw [htokens] at hfault
    cases hfault
  have hgiven : ((lex "f" "-07 DUP( ( a").filterMap Except.toOption).map (·.lexeme) =
      [.number (-7), .word "DUP("] := by decide +kernel
  obtain ⟨layout, cause, hlayout, hrefused, -, tokens, fault, hlexemes, -, hlex, -⟩ :=
    (tokenize_layout "f" "-07 DUP( ( a").2 hrejected
  have htokens : (lex "f" "-07 DUP( ( a").filterMap Except.toOption = tokens := by
    simp [hlex, List.filterMap_append, List.filterMap_map, Function.comp_def, Except.toOption]
  rw [htokens] at hgiven
  exact ⟨hrejected, layout, cause, hlayout, hrefused, hlexemes.symm.trans hgiven⟩

end TokenForth

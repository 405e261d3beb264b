import TokenForth.Proofs.Parsing
import TokenForth.Proofs.Reading

/-!
# Rendered text is read back

A lexeme that was read is rendered in one of its spellings, and a rendered statement puts a space
after each token that needs one. So the rendered statements of a source are a source of the same
statements, and so is a defined word as it is shown by `SEE`.
-/
namespace TokenForth

theorem Numeral.Decimal.isRun {text : List Char} {n : Int} (h : Numeral.Decimal text n) :
    IsRun text := by
  have hspecial : ('.' :: (separators ++ delimiters)).all (!·.isDigit) = true := by rfl
  have hdigit {c : Char} (hc : c.isDigit) : c ≠ '.' ∧ c ∉ separators ∧ c ∉ delimiters := by
    have hnot : c ∉ '.' :: (separators ++ delimiters) := by
      intro hmem
      simpa [hc] using List.all_eq_true.mp hspecial c hmem
    simpa using hnot
  cases h with
  | @plain digits hne hdigits =>
    obtain ⟨d, ds, rfl⟩ := List.exists_cons_of_ne_nil hne
    have hd := hdigit (hdigits d List.mem_cons_self)
    refine ⟨hne, fun c hc => (hdigit (hdigits c hc)).2.1, ?_, ?_⟩
    · simpa using hd.2.2
    · simp [hd.1.symm]
  | @negative digits hne hdigits =>
    refine ⟨by simp, List.forall_mem_cons.mpr ⟨by decide, ?_⟩, ?_, ?_⟩
    · exact fun c hc => (hdigit (hdigits c hc)).2.1
    · simp [delimiters]
    · simp

namespace Lexeme

/-- A lexeme that has a spelling is rendered as one. -/
theorem Spelled.render {lexeme : Lexeme} {spelling : List Char} (h : lexeme.Spelled spelling) :
    lexeme.Spelled lexeme.render.toList := by
  cases h with
  | colon => exact .colon
  | semicolon => exact .semicolon
  | @comment text h => simpa [Lexeme.render] using Spelled.comment h
  | @quote text h => simpa [Lexeme.render] using Spelled.quote h
  | number h hvalue => exact .number (Numeral.decimal_stands _).isRun (Numeral.decimal_stands _)
  | word h hvalue => simpa [Lexeme.render] using Spelled.word h hvalue

def piece (gap : List Char) (lexeme : Lexeme) : Piece := ⟨lexeme, lexeme.render.toList, gap⟩

end Lexeme

structure Piece.Closed (piece : Piece) : Prop where
  spelled : piece.lexeme.Spelled piece.spelling
  gap : IsGap piece.gap
  separated : piece.lexeme.isRun = true → piece.gap ≠ []

theorem Lexeme.closed_piece {lexeme : Lexeme} (h : lexeme.Spelled lexeme.render.toList)
    {gap : List Char} (hgap : IsGap gap) (hrun : lexeme.isRun = true → gap ≠ []) :
    (lexeme.piece gap).Closed := ⟨h, hgap, hrun⟩

theorem Written.of_closed {pieces : List Piece} (h : ∀ piece ∈ pieces, piece.Closed) :
    Written (pieces.flatMap fun piece => piece.spelling ++ piece.gap) pieces [] := by
  induction pieces with
  | nil => exact .nil
  | cons piece pieces ih =>
    rw [List.forall_mem_cons] at h
    rw [List.flatMap_cons, List.append_assoc]
    refine .cons h.1.spelled h.1.gap (fun hrun c hc => ?_) (ih h.2)
    -- a number or a word is ended by the first separator of its own gap
    obtain ⟨d, ds, hgap⟩ := List.exists_cons_of_ne_nil (h.1.separated hrun)
    apply h.1.gap
    simp only [hgap, List.cons_append, List.head?_cons, Option.mem_some] at hc ⊢
    simp [hc]

/-- A text that is made up of closed pieces is read as their lexemes. -/
theorem lex_of_closed {text : String} {pieces : List Piece} (h : ∀ piece ∈ pieces, piece.Closed)
    (htext : text.toList = pieces.flatMap fun piece => piece.spelling ++ piece.gap)
    (path : String) :
    ∃ tokens : List Token, lex path text = tokens.map .ok ∧
      tokens.map (·.lexeme) = pieces.map (·.lexeme) := by
  let layout : Layout := ⟨[], pieces, []⟩
  have hlayout : layout.IsOf text.toList :=
    ⟨by simp [layout, IsGap], _, htext, Written.of_closed h⟩
  refine ⟨layout.tokens path, ?_, layout.lexemes_tokens path⟩
  have hlex := lex_eq hlayout .complete path
  simpa [Layout.faults, Layout.faultsAt] using hlex

theorem Written.spelled {text remainder : List Char} {pieces : List Piece}
    (h : Written text pieces remainder) : ∀ piece ∈ pieces, piece.lexeme.Spelled piece.spelling := by
  induction h with
  | nil => simp
  | cons hspelled _ _ _ ih => exact List.forall_mem_cons.mpr ⟨hspelled, ih⟩

/-- Every token that is read has a spelling. -/
theorem spelled_of_mem_lex {path text : String} {t : Token} (h : .ok t ∈ lex path text) :
    t.lexeme.Spelled t.render.toList := by
  obtain ⟨layout, cause, hlayout, hend⟩ := exists_layout text.toList
  obtain ⟨-, body, -, hwritten⟩ := id hlayout
  rw [lex_eq hlayout hend path] at h
  have ht : t.lexeme ∈ layout.lexemes := by
    rw [← layout.lexemes_tokens path]
    apply List.mem_map_of_mem
    simpa using h
  obtain ⟨piece, hpiece, hlexeme⟩ := List.mem_map.mp ht
  rw [Token.render, ← hlexeme]
  exact (hwritten.spelled piece hpiece).render

namespace Statement

def lexemes : Statement → List Lexeme
  | declaration body => .colon :: (body.map (·.lexeme) ++ [.semicolon])
  | expression body => body.map (·.lexeme)

def pieces : Statement → List Piece
  | declaration body =>
    Lexeme.colon.piece [' '] :: (body.map (·.lexeme.piece [' ']) ++ [Lexeme.semicolon.piece []])
  | expression body => body.map (·.lexeme.piece [' '])

theorem Formed.lexemes_eq {tokens : List Token} {s : Statement} (h : Formed tokens s) :
    tokens.map (·.lexeme) = s.lexemes := by
  cases h with
  | declaration hcolon hfirst hbody hsemicolon => simp [lexemes, hcolon, hsemicolon]
  | expression => rfl

theorem lexemes_pieces (s : Statement) : s.pieces.map (·.lexeme) = s.lexemes := by
  cases s with
  | declaration body => simp [pieces, lexemes, Lexeme.piece, Function.comp_def]
  | expression body => simp [pieces, lexemes, Lexeme.piece, Function.comp_def]

theorem toList_renderAll (tokens : List Token) : (Token.renderAll tokens).toList =
    (tokens.map (·.lexeme.piece [' '])).flatMap fun piece => piece.spelling ++ piece.gap := by
  simp [Token.renderAll, Token.render, Lexeme.piece, List.flatMap_map]

theorem toList_render (s : Statement) :
    s.render.toList = s.pieces.flatMap fun piece => piece.spelling ++ piece.gap := by
  cases s with
  | declaration body =>
    simp [render, pieces, toList_renderAll, Lexeme.piece, Lexeme.render]
  | expression body => exact toList_renderAll body

theorem isGap_space : IsGap [' '] := by simp [IsGap, separators]

theorem closed_body {body : List Token} (h : ∀ t ∈ body, t.lexeme.Spelled t.render.toList) :
    ∀ piece ∈ body.map (·.lexeme.piece [' ']), piece.Closed := by
  intro piece hpiece
  obtain ⟨t, ht, rfl⟩ := List.mem_map.mp hpiece
  exact Lexeme.closed_piece (h t ht) isGap_space (by simp)

theorem closed_pieces {s : Statement} (h : ∀ t ∈ s.tokens, t.lexeme.Spelled t.render.toList) :
    ∀ piece ∈ s.pieces, piece.Closed := by
  cases s with
  | declaration body =>
    rw [pieces, List.forall_mem_cons, List.forall_mem_append, List.forall_mem_singleton]
    refine ⟨Lexeme.closed_piece .colon isGap_space (by simp), closed_body h, ?_⟩
    exact Lexeme.closed_piece .semicolon (by simp [IsGap]) (by simp [Lexeme.isRun])
  | expression body => exact closed_body h

/-- A text is parsed into the statements of any tokens with the same lexemes. -/
theorem parse_of_lexemes {tokens tokens' : List Token} {statements : List Statement}
    {path text : String} (h : (drain (tokens.map .ok)).1 = statements.map .ok)
    (htext : lex path text = tokens'.map .ok)
    (hlexemes : tokens.map (·.lexeme) = tokens'.map (·.lexeme)) :
    ∃ statements', parse path text = .ok statements' ∧
      List.Forall₂ Statement.Alike statements statements' := by
  have halike := drain_alike (Feed.alike_ok (Token.forall₂_alike_iff.mpr hlexemes))
  have hcollect := collect_agrees halike
  rw [h, collect_ok, ← htext] at hcollect
  change Agrees _ _ _ (parse path text) at hcollect
  generalize parse path text = result at hcollect ⊢
  cases hcollect with
  | ok h => exact ⟨_, rfl, h⟩

theorem spelled_of_mem_results {path text : String} {s : Statement} (h : .ok s ∈ results path text) :
    ∀ t ∈ s.tokens, t.lexeme.Spelled t.render.toList := by
  obtain ⟨tokens, hformed, hmem⟩ := formed_of_mem_drain h
  exact fun t ht => spelled_of_mem_lex (hmem t (hformed.subset ht))

/-- The rendered statements of a source are parsed into the same statements. -/
theorem parse_join_render {path text : String} {statements : List Statement}
    (h : parse path text = .ok statements) (path' : String) :
    ∃ statements', parse path' (String.join (statements.map render)) = .ok statements' ∧
      List.Forall₂ Statement.Alike statements statements' := by
  -- the tokens of the source, cut up into the parts that the statements were formed from
  have hresults : results path text = statements.map .ok := collect_eq_ok h
  obtain ⟨parts, hfeed, hformed⟩ := drain_eq_ok hresults
  have hclosed : ∀ piece ∈ statements.flatMap pieces, piece.Closed := by
    intro piece hpiece
    obtain ⟨s, hs, hpiece⟩ := List.mem_flatMap.mp hpiece
    have hmem : .ok s ∈ results path text := hresults ▸ List.mem_map_of_mem hs
    exact closed_pieces (spelled_of_mem_results hmem) piece hpiece
  have htext : (String.join (statements.map render)).toList =
      (statements.flatMap pieces).flatMap fun piece => piece.spelling ++ piece.gap := by
    simp [toList_render, List.flatMap_map, List.flatMap_assoc]
  have hlexemes : parts.flatten.map (·.lexeme) = (statements.flatMap pieces).map (·.lexeme) := by
    clear hfeed hclosed htext hresults h
    induction hformed with
    | nil => rfl
    | cons hs _ ih => simp only [List.flatten_cons, List.flatMap_cons, List.map_append, ih,
        hs.lexemes_eq, lexemes_pieces]
  obtain ⟨tokens, hlex, htokens⟩ := lex_of_closed hclosed htext path'
  have hdrain : (drain (parts.flatten.map .ok)).1 = statements.map .ok := hfeed ▸ hresults
  exact parse_of_lexemes hdrain hlex (hlexemes.trans htokens.symm)

end Statement

open Machine

/-- The text that shows a defined word is parsed into its definition. -/
theorem parse_word_render {path text : String} {first : Token} {body : List Token} {w : Word}
    (h : .ok (.declaration (first :: body)) ∈ Statement.results path text)
    (hname : first.lexeme = .word w.name) (haction : w.action = .body body) (gap : List Char)
    (hgap : IsGap gap) (path' : String) :
    ∃ tokens, Statement.parse path' (w.render ++ String.ofList gap) = .ok [.declaration tokens] ∧
      List.Forall₂ Token.Alike (first :: body) tokens := by
  obtain ⟨formed, hformed, -⟩ := Statement.formed_of_mem_drain h
  have hspelled := Statement.spelled_of_mem_results h
  have hdrain : (Statement.drain (formed.map .ok)).1 = [.declaration (first :: body)].map .ok := by
    have hnext := Statement.next_formed hformed fun _ => Statement.Feed.atBoundary_nil
    rw [List.append_nil] at hnext
    rw [Statement.drain_of_some hnext, Statement.drain_of_none rfl]
    rfl
  let pieces : List Piece := Lexeme.colon.piece [' '] :: (Lexeme.word w.name).piece [' ', ' ', ' '] ::
    (body.map (·.lexeme.piece [' ']) ++ [Lexeme.semicolon.piece gap])
  have hclosed : ∀ piece ∈ pieces, piece.Closed := by
    refine List.forall_mem_cons.mpr ⟨Lexeme.closed_piece .colon Statement.isGap_space (by simp),
      List.forall_mem_cons.mpr ⟨?_, List.forall_mem_append.mpr ⟨?_, List.forall_mem_singleton.mpr ?_⟩⟩⟩
    · have hfirst := hspelled first List.mem_cons_self
      rw [Token.render, hname] at hfirst
      exact Lexeme.closed_piece hfirst (by simp [IsGap, separators]) (by simp)
    · exact Statement.closed_body fun t ht => hspelled t (List.mem_cons_of_mem _ ht)
    · exact Lexeme.closed_piece .semicolon hgap (by simp [Lexeme.isRun])
  have htext : (w.render ++ String.ofList gap).toList =
      pieces.flatMap fun piece => piece.spelling ++ piece.gap := by
    simp [pieces, Word.render, haction, Statement.toList_renderAll, Lexeme.piece, Lexeme.render]
  have hlexemes : formed.map (·.lexeme) = pieces.map (·.lexeme) := by
    rw [hformed.lexemes_eq]
    simp [pieces, Statement.lexemes, Lexeme.piece, hname, Function.comp_def]
  obtain ⟨tokens, hlex, htokens⟩ := lex_of_closed hclosed htext path'
  obtain ⟨statements, hparse, halike⟩ :=
    Statement.parse_of_lexemes hdrain hlex (hlexemes.trans htokens.symm)
  obtain ⟨s, rest, hs, hrest, rfl⟩ := List.forall₂_cons_left_iff.mp halike
  obtain rfl := List.forall₂_nil_left_iff.mp hrest
  cases hs with
  | declaration h => exact ⟨_, hparse, h⟩

/-- `SEE` prints the text of the word that the next token names. -/
theorem perform_see {m : Machine} {name : String} {w : Word} {location : Location}
    {rest : List Token} {outer : List TokenStream}
    (hstream : m.streams = ⟨⟨.word name, location⟩ :: rest⟩ :: outer)
    (hword : m.dictionary.get? name = some w) (n : Nat) :
    perform n (.listing .see) m =
      .done () { m with streams := ⟨rest⟩ :: outer, output := m.output ++ (w.render ++ "\n") } := by
  have hfound : findWord name (m.withRest rest) = .done w (m.withRest rest) := by
    simp only [findWord, withRest, hword]
  simp only [perform, Primitive.run, Setting.act, Listing.run, Bind.bind, nextName_word hstream, hfound]
  simp only [write, Exec.update, withRest, hstream, List.tail_cons]

/-- The rendered statements of a source are a source of the same statements, up to locations. A word
that a definition of a source defines is shown by `SEE` with a text that is parsed into that
definition alone. -/
theorem parse_rendered :
    (∀ (path text : String) (statements : List Statement),
      Statement.parse path text = .ok statements → ∀ path' : String,
        ∃ statements', Statement.parse path' (String.join (statements.map Statement.render)) =
            .ok statements' ∧ List.Forall₂ Statement.Alike statements statements') ∧
    (∀ (path text : String) (tokens : List Token),
      .ok (.declaration tokens) ∈ Statement.results path text → ∀ (n : Nat) (m : Machine),
        ∃ (first : Token) (body : List Token) (w : Word), tokens = first :: body ∧
          first.lexeme = .word w.name ∧ w.action = .body body ∧
          carryOut n (.declaration tokens) m =
            .done () { m with dictionary := m.dictionary.add w } ∧
          ∀ path' shown : String, shown = w.render ∨ shown = w.render ++ "\n" →
            ∃ tokens', Statement.parse path' shown = .ok [.declaration tokens'] ∧
              List.Forall₂ Token.Alike tokens tokens') ∧
    ∀ (n : Nat) (m : Machine) (name : String) (w : Word) (location : Location) (rest : List Token)
      (outer : List TokenStream), m.streams = ⟨⟨.word name, location⟩ :: rest⟩ :: outer →
        m.dictionary.get? name = some w →
          perform n (.listing .see) m = .done ()
            { m with streams := ⟨rest⟩ :: outer, output := m.output ++ (w.render ++ "\n") } := by
  refine ⟨fun path text statements h => Statement.parse_join_render h, ?_, ?_⟩
  · intro path text tokens h n m
    obtain ⟨first, body, w, rfl, hname, haction, hcarry⟩ := carryOut_declaration h n m
    refine ⟨first, body, w, rfl, hname, haction, hcarry, fun path' shown hshown => ?_⟩
    rcases hshown with rfl | rfl
    · have hparse := parse_word_render h hname haction [] (by simp [IsGap]) path'
      simpa using hparse
    · exact parse_word_render h hname haction ['\n'] (by simp [IsGap, separators]) path'
  · exact fun n m name w location rest outer hstream hword => perform_see hstream hword n

private def sample : String := ": A:B( 007 .\" x : y\"99999999999999999999 ;-0 A:B("

private def sampleTokens : List Token :=
  [⟨.word "A:B(", ⟨"f", 1, 7⟩⟩, ⟨.number 7, ⟨"f", 1, 11⟩⟩, ⟨.quote " x : y", ⟨"f", 1, 21⟩⟩,
    ⟨.word "99999999999999999999", ⟨"f", 1, 41⟩⟩]

/-- Both ways to render a definition, and `SEE` on a machine that knows its word only. -/
theorem parse_rendered_sample :
    ∃ (statements statements' : List Statement) (w : Word) (tokens : List Token),
      Statement.parse "f" sample = .ok statements ∧
      Statement.parse "g" (String.join (statements.map Statement.render)) = .ok statements' ∧
      List.Forall₂ Statement.Alike statements statements' ∧
      w.name = "A:B(" ∧
      Statement.parse "g" (w.render ++ "\n") = .ok [.declaration tokens] ∧
      List.Forall₂ Token.Alike sampleTokens tokens ∧
      perform 0 (.listing .see) { blank {} with
          dictionary := ⟨[w]⟩, streams := [⟨[⟨.word "A:B(", {}⟩]⟩] } =
        .done () { blank {} with
          dictionary := ⟨[w]⟩, streams := [⟨[]⟩], output := "" ++ (w.render ++ "\n") } := by
  have hresults : .ok (.declaration sampleTokens) ∈ Statement.results "f" sample := by decide +kernel
  obtain ⟨statements, hparse⟩ : ∃ statements, Statement.parse "f" sample = .ok statements := by
    have hok : (Statement.parse "f" sample).isOk = true := by decide +kernel
    cases hparse : Statement.parse "f" sample with
    | error f => rw [hparse] at hok; cases hok
    | ok statements => exact ⟨statements, rfl⟩
  obtain ⟨hstatements, hwords, hsee⟩ := parse_rendered
  obtain ⟨statements', hparse', halike⟩ := hstatements "f" sample statements hparse "g"
  obtain ⟨first, body, w, htokens, hfirst, -, -, hshown⟩ :=
    hwords "f" sample sampleTokens hresults 0 (blank {})
  obtain ⟨rfl, rfl⟩ := List.cons.inj htokens
  have hname : w.name = "A:B(" := (Lexeme.word.inj hfirst).symm
  obtain ⟨tokens, hword, htokens⟩ := hshown "g" (w.render ++ "\n") (.inr rfl)
  refine ⟨statements, statements', w, tokens, hparse, hparse', halike, hname, hword, htokens, ?_⟩
  apply hsee 0 _ "A:B(" w {} [] [] rfl
  simp [Dictionary.get?, hname]

end TokenForth

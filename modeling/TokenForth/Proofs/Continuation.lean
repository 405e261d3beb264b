import TokenForth.Proofs.Rendering
import TokenForth.Proofs.Splitting
import TokenForth.Session

/-!
# Texts that go on

A conversation gathers lines as long as the text may still be completed. More text changes at most
the last number or word of what has been read, and never a token that is closed. So a fault that
more text can not mend stays the same whatever follows, and where the text is only incomplete there
is a line that ends the wait.
-/
namespace TokenForth

theorem Ended.extend {text : List Char} (h : Ended text) (hne : text ≠ []) (more : List Char) :
    Ended (text ++ more) := by
  obtain ⟨c, cs, rfl⟩ := List.exists_cons_of_ne_nil hne
  exact h

theorem written_append_iff {text remainder : List Char} {pieces pieces' : List Piece} :
    Written text (pieces ++ pieces') remainder ↔
      ∃ rest, Written text pieces rest ∧ Written rest pieces' remainder := by
  constructor
  · intro h
    induction pieces generalizing text with
    | nil => exact ⟨text, .nil, h⟩
    | cons piece pieces ih =>
      cases h with
      | cons hspelled hgap hended hrest =>
        obtain ⟨rest, hfirst, hlast⟩ := ih hrest
        exact ⟨rest, .cons hspelled hgap hended hfirst, hlast⟩
  · rintro ⟨rest, hfirst, hlast⟩
    induction hfirst with
    | nil => exact hlast
    | cons hspelled hgap hended _ ih => exact .cons hspelled hgap hended (ih hlast)

/-- Pieces stay as they are when more text follows, unless they end with a run that nothing
closes. -/
theorem Written.extend {text remainder : List Char} {pieces : List Piece}
    (h : Written text pieces remainder)
    (hclosed : ∀ piece ∈ pieces.getLast?, piece.lexeme.isRun = true → piece.gap ++ remainder ≠ [])
    (more : List Char) : Written (text ++ more) pieces (remainder ++ more) := by
  induction h with
  | nil => exact .nil
  | @cons piece rest remainder pieces hspelled hgap hended hrest ih =>
    have hnext : ∀ next ∈ pieces.getLast?,
        next.lexeme.isRun = true → next.gap ++ remainder ≠ [] := by
      intro next hlast
      apply hclosed next
      simp [List.getLast?_cons, Option.mem_def.mp hlast]
    have hne : piece.lexeme.isRun = true → piece.gap ++ rest ≠ [] := by
      cases hrest with
      | nil => exact hclosed piece rfl
      | cons hspelled' _ _ _ =>
        obtain ⟨c, cs, hspelling, -⟩ := hspelled'.exists_cons
        simp [hspelling]
    have hended' : piece.lexeme.isRun = true → Ended (piece.gap ++ (rest ++ more)) := by
      intro hrun
      rw [← List.append_assoc]
      exact (hended hrun).extend (hne hrun) more
    rw [List.append_assoc, List.append_assoc]
    exact .cons hspelled hgap hended' (ih hnext)

theorem eq_append_of_map_ok {tokens before : List Token} {t : Token} {faults : List Fault}
    {more : Statement.Feed}
    (h : tokens.map .ok ++ faults.map .error = (before.map .ok ++ .ok t :: more : Statement.Feed)) :
    ∃ after, tokens = before ++ t :: after := by
  induction before generalizing tokens with
  | nil =>
    cases tokens with
    | nil => cases faults <;> cases h
    | cons u tokens =>
      cases h
      exact ⟨tokens, rfl⟩
  | cons u before ih =>
    cases tokens with
    | nil => cases faults <;> cases h
    | cons u' tokens =>
      obtain ⟨hu, hrest⟩ := List.cons.inj h
      obtain ⟨after, rfl⟩ := ih hrest
      cases hu
      exact ⟨after, rfl⟩

/-- A token that is closed, and all tokens before it, stay as they are when more text follows. -/
theorem lex_extend {path text : String} {before : List Token} {t : Token} {more : Statement.Feed}
    (h : lex path text = before.map .ok ++ .ok t :: more) (ht : t.lexeme.isRun = false)
    (rest : String) :
    ∃ more', lex path (text ++ rest) = before.map .ok ++ .ok t :: more' := by
  obtain ⟨layout, cause, hlayout, hend⟩ := exists_layout text.toList
  rw [lex_eq hlayout hend path] at h
  obtain ⟨after, htokens⟩ := eq_append_of_map_ok h
  obtain ⟨first, piece, last, hpieces, hfirst, rfl⟩ := Layout.tokensFrom_eq_append htokens
  obtain ⟨hgap, body, hbody, hwritten⟩ := hlayout
  rw [hpieces] at hwritten
  obtain ⟨middle, hstart, hmiddle⟩ := written_append_iff.mp hwritten
  cases hmiddle with
  | @cons _ rest' _ _ hspelled hgap' hended _ =>
    -- the separators behind the token are left to what follows
    let piece' : Piece := { piece with gap := [] }
    have hlast : Written (piece'.spelling ++ (piece'.gap ++ (piece.gap ++ rest'))) [piece']
        (piece.gap ++ rest') := .cons hspelled (by simp [piece', IsGap]) hended .nil
    have hcut : Written body (first ++ [piece']) (piece.gap ++ rest') :=
      written_append_iff.mpr ⟨_, hstart, hlast⟩
    have hlonger := hcut.extend (by simp [piece', ht]) rest.toList
    have htext : (text ++ rest).toList = layout.gap ++ (body ++ rest.toList) := by simp [hbody]
    obtain ⟨s, -, -, -, -, hdrain⟩ :=
      Lexer.drain_pieces hlonger hgap (r := Reader.ofText path (text ++ rest)) htext
    refine ⟨(Lexer.drain ⟨s, false⟩).1, ?_⟩
    have hnew : Layout.tokensFrom (layout.start path) (first ++ [piece']) =
        before ++
          [⟨piece.lexeme, (Layout.endFrom (layout.start path) first).after piece.spelling⟩] := by
      rw [Layout.tokensFrom_append, hfirst]
      rfl
    have hlocation : (Reader.ofText path (text ++ rest)).location.after layout.gap =
        layout.start path := rfl
    rw [hlocation, hnew] at hdrain
    rw [lex, Lexer.ofText, hdrain]
    simp

/-- What follows a closing parenthesis outside of all comments is never read. -/
theorem lex_extend_stray {path text : String} {f : Fault} (h : .error f ∈ lex path text)
    (hcause : f.cause = .strayParenthesis) (rest : String) :
    lex path (text ++ rest) = lex path text := by
  obtain ⟨layout, cause, hlayout, hend⟩ := exists_layout text.toList
  have hlex := lex_eq hlayout hend path
  have hfault : f ∈ layout.faults path cause := by simpa [hlex] using h
  obtain rfl : cause = some .strayParenthesis := by
    cases cause with
    | none => cases hfault
    | some cause =>
      rw [List.mem_singleton.mp hfault] at hcause
      exact congrArg some hcause
  obtain ⟨hgap, body, hbody, hwritten⟩ := hlayout
  generalize hremainder : layout.remainder = remainder at hend hwritten
  cases hend with
  | refused hrefused =>
    cases hrefused with
    | @strayParenthesis after =>
      have hlonger := hwritten.extend (by simp) rest.toList
      let layout' : Layout := { layout with remainder := ')' :: (after ++ rest.toList) }
      have hlayout' : layout'.IsOf (text ++ rest).toList :=
        ⟨hgap, body ++ rest.toList, by simp [layout', hbody], hlonger⟩
      rw [hlex, lex_eq hlayout' (.refused .strayParenthesis) path]
      simp [Layout.faults, Layout.faultsAt, Fault.Cause.extent, Layout.tokens, Layout.start, layout',
        hremainder]

namespace Statement

theorem validate_of_division {path text : String} {statements : List Statement}
    {failure : Option Fault} (h : Division (lex path text) statements failure) :
    validate path text = failure.elim (.ok ()) .error := by
  rw [validate, parse, results, h.drain_eq]
  cases failure with
  | none =>
    simp only [Option.toList_none, List.map_nil, List.append_nil, collect_ok]
    rfl
  | some f =>
    simp only [Option.toList_some, List.map_cons, List.map_nil, collect_error]
    rfl

theorem division_of_validate {path text : String} {f : Fault}
    (h : validate path text = .error f) :
    ∃ statements, Division (lex path text) statements (some f) := by
  obtain ⟨statements, failure, hdivision⟩ := exists_division (lex path text)
  rw [validate_of_division hdivision] at h
  cases failure with
  | none => cases h
  | some g =>
    cases h
    exact ⟨statements, hdivision⟩

/-- The failure of a text is that of the lexer, or that of a definition without its end or name. -/
theorem cause_of_validate {path text : String} {f : Fault} (h : validate path text = .error f) :
    .error f ∈ lex path text ∨ f.cause = .openDefinition ∨ f.cause = .unnamedDefinition := by
  obtain ⟨statements, hdivision⟩ := division_of_validate h
  apply cause_of_mem_drain
  rw [hdivision.drain_eq]
  simp

/-- A definition without a name fails where it ends, whatever follows. -/
theorem Division.extend {feed : Feed} {statements : List Statement} {f : Fault}
    (h : Division feed statements (some f)) (hcause : f.cause = .unnamedDefinition)
    (hfeed : .error f ∉ feed) :
    ∃ (before : List Token) (semicolon : Token) (more : Feed),
      feed = before.map .ok ++ .ok semicolon :: more ∧ semicolon.lexeme = .semicolon ∧
      ∀ more', Division (before.map .ok ++ .ok semicolon :: more') statements (some f) := by
  obtain ⟨tokens, rest, rfl, hpartition, hhalt, -⟩ := h.divided
  cases hhalt with
  | @unnamed colon semicolon body hcolon hname hbody hsemicolon more =>
    refine ⟨tokens ++ colon :: body, semicolon, more, by simp, hsemicolon, fun more' => ?_⟩
    refine ⟨tokens, .ok colon :: (body.map .ok ++ .ok semicolon :: more'), by simp, hpartition,
      .unnamed hcolon hname hbody hsemicolon more', fun _ _ _ => ?_⟩
    exact Feed.atBoundary_colon hcolon _
  | openDefinition => cases hcause
  | inDefinition | inExpression => exact absurd (by simp) hfeed

/-- A fault that more text can not mend. -/
theorem validate_extend {path text : String} {f : Fault} (h : validate path text = .error f)
    (hkind : f.kind = .unexpectedToken ∨ f.kind = .missingWordName) (rest : String) :
    validate path (text ++ rest) = .error f := by
  rw [Fault.kind] at hkind
  by_cases hlexical : .error f ∈ lex path text
  · obtain ⟨remainder, hrefused⟩ := refused_of_mem_lex hlexical
    have hcause : f.cause = .strayParenthesis := by
      generalize f.cause = cause at hrefused hkind
      cases hrefused with
      | openComment | openQuote => simp [Fault.Cause.kind] at hkind
      | strayParenthesis => rfl
    rwa [validate, parse, results, lex_extend_stray hlexical hcause rest]
  · have hcause : f.cause = .unnamedDefinition := by
      rcases cause_of_validate h with hmem | hcause | hcause
      · exact absurd hmem hlexical
      · simp [hcause, Fault.Cause.kind] at hkind
      · exact hcause
    obtain ⟨statements, hdivision⟩ := division_of_validate h
    obtain ⟨before, semicolon, more, hlex, hsemicolon, hextend⟩ := hdivision.extend hcause hlexical
    obtain ⟨more', hlonger⟩ := lex_extend hlex (by simp [hsemicolon, Lexeme.isRun]) rest
    have hdivision' := hextend more'
    rw [← hlonger] at hdivision'
    exact validate_of_division hdivision'

/-- A remainder that is the beginning of a lexeme is closed by the end of that lexeme. -/
theorem tokenize_closed {text closing : String} {layout : Layout} {remainder : List Char}
    {lexeme : Lexeme} (h : layout.IsOf text.toList) (hremainder : layout.remainder = remainder)
    (hne : remainder ≠ []) (hspelled : lexeme.Spelled (remainder ++ closing.toList))
    (hrun : lexeme.isRun = false) (path : String) :
    ∃ tokens, tokenize path (text ++ closing) = .ok tokens := by
  obtain ⟨hgap, body, hbody, hwritten⟩ := h
  rw [hremainder] at hwritten
  have hlonger := hwritten.extend (by simp [hne]) closing.toList
  let piece : Piece := ⟨lexeme, remainder ++ closing.toList, []⟩
  have hlast : Written (piece.spelling ++ (piece.gap ++ [])) [piece] [] :=
    .cons hspelled (by simp [piece, IsGap]) (by simp [piece, hrun]) .nil
  rw [List.append_nil, List.append_nil] at hlast
  let layout' : Layout := ⟨layout.gap, layout.pieces ++ [piece], []⟩
  have hlayout' : layout'.IsOf (text ++ closing).toList := by
    refine ⟨hgap, body ++ closing.toList, by simp [layout', hbody], ?_⟩
    exact written_append_iff.mpr ⟨_, hlonger, hlast⟩
  exact ⟨_, tokenize_complete hlayout' rfl path⟩

/-- What closes a comment or a quotation that is open at the end of a text, on the same line. -/
theorem exists_closing {path text : String} {f : Fault} (h : validate path text = .error f)
    (hincomplete : f.isIncomplete = true) :
    ∃ closing : String, '\n' ∉ closing.toList ∧
      ∃ tokens, tokenize path (text ++ closing) = .ok tokens := by
  by_cases hlexical : .error f ∈ lex path text
  · obtain ⟨layout, cause, hlayout, hend⟩ := exists_layout text.toList
    have hfault : f ∈ layout.faults path cause := by
      simpa [lex_eq hlayout hend path] using hlexical
    generalize hremainder : layout.remainder = remainder at hend
    cases hend with
    | complete => cases hfault
    | @refused _ cause hrefused =>
      have hcause : f.cause = cause := by rw [List.mem_singleton.mp hfault]; rfl
      cases hrefused with
      | @openComment inner hinner =>
        exact ⟨")", by simp,
          tokenize_closed hlayout hremainder (by simp) (.comment hinner) rfl path⟩
      | @openQuote inner hinner =>
        exact ⟨"\"", by simp,
          tokenize_closed hlayout hremainder (by simp) (.quote hinner) rfl path⟩
      | strayParenthesis =>
        simp [Fault.isIncomplete, Fault.kind, hcause, Fault.Cause.kind] at hincomplete
  · obtain ⟨statements, hdivision⟩ := division_of_validate h
    obtain ⟨tokens, rest, hlex, -, hhalt, -⟩ := hdivision.divided
    cases hhalt with
    | unnamed =>
      simp [Fault.isIncomplete, Fault.kind, Fault.atSource, Fault.Cause.kind] at hincomplete
    | @openDefinition colon body =>
      refine ⟨"", by simp, tokens ++ colon :: body, ?_⟩
      have htokens : lex path text = (tokens ++ colon :: body).map .ok := by simp [hlex]
      rw [String.append_empty, tokenize, htokens, collect_ok]
    | inDefinition | inExpression => exact absurd (by simp [hlex]) hlexical

/-- A text whose last token is a semicolon is not incomplete. -/
theorem validate_of_semicolon {path text : String} {before : List Token} {semicolon : Token}
    (h : tokenize path text = .ok (before ++ [semicolon]))
    (hsemicolon : semicolon.lexeme = .semicolon) :
    validate path text = .ok () ∨
      ∃ f, validate path text = .error f ∧ f.kind = .missingWordName := by
  have hlex : lex path text = (before ++ [semicolon]).map .ok := collect_eq_ok h
  obtain ⟨statements, failure, hdivision⟩ := exists_division (lex path text)
  have hvalidate := validate_of_division hdivision
  obtain ⟨tokens, rest, htokens, -, hhalt, -⟩ := hdivision.divided
  rw [hlex] at htokens
  cases hhalt with
  | complete => exact .inl hvalidate
  | unnamed => exact .inr ⟨_, hvalidate, rfl⟩
  | @openDefinition colon body hcolon hbody =>
    -- the semicolon is the colon of the open definition or belongs to it
    have hall : before ++ [semicolon] = tokens ++ colon :: body := by
      apply map_ok_inj
      simpa using htokens
    have hlast : semicolon ∈ (colon :: body).getLast? := by
      have hgetLast := congrArg List.getLast? hall
      simpa using hgetLast.symm
    rcases List.mem_cons.mp (List.mem_of_getLast? hlast) with rfl | hmem
    · simp [hcolon] at hsemicolon
    · exact absurd hsemicolon (hbody semicolon hmem)
  | inDefinition _ _ f | inExpression _ f =>
    have hmem : (.error f : Except Fault Token) ∈ (before ++ [semicolon]).map .ok := by
      simp [htokens]
    simp at hmem

/-- A semicolon behind a text that is read to its end becomes its last token. -/
theorem tokenize_append_semicolon {path text : String} {tokens : List Token}
    (h : tokenize path text = .ok tokens) :
    ∃ (before : List Token) (semicolon : Token),
      tokenize path (text ++ " " ++ ";\n") = .ok (before ++ [semicolon]) ∧
      semicolon.lexeme = .semicolon := by
  have hclosed : ∀ piece ∈ [Lexeme.semicolon.piece ['\n']], piece.Closed := by
    intro piece hpiece
    rw [List.mem_singleton.mp hpiece]
    exact ⟨.semicolon, by simp [Lexeme.piece, IsGap, separators],
      by simp [Lexeme.piece, Lexeme.isRun]⟩
  have htext : ";\n".toList =
      [Lexeme.semicolon.piece ['\n']].flatMap fun piece => piece.spelling ++ piece.gap := rfl
  obtain ⟨added, hadded, hlexemes⟩ := lex_of_closed hclosed htext path
  have hgap : IsGap " ".toList := by simp [IsGap, separators]
  have halike := lex_append_gap h hgap (by simp) path path ";\n"
  rw [collect_eq_ok h, hadded, ← List.map_append] at halike
  have hcollect := collect_agrees halike
  rw [collect_ok] at hcollect
  cases hwhole : tokenize path (text ++ " " ++ ";\n") with
  | error f =>
    rw [tokenize] at hwhole
    rw [hwhole] at hcollect
    cases hcollect
  | ok whole =>
    rw [tokenize] at hwhole
    rw [hwhole] at hcollect
    cases hcollect with
    | ok hwhole' =>
      rw [Token.forall₂_alike_iff, List.map_append, hlexemes] at hwhole'
      obtain ⟨before, last, rfl, -, hlast⟩ := List.map_eq_append_iff.mp hwhole'
      obtain ⟨semicolon, rfl, hsemicolon⟩ := List.map_eq_singleton_iff.mp hlast
      exact ⟨before, semicolon, rfl, hsemicolon⟩

/-- A line that ends the wait for more text. -/
theorem exists_completion {path text : String} {f : Fault} (h : validate path text = .error f)
    (hincomplete : f.isIncomplete = true) :
    ∃ line : String, '\n' ∉ line.toList ∧
      (validate path (text ++ line ++ "\n") = .ok () ∨
        ∃ g, validate path (text ++ line ++ "\n") = .error g ∧ g.kind = .missingWordName) := by
  obtain ⟨closing, hclosing, tokens, htokens⟩ := exists_closing h hincomplete
  obtain ⟨before, semicolon, hwhole, hsemicolon⟩ := tokenize_append_semicolon htokens
  refine ⟨closing ++ " ;", by simp [hclosing], ?_⟩
  have htext : text ++ (closing ++ " ;") ++ "\n" = text ++ closing ++ " " ++ ";\n" := by
    apply String.toList_injective
    simp
  rw [htext]
  exact validate_of_semicolon hwhole hsemicolon

end Statement

namespace Session

open Statement

/-- A text that is not incomplete is submitted, and nothing is left pending. -/
theorem pending_of_readLine {m : Machine} {next : Session} {pending line : String} {steps : Nat}
    {answer : Answer} (hstarted : pending ≠ "")
    (hcomplete : isIncomplete (pending ++ line ++ "\n") = false)
    (h : readLine steps ⟨m, pending⟩ line = some (next, answer)) : next.pending = "" := by
  have hlisting : ¬ (pending.isEmpty = true ∧ Text.trim line = "ops") := by simp [hstarted]
  rw [readLine, if_neg hlisting] at h
  simp only [hcomplete, Bool.false_eq_true, if_false] at h
  split at h
  · cases h
    rfl
  · cases h
    rfl
  · cases h

theorem exists_line {text : String} (h : isIncomplete text = true) :
    ∃ line : String, '\n' ∉ line.toList ∧ isIncomplete (text ++ line ++ "\n") = false := by
  rw [isIncomplete] at h
  split at h
  · next f hfault =>
    obtain ⟨line, hline, hcomplete⟩ := exists_completion hfault h
    refine ⟨line, hline, ?_⟩
    rcases hcomplete with hok | ⟨g, hg, hkind⟩
    · rw [isIncomplete, hok]
    · rw [isIncomplete, hg]
      simp [Fault.isIncomplete, hkind]
  · cases h

/-- The decision to wait for more lines is right. A stray parenthesis and a definition without a
name are the same fault whatever follows, so that more text would not have helped. A definition, a
comment or a quotation that is open can be completed by a line, up to a definition without a name,
and behind such a line nothing is left pending. -/
theorem waiting_is_sound (path text : String) :
    (∀ f rest, validate path text = .error f →
      f.kind = .unexpectedToken ∨ f.kind = .missingWordName →
      validate path (text ++ rest) = .error f) ∧
    (∀ f, validate path text = .error f →
      f.kind = .missingTerminator ∨ f.kind = .unterminatedComment ∨ f.kind = .unterminatedString →
      ∃ line : String, '\n' ∉ line.toList ∧
        (validate path (text ++ (line ++ "\n")) = .ok () ∨
          ∃ g, validate path (text ++ (line ++ "\n")) = .error g ∧ g.kind = .missingWordName)) ∧
    (isIncomplete text = true →
      ∃ line : String, '\n' ∉ line.toList ∧ isIncomplete (text ++ line ++ "\n") = false ∧
        ∀ m steps next answer, readLine steps ⟨m, text⟩ line = some (next, answer) →
          next.pending = "") := by
  refine ⟨fun f rest h hkind => validate_extend h hkind rest, ?_, ?_⟩
  · intro f h hkind
    have hincomplete : f.isIncomplete = true := by simpa [Fault.isIncomplete, or_assoc] using hkind
    obtain ⟨line, hline, hcomplete⟩ := exists_completion h hincomplete
    rw [String.append_assoc] at hcomplete
    exact ⟨line, hline, hcomplete⟩
  · intro h
    obtain ⟨line, hline, hcomplete⟩ := exists_line h
    have hstarted : text ≠ "" := by
      rintro rfl
      revert h
      decide +kernel
    exact ⟨line, hline, hcomplete,
      fun m steps next answer => pending_of_readLine hstarted hcomplete⟩

/-- A definition without a name, cut behind it in the middle of what opens a quotation; and a
quotation that is open inside of a definition. -/
theorem waiting_is_sound_cut :
    (∃ f : Fault, f.kind = .missingWordName ∧ validate "f" ": 5 ; ." = .error f ∧
      validate "f" (": 5 ; ." ++ "\" ;") = .error f) ∧
    (∃ f : Fault, f.kind = .unterminatedString ∧ validate "f" ": A .\" b" = .error f ∧
      ∃ line : String, '\n' ∉ line.toList ∧
        (validate "f" (": A .\" b" ++ (line ++ "\n")) = .ok () ∨
          ∃ g, validate "f" (": A .\" b" ++ (line ++ "\n")) = .error g ∧
            g.kind = .missingWordName)) ∧
    isIncomplete ": A .\" b" = true ∧
    ∃ line : String, '\n' ∉ line.toList ∧ isIncomplete (": A .\" b" ++ line ++ "\n") = false := by
  have hunnamed : validate "f" ": 5 ; ." = .error (.atSource .unnamedDefinition ⟨"f", 1, 4⟩) := by
    decide +kernel
  have hopen : validate "f" ": A .\" b" = .error (.atSource .openQuote ⟨"f", 1, 9⟩) := by
    decide +kernel
  have hincomplete : isIncomplete ": A .\" b" = true := by decide +kernel
  have hstays := (waiting_is_sound "f" ": 5 ; .").1 _ "\" ;" hunnamed (.inr rfl)
  obtain ⟨-, hcompleted, hleft⟩ := waiting_is_sound "f" ": A .\" b"
  obtain ⟨line, hline, hcomplete, -⟩ := hleft hincomplete
  exact ⟨⟨_, rfl, hunnamed, hstays⟩, ⟨_, rfl, hopen, hcompleted _ hopen (.inr (.inr rfl))⟩,
    hincomplete, line, hline, hcomplete⟩

end Session

end TokenForth

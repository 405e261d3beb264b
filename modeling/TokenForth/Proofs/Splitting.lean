import TokenForth.Proofs.Steps
import TokenForth.Proofs.Locations

/-!
# Sources can be split between statements

A source that is read up to the end of its last definition, or up to a colon, has read whole
statements only. So two texts with a line break between them make the same statements as each of the
texts by itself, if the first ends with a definition or the second begins with one, and to run them
as one source is to run them one after the other.
-/
namespace TokenForth

open Exec Machine

theorem IsGap.append {gap gap' : List Char} (h : IsGap gap) (h' : IsGap gap') :
    IsGap (gap ++ gap') := by
  intro c hc
  rcases List.mem_append.mp hc with hc | hc
  · exact h c hc
  · exact h' c hc

/-- A text that is ended stays so when separators follow it. -/
theorem Ended.append {text gap : List Char} (h : Ended text) (hgap : IsGap gap) (hne : gap ≠ [])
    (rest : List Char) : Ended (text ++ (gap ++ rest)) := by
  cases text with
  | cons c text => exact h
  | nil =>
    obtain ⟨d, gap, rfl⟩ := List.exists_cons_of_ne_nil hne
    intro c hc
    cases hc
    exact hgap d List.mem_cons_self

theorem Written.append {body text gap : List Char} {pieces : List Piece} {layout : Layout}
    (h : Written body pieces []) (hgap : IsGap gap) (hne : gap ≠ []) (hlayout : layout.IsOf text) :
    ∃ whole : Layout, whole.IsOf (body ++ (gap ++ text)) ∧
      whole.remainder = layout.remainder ∧
      whole.lexemes = pieces.map (·.lexeme) ++ layout.lexemes := by
  generalize hremainder : ([] : List Char) = remainder at h
  induction h with
  | nil =>
    obtain ⟨hlead, body, rfl, hwritten⟩ := hlayout
    refine ⟨{ layout with gap := gap ++ layout.gap }, ?_, rfl, rfl⟩
    exact ⟨hgap.append hlead, body, by simp [← hremainder], hwritten⟩
  | @cons piece rest remainder pieces hspelled hpiece hended _ ih =>
    obtain ⟨whole, ⟨hlead, body, hbody, hwritten⟩, hwhole, hlexemes⟩ := ih hremainder
    -- The separators before the next lexeme belong to this piece.
    let piece' : Piece := { piece with gap := piece.gap ++ whole.gap }
    have htext : piece.spelling ++ (piece.gap ++ rest) ++ (gap ++ text) =
        piece'.spelling ++ (piece'.gap ++ body) := by
      simp [piece', ← hbody]
    have hended' : piece'.lexeme.isRun = true → Ended (piece'.gap ++ body) := by
      intro hrun
      have hlast := (hended hrun).append hgap hne text
      rwa [List.append_assoc, hbody, ← List.append_assoc] at hlast
    have hwritten' : Written (piece'.spelling ++ (piece'.gap ++ body)) (piece' :: whole.pieces)
        whole.remainder := .cons hspelled (hpiece.append hlead) hended' hwritten
    refine ⟨⟨[], piece' :: whole.pieces, whole.remainder⟩, ⟨by simp [IsGap], _, htext, hwritten'⟩,
      hwhole, ?_⟩
    simpa [Layout.lexemes, piece'] using hlexemes

/-- A text that is read to its end has a layout without a remainder. -/
theorem exists_layout_of_tokenize {path text : String} {tokens : List Token}
    (h : tokenize path text = .ok tokens) :
    ∃ layout : Layout, layout.IsOf text.toList ∧ layout.remainder = [] := by
  obtain ⟨layout, cause, hlayout, hend⟩ := exists_layout text.toList
  refine ⟨layout, hlayout, ?_⟩
  generalize hremainder : layout.remainder = remainder at hend
  cases hend with
  | complete => rfl
  | refused hrefused =>
    rw [← hremainder] at hrefused
    obtain ⟨fault, -, -, hfault⟩ := lex_refused hlayout hrefused path
    rw [hfault] at h
    cases h

/-- A text that is read to its end and a text behind some separators are read one after the other. -/
theorem lex_append_gap {path₁ a : String} {tokens : List Token} (h : tokenize path₁ a = .ok tokens)
    {gap : String} (hbreak : IsGap gap.toList) (hne : gap.toList ≠ []) (path path₂ b : String) :
    Statement.Feed.Alike (lex path (a ++ gap ++ b)) (lex path₁ a ++ lex path₂ b) := by
  obtain ⟨layout, hlayout, hremainder⟩ := exists_layout_of_tokenize h
  obtain rfl : layout.tokens path₁ = tokens := by
    rw [tokenize_complete hlayout hremainder path₁] at h
    exact Except.ok.inj h
  obtain ⟨hgap, body, hbody, hwritten⟩ := hlayout
  obtain ⟨layout', cause, hlayout', hend⟩ := exists_layout b.toList
  rw [hremainder] at hwritten
  obtain ⟨whole, ⟨hlead, body', hbody', hwhole⟩, hlast, hlexemes⟩ :=
    hwritten.append hbreak hne hlayout'
  let joined : Layout := { whole with gap := layout.gap ++ whole.gap }
  have hjoined : joined.IsOf (a ++ gap ++ b).toList := by
    refine ⟨hgap.append hlead, body', ?_, hwhole⟩
    simp [joined, hbody, ← hbody']
  have hjoinedEnd : Ending joined.remainder cause := by
    show Ending whole.remainder cause
    rwa [hlast]
  have htokens : List.Forall₂ Token.Alike (joined.tokens path)
      (layout.tokens path₁ ++ layout'.tokens path₂) := by
    rw [Token.forall₂_alike_iff, List.map_append, joined.lexemes_tokens, layout.lexemes_tokens,
      layout'.lexemes_tokens]
    exact hlexemes
  rw [lex_eq hjoined hjoinedEnd path, lex_eq hlayout' hend path₂, collect_eq_ok h,
    ← List.append_assoc, ← List.map_append]
  exact List.rel_append (Statement.Feed.alike_ok htokens) (joined.faults_alike layout' _ _ _)

/-- A text that is read to its end and a text on the next line are read one after the other. -/
theorem lex_append {path₁ a : String} {tokens : List Token} (h : tokenize path₁ a = .ok tokens)
    (path path₂ b : String) :
    Statement.Feed.Alike (lex path (a ++ "\n" ++ b)) (lex path₁ a ++ lex path₂ b) := by
  have hbreak : IsGap "\n".toList := by simp [IsGap, separators]
  exact lex_append_gap h hbreak (by simp) path path₂ b

namespace Statement

theorem Feed.AtBoundary.append {feed feed' : Feed} (h : feed.AtBoundary)
    (hnil : feed = [] → feed'.AtBoundary) : (feed ++ feed').AtBoundary := by
  cases feed with
  | nil => exact hnil rfl
  | cons first feed => exact h

/-- The next statement stays the same when more follows, unless it is an expression that reaches to
the end and would take some of that. -/
theorem next_append {feed feed' rest : Feed} {s : Statement} (h : next feed = (some (.ok s), rest))
    (hlast : rest = [] → (∃ body, s = .declaration body) ∨ feed'.AtBoundary) :
    next (feed ++ feed') = (some (.ok s), rest ++ feed') := by
  obtain ⟨tokens, rfl, hformed⟩ := next_eq_ok h
  rw [List.append_assoc]
  apply next_formed hformed
  intro hs
  apply (boundary_of_next h hs).append
  intro hrest
  rcases hlast hrest with ⟨_, rfl⟩ | hfeed'
  · cases hs
  · exact hfeed'

/-- The statements of a feed stay the same when more follows a definition or goes on with one. -/
theorem drain_append {feed feed' : Feed} {statements : List Statement}
    (h : (drain feed).1 = statements.map .ok)
    (hlast : (∀ s ∈ statements.getLast?, ∃ body, s = .declaration body) ∨ feed'.AtBoundary) :
    (drain (feed ++ feed')).1 = statements.map .ok ++ (drain feed').1 := by
  induction statements generalizing feed with
  | nil =>
    rw [drain_eq_nil h]
    rfl
  | cons s statements ih =>
    obtain ⟨rest, hnext, hrest⟩ := drain_eq_cons h
    have hboundary : rest = [] → (∃ body, s = .declaration body) ∨ feed'.AtBoundary := by
      rintro rfl
      rw [drain_of_none rfl] at hrest
      have hnil : statements = [] := List.map_eq_nil_iff.mp hrest.symm
      exact hlast.imp_left fun hdeclaration => hdeclaration s (by simp [hnil])
    have hlast' : (∀ s ∈ statements.getLast?, ∃ body, s = .declaration body) ∨
        feed'.AtBoundary := by
      apply hlast.imp_left
      intro hdeclaration u hu
      apply hdeclaration u
      simp [List.getLast?_cons, Option.mem_def.mp hu]
    rw [drain_of_some (next_append hnext hboundary), ih hrest hlast']
    rfl

end Statement

namespace Machine

theorem runResults_append (n : Nat) (first second : List (Except Fault Statement)) :
    runResults n (first ++ second) = (do
      let xs ← runResults n first
      let ys ← runResults n second
      return xs ++ ys) := by
  induction first with
  | nil => simp [runResultsVia]
  | cons result first ih => simp [runResultsVia, ih]

def processInTurn (n : Nat) (path₁ a path₂ b : String) : Exec (List String) := do
  let xs ← process n path₁ a
  let ys ← process n path₂ b
  return xs ++ ys

theorem processInTurn_below {n k : Nat} (hn : n ≤ k) (path₁ a path₂ b : String) :
    Exec.Below (processInTurn n path₁ a path₂ b) (processInTurn k path₁ a path₂ b) :=
  .bind (runResults_below hn _) fun _ => .bind (runResults_below hn _) fun _ => .refl _

/-- Two texts are run in turn as the statements that they make one after the other, if no statement
of the first goes on in the second. -/
theorem processInTurn_eq {path₁ path₂ a b : String} {statements : List Statement}
    (ha : Statement.parse path₁ a = .ok statements)
    (hlast : (∀ s ∈ statements.getLast?, ∃ body, s = .declaration body) ∨
      Statement.Feed.AtBoundary (lex path₂ b)) (n : Nat) :
    processInTurn n path₁ a path₂ b =
      runResults n (Statement.drain (lex path₁ a ++ lex path₂ b)).1 := by
  have hresults : Statement.results path₁ a = statements.map .ok := collect_eq_ok ha
  rw [Statement.drain_append hresults hlast, ← hresults, runResults_append]
  rfl

theorem tokenize_of_parse {path text : String} {statements : List Statement}
    (h : Statement.parse path text = .ok statements) :
    ∃ tokens, tokenize path text = .ok tokens := by
  obtain ⟨parts, hlex, -⟩ := Statement.drain_eq_ok (collect_eq_ok h)
  exact ⟨parts.flatten, by rw [tokenize, hlex, collect_ok]⟩

/-- Two texts that meet between statements do as one source what they do one after the other. -/
theorem process_split {path₁ a : String} {statements : List Statement} {m : Machine}
    (hdiscreet : m.dictionary.Discreet) (ha : Statement.parse path₁ a = .ok statements)
    (path path₂ b : String)
    (hsplit : tokenize path₁ a = .ok [] ∨ (∃ body, statements.getLast? = some (.declaration body)) ∨
      tokenize path₂ b = .ok [] ∨ ∃ t rest, lex path₂ b = .ok t :: rest ∧ t.lexeme = .colon) :
    ((∃ n, process n path (a ++ "\n" ++ b) m ≠ .unfinished) ↔
      ∃ n, processInTurn n path₁ a path₂ b m ≠ .unfinished) ∧
    ∀ n k, process n path (a ++ "\n" ++ b) m ≠ .unfinished →
      processInTurn k path₁ a path₂ b m ≠ .unfinished →
      (process n path (a ++ "\n" ++ b) m).Alike (processInTurn k path₁ a path₂ b m) := by
  have hlast : (∀ s ∈ statements.getLast?, ∃ body, s = .declaration body) ∨
      Statement.Feed.AtBoundary (lex path₂ b) := by
    rcases hsplit with hnone | ⟨body, hbody⟩ | hnone | ⟨t, rest, hrest, ht⟩
    · left
      have hresults : Statement.results path₁ a = statements.map .ok := collect_eq_ok ha
      rw [Statement.results, show lex path₁ a = [] from collect_eq_ok hnone,
        Statement.drain_of_none rfl] at hresults
      simp [List.map_eq_nil_iff.mp hresults.symm]
    · left
      simp [hbody]
    · right
      rw [show lex path₂ b = [] from collect_eq_ok hnone]
      exact Statement.Feed.atBoundary_nil
    · right
      rw [hrest]
      exact Statement.Feed.atBoundary_colon ht rest
  obtain ⟨tokens, htokens⟩ := tokenize_of_parse ha
  have hfeed := lex_append htokens path path₂ b
  have hresting : Locations.Resting m m := ⟨.refl m, hdiscreet⟩
  apply Exec.ends_together (fun n k hn => processInTurn_below hn path₁ a path₂ b)
    (fun _ _ h => h.ne_unfinished)
  · intro n hn
    use n
    rw [processInTurn_eq ha hlast]
    apply Locations.alike_of_concur _ hresting hn
    exact Locations.concur_runResults (Nat.le_refl n) (Statement.drain_alike hfeed)
  · intro n hn
    use n
    rw [processInTurn_eq ha hlast] at hn
    apply Outcome.Alike.ne_unfinished
    apply Locations.alike_of_concur _ hresting hn
    exact Locations.concur_runResults (Nat.le_refl n) (Statement.drain_alike hfeed.symm)

/-- A definition on one line and its use on the next. -/
theorem process_split_definition :
    ∃ outputs m₁ m₁',
      process 12 "whole" (": TWICE DUP + ;" ++ "\n" ++ "21 TWICE .") (bare {}) = .done outputs m₁ ∧
      processInTurn 15 "first" ": TWICE DUP + ;" "second" "21 TWICE ." (bare {}) =
        .done outputs m₁' ∧
      m₁.Alike m₁' := by
  have hparse : Statement.parse "first" ": TWICE DUP + ;" = .ok [.declaration
      [⟨.word "TWICE", ⟨"first", 1, 8⟩⟩, ⟨.word "DUP", ⟨"first", 1, 12⟩⟩,
        ⟨.word "+", ⟨"first", 1, 14⟩⟩]] := by
    decide +kernel
  have halike := (process_split (bare_standard {}).discreet hparse "whole" "second" "21 TWICE ."
    (.inr (.inl ⟨_, rfl⟩))).2 12 15 (by decide +kernel) (by decide +kernel)
  have hdone : (processInTurn 15 "first" ": TWICE DUP + ;" "second" "21 TWICE ." (bare {})).isDone =
      true := by decide +kernel
  generalize process 12 "whole" (": TWICE DUP + ;" ++ "\n" ++ "21 TWICE .") (bare {}) = o,
    processInTurn 15 "first" ": TWICE DUP + ;" "second" "21 TWICE ." (bare {}) = o' at halike hdone ⊢
  cases halike with
  | done outputs hm => exact ⟨outputs, _, _, rfl, rfl, hm⟩
  | failed hf hm => cases hdone

end Machine

end TokenForth

import Mathlib.Data.List.Chain
import Mathlib.Data.List.Forall2
import TokenForth.Proofs.Lexing
import TokenForth.Statement

/-!
# Statements partition the tokens

Statements are formed one at a time, with one token of lookahead, and a fault is met when it is
reached. The result is still determined by the tokens alone: there is at most one way to divide them
into definitions and expressions, and that is the one that is found. Where a text fails, the
statements that are complete before the failure stay, and the failure follows them once.
-/
namespace TokenForth

namespace Statement

/-- The statement is formed from exactly these tokens. -/
inductive Formed : List Token → Statement → Prop
  | declaration {colon first semicolon : Token} {name : String} {body : List Token}
    (hcolon : colon.lexeme = .colon) (hfirst : first.lexeme = .word name)
    (hbody : ∀ t ∈ body, t.lexeme ≠ .semicolon) (hsemicolon : semicolon.lexeme = .semicolon) :
    Formed (colon :: first :: (body ++ [semicolon])) (.declaration (first :: body))
  | expression {first : Token} {body : List Token} (hfirst : first.lexeme ≠ .colon)
    (hbody : ∀ t ∈ body, t.lexeme ≠ .colon) : Formed (first :: body) (.expression (first :: body))

theorem Formed.subset {tokens : List Token} {s : Statement} (h : Formed tokens s) :
    s.tokens ⊆ tokens := by
  cases h with
  | declaration =>
    apply List.subset_cons_of_subset
    apply List.cons_subset_cons
    exact List.subset_append_left _ _
  | expression => exact List.Subset.refl _

def isExpression : Statement → Bool
  | expression _ => true
  | declaration _ => false

/-- Where an expression that comes before would end: nothing follows, or a colon. -/
def Feed.AtBoundary (feed : Feed) : Prop :=
  ∀ result ∈ feed.head?, ∃ t : Token, result = .ok t ∧ t.lexeme = .colon

theorem Feed.atBoundary_nil : Feed.AtBoundary [] := by simp [AtBoundary]

theorem Feed.atBoundary_colon {t : Token} (ht : t.lexeme = .colon) (feed : Feed) :
    Feed.AtBoundary (.ok t :: feed) := by simp [AtBoundary, ht]

/-- How a feed goes on where no further statement is completed: it is over, or the statement that is
being read fails. -/
inductive Halt : Feed → Option Fault → Prop
  | complete : Halt [] none
  /-- A definition that ends but does not start with a word. It fails where it ends, and the fault
  is that of its first token or, if it has none, of its colon. -/
  | unnamed {colon semicolon : Token} {body : List Token} (hcolon : colon.lexeme = .colon)
    (hname : ∀ t ∈ body.head?, t.name? = none) (hbody : ∀ t ∈ body, t.lexeme ≠ .semicolon)
    (hsemicolon : semicolon.lexeme = .semicolon) (more : Feed) :
    Halt (.ok colon :: (body.map .ok ++ .ok semicolon :: more))
      (some (.atSource .unnamedDefinition (body.head?.getD colon).location))
  /-- The input ends inside of a definition. -/
  | openDefinition {colon : Token} {body : List Token} (hcolon : colon.lexeme = .colon)
    (hbody : ∀ t ∈ body, t.lexeme ≠ .semicolon) :
    Halt (.ok colon :: body.map .ok) (some (.atSource .openDefinition colon.location))
  /-- A fault of the text inside of a definition. -/
  | inDefinition {colon : Token} {body : List Token} (hcolon : colon.lexeme = .colon)
    (hbody : ∀ t ∈ body, t.lexeme ≠ .semicolon) (f : Fault) (more : Feed) :
    Halt (.ok colon :: (body.map .ok ++ .error f :: more)) (some f)
  /-- A fault of the text inside of an expression or before a statement. -/
  | inExpression {body : List Token} (hbody : ∀ t ∈ body, t.lexeme ≠ .colon) (f : Fault)
    (more : Feed) : Halt (body.map .ok ++ .error f :: more) (some f)

/-- Tokens that do not end a definition belong to it. -/
theorem takeBody_prepend {body : List Token} (hbody : ∀ t ∈ body, t.lexeme ≠ .semicolon)
    (rest : Feed) :
    takeBody (body.map .ok ++ rest) = (takeBody rest).map fun p => (body ++ p.1, p.2) := by
  induction body with
  | nil =>
    rw [List.map_nil, List.nil_append]
    cases takeBody rest <;> rfl
  | cons t body ih =>
    rw [List.forall_mem_cons] at hbody
    simp only [List.map_cons, List.cons_append, takeBody, Token.isSemicolon, hbody.1, decide_false,
      Bool.false_eq_true, if_false, ih hbody.2]
    cases takeBody rest <;> rfl

theorem takeBody_append {body : List Token} (hbody : ∀ t ∈ body, t.lexeme ≠ .semicolon) {t : Token}
    (ht : t.lexeme = .semicolon) (rest : Feed) :
    takeBody (body.map .ok ++ .ok t :: rest) = .ok (body, rest) := by
  rw [takeBody_prepend hbody]
  simp [takeBody, Token.isSemicolon, ht, Except.map]

/-- Tokens that do not end an expression belong to it. -/
theorem takeExpression_prepend {body : List Token} (hbody : ∀ t ∈ body, t.lexeme ≠ .colon)
    (rest : Feed) :
    takeExpression (body.map .ok ++ rest) =
      (takeExpression rest).map fun p => (body ++ p.1, p.2) := by
  induction body with
  | nil =>
    rw [List.map_nil, List.nil_append]
    cases takeExpression rest <;> rfl
  | cons t body ih =>
    rw [List.forall_mem_cons] at hbody
    simp only [List.map_cons, List.cons_append, takeExpression, Token.isColon, hbody.1,
      decide_false, Bool.false_eq_true, if_false, ih hbody.2]
    cases takeExpression rest <;> rfl

theorem takeExpression_boundary {rest : Feed} (h : rest.AtBoundary) :
    takeExpression rest = .ok ([], rest) := by
  cases rest with
  | nil => rfl
  | cons first rest =>
    obtain ⟨t, rfl, ht⟩ := h first rfl
    simp [takeExpression, Token.isColon, ht]

/-- A statement is formed from its tokens, if a boundary follows in the case of an expression. -/
theorem next_formed {tokens : List Token} {s : Statement} (h : Formed tokens s) {rest : Feed}
    (hrest : s.isExpression = true → rest.AtBoundary) :
    next (tokens.map .ok ++ rest) = (some (.ok s), rest) := by
  cases h with
  | @declaration colon first semicolon name body hcolon hfirst hbody hsemicolon =>
    have hnot : ∀ t ∈ first :: body, t.lexeme ≠ .semicolon :=
      List.forall_mem_cons.mpr ⟨by simp [hfirst], hbody⟩
    have htake := takeBody_append hnot hsemicolon rest
    simp only [List.map_cons, List.map_append, List.cons_append, List.append_assoc, List.map_nil,
      List.nil_append, Statement.next, takeFrom, Token.isColon, hcolon, decide_true, if_true,
      takeDeclaration] at htake ⊢
    simp only [htake, hfirst]
  | expression hfirst hbody =>
    simp [Statement.next, takeFrom, Token.isColon, hfirst, takeExpression_prepend hbody,
      takeExpression_boundary (hrest rfl), Except.map]

theorem takeDeclaration_unnamed (colon : Token) {semicolon : Token} {body : List Token}
    (hname : ∀ t ∈ body.head?, t.name? = none) (hbody : ∀ t ∈ body, t.lexeme ≠ .semicolon)
    (hsemicolon : semicolon.lexeme = .semicolon) (more : Feed) :
    takeDeclaration colon.location (body.map .ok ++ .ok semicolon :: more) =
      .error (.atSource .unnamedDefinition (body.head?.getD colon).location) := by
  rw [takeDeclaration, takeBody_append hbody hsemicolon more]
  cases body with
  | nil => rfl
  | cons first body =>
    have hfirst : first.name? = none := hname first rfl
    dsimp only
    split
    · next name hword => simp [Token.name?, hword] at hfirst
    · rfl

/-- The next statement of a feed that halts is its failure, and nothing is left to read. -/
theorem next_of_halt {feed : Feed} {f : Fault} (h : Halt feed (some f)) :
    next feed = (some (.error f), []) := by
  have hdeclaration {colon : Token} (hcolon : colon.lexeme = .colon) {feed : Feed} {f : Fault}
      (htake : takeDeclaration colon.location feed = .error f) :
      next (.ok colon :: feed) = (some (.error f), []) := by
    simp only [Statement.next, takeFrom, Token.isColon, hcolon, decide_true, if_true, htake]
  cases h with
  | unnamed hcolon hname hbody hsemicolon more =>
    apply hdeclaration hcolon
    exact takeDeclaration_unnamed _ hname hbody hsemicolon more
  | @openDefinition colon body hcolon hbody =>
    apply hdeclaration hcolon
    rw [takeDeclaration, ← List.append_nil (body.map _), takeBody_prepend hbody]
    rfl
  | inDefinition hcolon hbody f more =>
    apply hdeclaration hcolon
    rw [takeDeclaration, takeBody_prepend hbody]
    rfl
  | @inExpression body hbody f more =>
    cases body with
    | nil => rfl
    | cons t body =>
      rw [List.forall_mem_cons] at hbody
      simp [Statement.next, takeFrom, Token.isColon, hbody.1, takeExpression_prepend hbody.2,
        takeExpression, Except.map]

/-- What a feed comes to behind the tokens that are passed by: its end, a fault, or a token that is
looked for. -/
inductive Comes (sought : Token → Prop) : Feed → Prop
  | ended : Comes sought []
  | fault (f : Fault) (more : Feed) : Comes sought (.error f :: more)
  | found {t : Token} (ht : sought t) (more : Feed) : Comes sought (.ok t :: more)

theorem exists_comes (sought : Token → Prop) (feed : Feed) :
    ∃ (body : List Token) (rest : Feed), feed = body.map .ok ++ rest ∧ (∀ t ∈ body, ¬ sought t) ∧
      Comes sought rest := by
  induction feed with
  | nil => exact ⟨[], [], rfl, by simp, .ended⟩
  | cons first feed ih =>
    cases first with
    | error f => exact ⟨[], _, rfl, by simp, .fault f feed⟩
    | ok t =>
      by_cases ht : sought t
      · exact ⟨[], _, rfl, by simp, .found ht feed⟩
      · obtain ⟨body, rest, rfl, hbody, hrest⟩ := ih
        exact ⟨t :: body, rest, rfl, List.forall_mem_cons.mpr ⟨ht, hbody⟩, hrest⟩

/-- The ways in which a feed goes on: it is over, it starts with a statement, or it fails. -/
inductive Advance : Feed → Option (Except Fault Statement) × Feed → Prop
  | ended : Advance [] (none, [])
  | formed {tokens : List Token} {s : Statement} (h : Formed tokens s) {rest : Feed}
    (hrest : s.isExpression = true → rest.AtBoundary) :
    Advance (tokens.map .ok ++ rest) (some (.ok s), rest)
  | failed {feed : Feed} {f : Fault} (h : Halt feed (some f)) : Advance feed (some (.error f), [])

theorem Formed.advance {tokens : List Token} {s : Statement} (h : Formed tokens s) {rest : Feed}
    (hrest : s.isExpression = true → rest.AtBoundary) :
    Advance (tokens.map .ok ++ rest) (next (tokens.map .ok ++ rest)) := by
  rw [next_formed h hrest]
  exact .formed h hrest

theorem Halt.advance {feed : Feed} {f : Fault} (h : Halt feed (some f)) :
    Advance feed (next feed) := by
  rw [next_of_halt h]
  exact .failed h

/-- Behind a colon there is a definition, or what should be one fails. -/
theorem advance_colon {colon : Token} (hcolon : colon.lexeme = .colon) (feed : Feed) :
    Advance (.ok colon :: feed) (next (.ok colon :: feed)) := by
  obtain ⟨body, rest, rfl, hbody, hcomes⟩ := exists_comes (·.lexeme = .semicolon) feed
  cases hcomes with
  | ended =>
    rw [List.append_nil]
    exact (Halt.openDefinition hcolon hbody).advance
  | fault f more => exact (Halt.inDefinition hcolon hbody f more).advance
  | @found semicolon hsemicolon more =>
    by_cases hname : ∀ t ∈ body.head?, t.name? = none
    · exact (Halt.unnamed hcolon hname hbody hsemicolon more).advance
    · cases body with
      | nil => exact absurd (by simp) hname
      | cons first body =>
        have hfirst : first.name? ≠ none := fun hnone => hname (by simpa using hnone)
        obtain ⟨name, hfirst⟩ := Option.ne_none_iff_exists'.mp hfirst
        have hformed := Formed.declaration hcolon (Token.name?_eq_some_iff.mp hfirst)
          (List.forall_mem_cons.mp hbody).2 hsemicolon
        have hadvance := @Formed.advance _ _ hformed more (by simp [isExpression])
        simpa using hadvance

/-- Every feed goes on in one of these ways. -/
theorem advance_next (feed : Feed) : Advance feed (next feed) := by
  cases feed with
  | nil => exact .ended
  | cons first feed =>
    cases first with
    | error f => exact (@Halt.inExpression [] (by simp) f feed).advance
    | ok t =>
      by_cases ht : t.lexeme = .colon
      · exact advance_colon ht feed
      · obtain ⟨body, rest, rfl, hbody, hcomes⟩ := exists_comes (·.lexeme = .colon) feed
        have hbody' : ∀ u ∈ t :: body, u.lexeme ≠ .colon := List.forall_mem_cons.mpr ⟨ht, hbody⟩
        have hformed : Formed (t :: body) (.expression (t :: body)) := .expression ht hbody
        cases hcomes with
        | ended => exact hformed.advance fun _ => Feed.atBoundary_nil
        | fault f more => exact (Halt.inExpression hbody' f more).advance
        | found hcolon more => exact hformed.advance fun _ => Feed.atBoundary_colon hcolon more

theorem next_eq_ok {feed rest : Feed} {s : Statement} (h : next feed = (some (.ok s), rest)) :
    ∃ tokens, feed = tokens.map .ok ++ rest ∧ Formed tokens s := by
  have hadvance := advance_next feed
  rw [h] at hadvance
  cases hadvance with
  | formed hformed => exact ⟨_, rfl, hformed⟩

theorem boundary_of_next {feed rest : Feed} {s : Statement} (h : next feed = (some (.ok s), rest))
    (hs : s.isExpression = true) : rest.AtBoundary := by
  have hadvance := advance_next feed
  rw [h] at hadvance
  cases hadvance with
  | formed _ hrest => exact hrest hs

theorem drain_of_none {feed : Feed} (h : (next feed).1 = none) : (drain feed).1 = [] := by
  rw [drain]
  split
  · rfl
  · next hnext => rw [hnext] at h; cases h

theorem drain_of_some {feed rest : Feed} {result : Except Fault Statement}
    (h : next feed = (some result, rest)) : (drain feed).1 = result :: (drain rest).1 := by
  rw [drain]
  split
  · next hnext => rw [hnext] at h; cases h
  · next hnext => rw [hnext] at h; cases h; rfl

theorem drain_eq_nil {feed : Feed} (h : (drain feed).1 = []) : feed = [] := by
  have hadvance := advance_next feed
  rcases hnext : next feed with ⟨_ | result, rest⟩
  · rw [hnext] at hadvance
    cases hadvance
    rfl
  · rw [drain_of_some hnext] at h
    cases h

theorem drain_eq_cons {feed : Feed} {result : Except Fault Statement}
    {results : List (Except Fault Statement)} (h : (drain feed).1 = result :: results) :
    ∃ rest, next feed = (some result, rest) ∧ (drain rest).1 = results := by
  rcases hnext : next feed with ⟨_ | first, rest⟩
  · rw [drain_of_none (by rw [hnext])] at h
    cases h
  · rw [drain_of_some hnext] at h
    cases h
    exact ⟨rest, rfl, rfl⟩

/-- Statements that may be neighbours: at least one of them is a definition. -/
def Apart (s u : Statement) : Prop := s.isExpression = true → u.isExpression = false

/-- The statements take up the tokens in order, each formed from its own share, and no two
expressions are neighbours. -/
structure Partition (tokens : List Token) (statements : List Statement) : Prop where
  formed : ∃ parts : List (List Token),
    tokens = parts.flatten ∧ List.Forall₂ Formed parts statements
  apart : statements.IsChain Apart

/-- The statements that are complete before the feed halts, and the failure with which it does. An
expression is complete only at a boundary: another token would belong to it, and a fault would be
met within it. -/
structure Division (feed : Feed) (statements : List Statement) (failure : Option Fault) : Prop where
  divided : ∃ (tokens : List Token) (rest : Feed), feed = tokens.map .ok ++ rest ∧
    Partition tokens statements ∧ Halt rest failure ∧
    ∀ s ∈ statements.getLast?, s.isExpression = true → rest.AtBoundary

/-- A statement is a definition if it starts where an expression would end. -/
theorem Formed.isExpression_eq_false_iff {tokens : List Token} {s : Statement} (h : Formed tokens s)
    (rest : Feed) : s.isExpression = false ↔ (tokens.map Except.ok ++ rest : Feed).AtBoundary := by
  cases h with
  | declaration hcolon => simp [isExpression, Feed.AtBoundary, hcolon]
  | expression hfirst => simp [isExpression, Feed.AtBoundary, hfirst]

theorem Partition.nil : Partition [] [] := ⟨⟨[], rfl, .nil⟩, .nil⟩

theorem Partition.eq_nil {tokens : List Token} (h : Partition tokens []) : tokens = [] := by
  obtain ⟨⟨parts, rfl, hformed⟩, -⟩ := h
  cases hformed
  rfl

/-- A partition starts with its first statement. -/
theorem partition_cons_iff {tokens : List Token} {s : Statement} {statements : List Statement} :
    Partition tokens (s :: statements) ↔
      ∃ part more, tokens = part ++ more ∧ Formed part s ∧ Partition more statements ∧
        ∀ u ∈ statements.head?, Apart s u := by
  constructor
  · rintro ⟨⟨parts, rfl, hformed⟩, hapart⟩
    rw [List.isChain_cons] at hapart
    cases hformed with
    | @cons part _ parts _ hpart hformed =>
      exact ⟨part, parts.flatten, rfl, hpart, ⟨⟨parts, rfl, hformed⟩, hapart.2⟩, hapart.1⟩
  · rintro ⟨part, more, rfl, hpart, ⟨⟨parts, rfl, hformed⟩, hchain⟩, hapart⟩
    exact ⟨⟨part :: parts, rfl, .cons hpart hformed⟩, List.isChain_cons.mpr ⟨hapart, hchain⟩⟩

/-- What follows an expression in a division is a boundary. -/
theorem Division.cons_inv {feed : Feed} {s : Statement} {statements : List Statement}
    {failure : Option Fault} (h : Division feed (s :: statements) failure) :
    ∃ part rest, feed = part.map .ok ++ rest ∧ Formed part s ∧ Division rest statements failure ∧
      (s.isExpression = true → rest.AtBoundary) := by
  obtain ⟨tokens, rest, rfl, hpartition, hhalt, hlast⟩ := h.divided
  obtain ⟨part, more, rfl, hpart, hmore, hapart⟩ := partition_cons_iff.mp hpartition
  refine ⟨part, more.map .ok ++ rest, by simp, hpart, ⟨more, rest, rfl, hmore, hhalt, ?_⟩, ?_⟩
  · intro u hu
    apply hlast u
    simp [List.getLast?_cons, Option.mem_def.mp hu]
  · intro hs
    cases statements with
    | nil =>
      rw [hmore.eq_nil]
      exact hlast s rfl hs
    | cons u statements =>
      obtain ⟨next, others, rfl, hnext, -, -⟩ := partition_cons_iff.mp hmore
      rw [List.map_append, List.append_assoc]
      exact (hnext.isExpression_eq_false_iff _).mp (hapart u rfl hs)

theorem Division.cons {part : List Token} {s : Statement} (hpart : Formed part s) {rest : Feed}
    {statements : List Statement} {failure : Option Fault} (h : Division rest statements failure)
    (hboundary : s.isExpression = true → rest.AtBoundary) :
    Division (part.map .ok ++ rest) (s :: statements) failure := by
  obtain ⟨tokens, rest, rfl, hpartition, hhalt, hlast⟩ := h.divided
  refine ⟨part ++ tokens, rest, by simp, ?_, hhalt, ?_⟩
  · apply partition_cons_iff.mpr
    refine ⟨part, tokens, rfl, hpart, hpartition, ?_⟩
    intro u hu hs
    cases statements with
    | nil => cases hu
    | cons u statements =>
      cases hu
      obtain ⟨next, others, rfl, hnext, -, -⟩ := partition_cons_iff.mp hpartition
      have hrest := hboundary hs
      rw [List.map_append, List.append_assoc] at hrest
      exact (hnext.isExpression_eq_false_iff _).mpr hrest
  · intro u hu hexpression
    cases statements with
    | nil =>
      cases hu
      simpa [hpartition.eq_nil] using hboundary hexpression
    | cons v statements => exact hlast u (by simpa [List.getLast?_cons] using hu) hexpression

/-- A feed has a division. -/
theorem exists_division (feed : Feed) :
    ∃ statements failure, Division feed statements failure := by
  induction hlength : feed.length using Nat.strongRecOn generalizing feed with
  | _ n ih =>
    have hadvance := advance_next feed
    generalize hnext : next feed = step at hadvance
    cases hadvance with
    | ended => exact ⟨[], none, [], [], rfl, .nil, .complete, by simp⟩
    | failed hhalt => exact ⟨[], _, [], feed, rfl, .nil, hhalt, by simp⟩
    | @formed _ s hpart rest hboundary =>
      have hlt : rest.length < n := hlength ▸ length_next_lt hnext
      obtain ⟨statements, failure, hdivision⟩ := ih rest.length hlt rest rfl
      exact ⟨s :: statements, failure, hdivision.cons hpart hboundary⟩

/-- What is formed from a feed is its division. -/
theorem Division.drain_eq {feed : Feed} {statements : List Statement} {failure : Option Fault}
    (h : Division feed statements failure) :
    (drain feed).1 = statements.map .ok ++ failure.toList.map .error := by
  induction statements generalizing feed with
  | nil =>
    obtain ⟨tokens, rest, rfl, hpartition, hhalt, -⟩ := h.divided
    rw [hpartition.eq_nil]
    cases failure with
    | none =>
      cases hhalt
      exact drain_of_none rfl
    | some f =>
      have hdrain : (drain rest).1 = [.error f] := by
        rw [drain_of_some (next_of_halt hhalt), drain_of_none rfl]
      exact hdrain
  | cons s statements ih =>
    obtain ⟨part, rest, rfl, hpart, hrest, hboundary⟩ := h.cons_inv
    rw [drain_of_some (next_formed hpart hboundary), ih hrest]
    rfl

theorem drain_eq_iff {feed : Feed} {outcome : List (Except Fault Statement)} :
    (drain feed).1 = outcome ↔ ∃ statements failure, Division feed statements failure ∧
      outcome = statements.map .ok ++ failure.toList.map .error := by
  constructor
  · rintro rfl
    obtain ⟨statements, failure, hdivision⟩ := exists_division feed
    exact ⟨statements, failure, hdivision, hdivision.drain_eq⟩
  · rintro ⟨statements, failure, hdivision, rfl⟩
    exact hdivision.drain_eq

theorem map_ok_inj {α : Type} {xs ys : List α}
    (h : xs.map (Except.ok : α → Except Fault α) = ys.map .ok) : xs = ys :=
  List.map_injective_iff.mpr (fun _ _ => Except.ok.inj) h

/-- Where no failure comes of a feed, it is divided into its statements alone. -/
theorem division_of_drain {feed : Feed} {statements : List Statement}
    (h : (drain feed).1 = statements.map .ok) : Division feed statements none := by
  obtain ⟨statements', failure, hdivision⟩ := exists_division feed
  rw [hdivision.drain_eq] at h
  cases failure with
  | none =>
    rw [Option.toList_none, List.map_nil, List.append_nil] at h
    rwa [← map_ok_inj h]
  | some f =>
    have hmem : (.error f : Except Fault Statement) ∈ statements.map .ok := by simp [← h]
    simp at hmem

/-- What is formed from a feed without faults accounts for all of its tokens in order. -/
theorem drain_eq_ok {feed : Feed} {statements : List Statement}
    (h : (drain feed).1 = statements.map .ok) :
    ∃ parts : List (List Token), feed = parts.flatten.map .ok ∧
      List.Forall₂ Formed parts statements := by
  obtain ⟨tokens, rest, rfl, hpartition, hhalt, -⟩ := (division_of_drain h).divided
  obtain ⟨parts, rfl, hformed⟩ := hpartition.formed
  cases hhalt
  exact ⟨parts, List.append_nil _, hformed⟩

/-- A statement is formed from tokens of the feed. -/
theorem formed_of_mem_drain {feed : Feed} {s : Statement} (h : .ok s ∈ (drain feed).1) :
    ∃ tokens, Formed tokens s ∧ ∀ t ∈ tokens, .ok t ∈ feed := by
  obtain ⟨statements, failure, hdivision⟩ := exists_division feed
  rw [hdivision.drain_eq] at h
  obtain ⟨tokens, rest, rfl, hpartition, -, -⟩ := hdivision.divided
  obtain ⟨parts, rfl, hformed⟩ := hpartition.formed
  have hs : s ∈ statements := by simpa using h
  obtain ⟨i, hi, rfl⟩ := List.getElem_of_mem hs
  have hlength := hformed.length_eq
  refine ⟨parts[i], List.forall₂_iff_get.mp hformed |>.2 i (by omega) hi, ?_⟩
  intro t ht
  apply List.mem_append_left
  apply List.mem_map_of_mem
  exact List.mem_flatten_of_mem (List.getElem_mem _) ht

/-- A failure is a fault of the feed, or that of a definition without its end or its name. -/
theorem cause_of_mem_drain {feed : Feed} {f : Fault} (h : .error f ∈ (drain feed).1) :
    .error f ∈ feed ∨ f.cause = .openDefinition ∨ f.cause = .unnamedDefinition := by
  obtain ⟨statements, failure, hdivision⟩ := exists_division feed
  rw [hdivision.drain_eq] at h
  obtain ⟨tokens, rest, rfl, -, hhalt, -⟩ := hdivision.divided
  obtain rfl : failure = some f := by simpa using h
  cases hhalt with
  | unnamed => exact .inr (.inr rfl)
  | openDefinition => exact .inr (.inl rfl)
  | inDefinition | inExpression =>
    left
    simp

/-- Tokens without a fault are formed into statements by a partition of them. -/
theorem drain_tokens_iff {tokens : List Token} {statements : List Statement} :
    (drain (tokens.map .ok)).1 = statements.map .ok ↔ Partition tokens statements := by
  constructor
  · intro h
    obtain ⟨consumed, rest, htokens, hpartition, hhalt, -⟩ := (division_of_drain h).divided
    cases hhalt
    rw [List.append_nil] at htokens
    rwa [map_ok_inj htokens]
  · intro h
    have hdivision : Division (tokens.map .ok) statements none :=
      ⟨tokens, [], by simp, h, .complete, fun _ _ _ => Feed.atBoundary_nil⟩
    simpa using hdivision.drain_eq

/-- The statements of a text that is read to its end are the one partition of its tokens. In general
what a text gives is its division: the statements that are complete before the first failure, and
then that failure once. -/
theorem parse_unique_partition (path text : String) :
    (∀ tokens, tokenize path text = .ok tokens →
      ∀ statements, parse path text = .ok statements ↔ Partition tokens statements) ∧
    (∀ tokens statements statements', Partition tokens statements →
      Partition tokens statements' → statements = statements') ∧
    ∀ outcome, results path text = outcome ↔
      ∃ statements failure, Division (lex path text) statements failure ∧
        outcome = statements.map .ok ++ failure.toList.map .error := by
  refine ⟨?_, ?_, fun outcome => drain_eq_iff⟩
  · intro tokens htokens statements
    have hresults : results path text = (drain (tokens.map .ok)).1 := by
      rw [results, collect_eq_ok htokens]
    rw [← drain_tokens_iff, ← hresults, parse]
    constructor
    · exact collect_eq_ok
    · intro h
      rw [h, collect_ok]
  · intro tokens statements statements' h h'
    have heq := (drain_tokens_iff.mpr h).symm.trans (drain_tokens_iff.mpr h')
    exact map_ok_inj heq

/-- A definition between two expressions; and a definition without a name, whose failure comes
before that of the comment behind it. -/
theorem parse_unique_partition_between :
    (∃ tokens statements, tokenize "f" "1 : SQ DUP ; SQ" = .ok tokens ∧
      parse "f" "1 : SQ DUP ; SQ" = .ok statements ∧
      statements.map isExpression = [true, false, true] ∧
      Partition tokens statements ∧ ∀ others, Partition tokens others → others = statements) ∧
    results "f" "1 : 5 ; (" = [.ok (.expression [⟨.number 1, ⟨"f", 1, 2⟩⟩]),
      .error (.atSource .unnamedDefinition ⟨"f", 1, 6⟩)] := by
  constructor
  · have htokens : tokenize "f" "1 : SQ DUP ; SQ" = .ok [⟨.number 1, ⟨"f", 1, 2⟩⟩,
        ⟨.colon, ⟨"f", 1, 4⟩⟩, ⟨.word "SQ", ⟨"f", 1, 7⟩⟩, ⟨.word "DUP", ⟨"f", 1, 11⟩⟩,
        ⟨.semicolon, ⟨"f", 1, 13⟩⟩, ⟨.word "SQ", ⟨"f", 1, 16⟩⟩] := by decide +kernel
    have hparse : parse "f" "1 : SQ DUP ; SQ" = .ok [.expression [⟨.number 1, ⟨"f", 1, 2⟩⟩],
        .declaration [⟨.word "SQ", ⟨"f", 1, 7⟩⟩, ⟨.word "DUP", ⟨"f", 1, 11⟩⟩],
        .expression [⟨.word "SQ", ⟨"f", 1, 16⟩⟩]] := by decide +kernel
    obtain ⟨hpartition, hunique, -⟩ := parse_unique_partition "f" "1 : SQ DUP ; SQ"
    have h := (hpartition _ htokens _).mp hparse
    exact ⟨_, _, htokens, hparse, rfl, h, fun others hothers => hunique _ _ _ hothers h⟩
  · have hlex : lex "f" "1 : 5 ; (" = [.ok ⟨.number 1, ⟨"f", 1, 2⟩⟩, .ok ⟨.colon, ⟨"f", 1, 4⟩⟩,
        .ok ⟨.number 5, ⟨"f", 1, 6⟩⟩, .ok ⟨.semicolon, ⟨"f", 1, 8⟩⟩,
        .error (.atSource .openComment ⟨"f", 1, 10⟩)] := by decide +kernel
    obtain ⟨-, -, hresults⟩ := parse_unique_partition "f" "1 : 5 ; ("
    apply (hresults _).mpr
    refine ⟨[.expression [⟨.number 1, ⟨"f", 1, 2⟩⟩]],
      some (.atSource .unnamedDefinition ⟨"f", 1, 6⟩), ?_, rfl⟩
    rw [hlex]
    have hhalt := @Halt.unnamed ⟨.colon, ⟨"f", 1, 4⟩⟩ ⟨.semicolon, ⟨"f", 1, 8⟩⟩
      [⟨.number 5, ⟨"f", 1, 6⟩⟩] rfl (by simp [Token.name?]) (by simp) rfl
      [.error (.atSource .openComment ⟨"f", 1, 10⟩)]
    have hone : Formed [⟨.number 1, ⟨"f", 1, 2⟩⟩] (.expression [⟨.number 1, ⟨"f", 1, 2⟩⟩]) :=
      .expression (by simp) (by simp)
    have hrest : Division _ [] _ := ⟨[], _, rfl, .nil, hhalt, by simp⟩
    exact hrest.cons hone fun _ => Feed.atBoundary_colon rfl _

end Statement

end TokenForth

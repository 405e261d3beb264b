import TokenForth.Token.Lexer

/-!
# Statements

A source is a sequence of statements: definitions, which run from a colon to the next semicolon,
and expressions, which run up to the next colon. Statements are formed from what the lexer gives
out, so a fault of the text arises when the statement that holds it is formed. After a fault
nothing more is formed.
-/
namespace TokenForth

inductive Statement where
  /-- The tokens between the colon and the semicolon, the first of them a word. -/
  | declaration (body : List Token)
  | expression (body : List Token)
  deriving DecidableEq, Repr, Inhabited

namespace Statement

def tokens : Statement → List Token
  | declaration body | expression body => body

def render : Statement → String
  | declaration body => ": " ++ Token.renderAll body ++ ";"
  | expression body => Token.renderAll body

/-- What the lexer gives out from some point on. -/
abbrev Feed := List (Except Fault Token)

/-- The tokens up to the next semicolon; `none` as a fault says that the input ends first. -/
def takeBody : Feed → Except (Option Fault) (List Token × Feed)
  | [] => .error none
  | .error f :: _ => .error (some f)
  | .ok t :: feed =>
    if t.isSemicolon then .ok ([], feed)
    else (takeBody feed).map fun (body, rest) => (t :: body, rest)

/-- The tokens up to the next colon or the end of the input. -/
def takeExpression : Feed → Except Fault (List Token × Feed)
  | [] => .ok ([], [])
  | .error f :: _ => .error f
  | .ok t :: feed =>
    if t.isColon then .ok ([], .ok t :: feed)
    else (takeExpression feed).map fun (body, rest) => (t :: body, rest)

/-- The definition that follows the colon at `colon`. -/
def takeDeclaration (colon : Location) (feed : Feed) : Except Fault (Statement × Feed) :=
  match takeBody feed with
  | .error none => .error (.atSource .openDefinition colon)
  | .error (some f) => .error f
  | .ok ([], _) => .error (.atSource .unnamedDefinition colon)
  | .ok (first :: body, rest) =>
    match first.lexeme with
    | .word _ => .ok (declaration (first :: body), rest)
    | _ => .error (.atSource .unnamedDefinition first.location)

def takeFrom (t : Token) (feed : Feed) : Except Fault (Statement × Feed) :=
  if t.isColon then takeDeclaration t.location feed
  else (takeExpression feed).map fun (body, rest) => (expression (t :: body), rest)

/-- The next statement or fault, and what is left to read. -/
def next : Feed → Option (Except Fault Statement) × Feed
  | [] => (none, [])
  | .error f :: _ => (some (.error f), [])
  | .ok t :: feed =>
    match takeFrom t feed with
    | .ok (statement, rest) => (some (.ok statement), rest)
    | .error f => (some (.error f), [])

theorem length_takeBody {feed rest : Feed} {body : List Token}
    (h : takeBody feed = .ok (body, rest)) : rest.length ≤ feed.length := by
  induction feed generalizing body with
  | nil => cases h
  | cons first feed ih =>
    cases first with
    | error f => cases h
    | ok t =>
      unfold takeBody at h
      split at h
      · cases h; exact Nat.le_succ _
      · cases hb : takeBody feed with
        | error e => rw [hb] at h; cases h
        | ok p => rw [hb] at h; cases h; exact Nat.le_succ_of_le (ih hb)

theorem length_takeExpression {feed rest : Feed} {body : List Token}
    (h : takeExpression feed = .ok (body, rest)) : rest.length ≤ feed.length := by
  induction feed generalizing body with
  | nil => cases h; exact Nat.le_refl _
  | cons first feed ih =>
    cases first with
    | error f => cases h
    | ok t =>
      unfold takeExpression at h
      split at h
      · cases h; exact Nat.le_refl _
      · cases hb : takeExpression feed with
        | error e => rw [hb] at h; cases h
        | ok p => rw [hb] at h; cases h; exact Nat.le_succ_of_le (ih hb)

theorem length_takeFrom {t : Token} {feed rest : Feed} {statement : Statement}
    (h : takeFrom t feed = .ok (statement, rest)) : rest.length ≤ feed.length := by
  unfold takeFrom at h
  split at h
  · unfold takeDeclaration at h
    split at h
    · cases h
    · cases h
    · cases h
    · next hb =>
      split at h
      · cases h; exact length_takeBody hb
      · cases h
  · cases he : takeExpression feed with
    | error e => rw [he] at h; cases h
    | ok p => rw [he] at h; cases h; exact length_takeExpression he

theorem length_next_lt {feed rest : Feed} {result : Except Fault Statement}
    (h : next feed = (some result, rest)) : rest.length < feed.length := by
  match feed with
  | [] => cases h
  | .error f :: feed => cases h; exact Nat.succ_pos _
  | .ok t :: feed =>
    simp only [Statement.next] at h
    split at h
    · next hf => cases h; exact Nat.lt_succ_of_le (length_takeFrom hf)
    · cases h; exact Nat.succ_pos _

/-- Everything that is formed from a feed, and what is left of it. -/
def drain (feed : Feed) : List (Except Fault Statement) × Feed :=
  match h : next feed with
  | (none, last) => ([], last)
  | (some result, following) =>
    have _ := length_next_lt h
    let (more, last) := drain following
    (result :: more, last)
termination_by feed.length

/-- The statements and faults of a source, in order. -/
def results (path text : String) : List (Except Fault Statement) := (drain (lex path text)).1

def parse (path text : String) : Except Fault (List Statement) := collect (results path text)

/-- Forms the statements of a source and keeps only the first fault. -/
def validate (path text : String) : Except Fault Unit := (parse path text).map fun _ => ()

end Statement

end TokenForth

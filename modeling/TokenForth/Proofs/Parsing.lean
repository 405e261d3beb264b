import TokenForth.Engine
import TokenForth.Proofs.Partition

/-!
# Sources up to locations

Two sources are alike if they are read as the same lexemes, as a text under two paths is, or a text
with other separators. Statements are formed by the lexemes alone, so alike sources have alike
statements, and faults with the same cause in the same place.
-/
namespace TokenForth

def Token.Alike (t u : Token) : Prop := t.lexeme = u.lexeme

theorem Token.Alike.isColon_eq {t u : Token} (h : t.Alike u) : t.isColon = u.isColon := by
  simp only [Token.isColon, show t.lexeme = u.lexeme from h]

theorem Token.Alike.isSemicolon_eq {t u : Token} (h : t.Alike u) :
    t.isSemicolon = u.isSemicolon := by
  simp only [Token.isSemicolon, show t.lexeme = u.lexeme from h]

def Call.Alike (c d : Call) : Prop := c.word = d.word

/-- Faults with the same cause that were met within calls of the same words. -/
structure Fault.Alike (f g : Fault) : Prop where
  cause : f.cause = g.cause
  trace : Option.Rel (List.Forall₂ Call.Alike) f.trace g.trace

inductive Statement.Alike : Statement → Statement → Prop
  | declaration {ts us : List Token} (h : List.Forall₂ Token.Alike ts us) :
    Alike (.declaration ts) (.declaration us)
  | expression {ts us : List Token} (h : List.Forall₂ Token.Alike ts us) :
    Alike (.expression ts) (.expression us)

/-- Results that correspond: both a value, or both a failure. -/
inductive Agrees {ε α : Type} (failure : ε → ε → Prop) (value : α → α → Prop) :
    Except ε α → Except ε α → Prop
  | ok {a b : α} (h : value a b) : Agrees failure value (.ok a) (.ok b)
  | error {f g : ε} (h : failure f g) : Agrees failure value (.error f) (.error g)

theorem Agrees.map {ε α β : Type} {failure : ε → ε → Prop} {value : α → α → Prop}
    {value' : β → β → Prop} {x y : Except ε α} (h : Agrees failure value x y) {f g : α → β}
    (hfg : ∀ a b, value a b → value' (f a) (g b)) :
    Agrees failure value' (x.map f) (y.map g) := by
  cases h with
  | ok h => exact .ok (hfg _ _ h)
  | error h => exact .error h

theorem Fault.alike_atSource (cause : Fault.Cause) (loc loc' : Location) :
    (Fault.atSource cause loc).Alike (.atSource cause loc') := ⟨rfl, .none⟩

theorem Token.forall₂_alike_iff {ts us : List Token} :
    List.Forall₂ Token.Alike ts us ↔ ts.map (·.lexeme) = us.map (·.lexeme) := by
  rw [← List.forall₂_eq_eq_eq, List.forall₂_map_left_iff, List.forall₂_map_right_iff]
  rfl

abbrev Statement.Feed.Alike (feed feed' : Feed) : Prop :=
  List.Forall₂ (Agrees Fault.Alike Token.Alike) feed feed'

theorem Statement.Feed.alike_ok {ts us : List Token} (h : List.Forall₂ Token.Alike ts us) :
    Feed.Alike (ts.map .ok) (us.map .ok) := by
  unfold Feed.Alike
  rw [List.forall₂_map_left_iff, List.forall₂_map_right_iff]
  exact h.imp fun _ _ => .ok

theorem Layout.faults_alike (layout layout' : Layout) (path path' : String)
    (cause : Option Fault.Cause) : Statement.Feed.Alike ((layout.faults path cause).map .error)
      ((layout'.faults path' cause).map .error) := by
  cases cause with
  | none => exact .nil
  | some cause => exact .cons (.error (Fault.alike_atSource _ _ _)) .nil

/-- Texts whose tokens have the same lexemes are alike. -/
theorem lex_alike_of_lexemes {path path' text text' : String} (lexemes : List Lexeme)
    (h : (tokenize path text).map (List.map Token.lexeme) = .ok lexemes)
    (h' : (tokenize path' text').map (List.map Token.lexeme) = .ok lexemes) :
    Statement.Feed.Alike (lex path text) (lex path' text') := by
  cases htokens : tokenize path text with
  | error f => rw [htokens] at h; cases h
  | ok tokens =>
    cases htokens' : tokenize path' text' with
    | error f => rw [htokens'] at h'; cases h'
    | ok tokens' =>
      rw [htokens] at h
      rw [htokens'] at h'
      rw [collect_eq_ok htokens, collect_eq_ok htokens']
      apply Statement.Feed.alike_ok
      rw [Token.forall₂_alike_iff, Except.ok.inj h, Except.ok.inj h']

theorem collect_agrees {α : Type} {failure : Fault → Fault → Prop} {value : α → α → Prop}
    {xs ys : List (Except Fault α)} (h : List.Forall₂ (Agrees failure value) xs ys) :
    Agrees failure (List.Forall₂ value) (collect xs) (collect ys) := by
  induction h with
  | nil => exact .ok .nil
  | cons hxy _ ih =>
    cases hxy with
    | ok h => exact ih.map fun _ _ => .cons h
    | error h => exact .error h

namespace Statement

def AlikeUpTo (p q : List Token × Feed) : Prop :=
  List.Forall₂ Token.Alike p.1 q.1 ∧ p.2.Alike q.2

theorem takeBody_agrees {feed feed' : Feed} (h : feed.Alike feed') :
    Agrees (Option.Rel Fault.Alike) AlikeUpTo (takeBody feed) (takeBody feed') := by
  induction h with
  | nil => exact .error .none
  | cons hfirst hrest ih =>
    cases hfirst with
    | error h => exact .error (.some h)
    | @ok t u ht =>
      simp only [takeBody, ht.isSemicolon_eq]
      split
      · exact .ok ⟨.nil, hrest⟩
      · exact ih.map fun _ _ h => ⟨.cons ht h.1, h.2⟩

theorem takeExpression_agrees {feed feed' : Feed} (h : feed.Alike feed') :
    Agrees Fault.Alike AlikeUpTo (takeExpression feed) (takeExpression feed') := by
  induction h with
  | nil => exact .ok ⟨.nil, .nil⟩
  | cons hfirst hrest ih =>
    cases hfirst with
    | error h => exact .error h
    | @ok t u ht =>
      simp only [takeExpression, ht.isColon_eq]
      split
      · exact .ok ⟨.nil, .cons (.ok ht) hrest⟩
      · exact ih.map fun _ _ h => ⟨.cons ht h.1, h.2⟩

def FollowedAlike (p q : Statement × Feed) : Prop := p.1.Alike q.1 ∧ p.2.Alike q.2

theorem takeDeclaration_agrees {feed feed' : Feed} (h : feed.Alike feed') (loc loc' : Location) :
    Agrees Fault.Alike FollowedAlike (takeDeclaration loc feed) (takeDeclaration loc' feed') := by
  have hbody := takeBody_agrees h
  unfold takeDeclaration
  generalize takeBody feed = x, takeBody feed' = y at hbody ⊢
  cases hbody with
  | error hf =>
    cases hf with
    | none => exact .error (Fault.alike_atSource _ _ _)
    | some hf => exact .error hf
  | @ok p q hpq =>
    obtain ⟨ts, rest⟩ := p
    obtain ⟨us, rest'⟩ := q
    obtain ⟨htokens, hrest⟩ := hpq
    dsimp only at htokens hrest
    cases htokens with
    | nil => exact .error (Fault.alike_atSource _ _ _)
    | @cons t u ts us ht hts =>
      dsimp only
      rw [← show t.lexeme = u.lexeme from ht]
      split
      · exact .ok ⟨.declaration (.cons ht hts), hrest⟩
      · exact .error (Fault.alike_atSource _ _ _)

theorem takeFrom_agrees {t u : Token} (ht : t.Alike u) {feed feed' : Feed} (h : feed.Alike feed') :
    Agrees Fault.Alike FollowedAlike (takeFrom t feed) (takeFrom u feed') := by
  simp only [takeFrom, ht.isColon_eq]
  split
  · exact takeDeclaration_agrees h _ _
  · exact (takeExpression_agrees h).map fun _ _ hb => ⟨.expression (.cons ht hb.1), hb.2⟩

theorem next_alike {feed feed' : Feed} (h : feed.Alike feed') :
    Option.Rel (Agrees Fault.Alike Statement.Alike) (next feed).1 (next feed').1 ∧
      (next feed).2.Alike (next feed').2 := by
  cases h with
  | nil => exact ⟨.none, .nil⟩
  | cons hfirst hrest =>
    cases hfirst with
    | error hf => exact ⟨.some (.error hf), .nil⟩
    | @ok t u ht =>
      have hfrom := takeFrom_agrees ht hrest
      simp only [Statement.next]
      generalize takeFrom t _ = x, takeFrom u _ = y at hfrom ⊢
      cases hfrom with
      | ok h => exact ⟨.some (.ok h.1), h.2⟩
      | error hf => exact ⟨.some (.error hf), .nil⟩

/-- Alike feeds are formed into alike statements. -/
theorem drain_alike {feed feed' : Feed} (h : feed.Alike feed') :
    List.Forall₂ (Agrees Fault.Alike Statement.Alike) (drain feed).1 (drain feed').1 := by
  induction hlength : feed.length using Nat.strongRecOn generalizing feed feed' with
  | _ n ih =>
    -- the first results are alike, and so is what is left to read, which is shorter
    obtain ⟨hresult, hrest⟩ := next_alike h
    rcases hnext : next feed with ⟨result, rest⟩
    rcases hnext' : next feed' with ⟨result', rest'⟩
    rw [hnext, hnext'] at hresult hrest
    dsimp only at hresult hrest
    cases hresult with
    | none =>
      rw [drain_of_none (by rw [hnext]), drain_of_none (by rw [hnext'])]
      exact .nil
    | some hagree =>
      rw [drain_of_some hnext, drain_of_some hnext']
      exact .cons hagree (ih rest.length (hlength ▸ length_next_lt hnext) hrest rfl)

/-- A source text has no fault of a running machine. -/
theorem source_of_mem_results {path text : String} {f : Fault}
    (h : .error f ∈ results path text) : f.kind.isLexical ∨ f.kind.isStructural := by
  rcases cause_of_mem_drain h with hlex | hcause | hcause
  · obtain ⟨remainder, hrefused⟩ := refused_of_mem_lex hlex
    generalize hcause : f.cause = cause at hrefused
    left
    cases hrefused <;> simp [Fault.kind, hcause, Fault.Cause.kind, Fault.Kind.isLexical]
  · right
    simp [Fault.kind, hcause, Fault.Cause.kind, Fault.Kind.isStructural]
  · right
    simp [Fault.kind, hcause, Fault.Cause.kind, Fault.Kind.isStructural]

end Statement

/-- A definition of a source defines a word. -/
theorem Machine.carryOut_declaration {path text : String} {tokens : List Token}
    (h : .ok (.declaration tokens) ∈ Statement.results path text) (n : Nat) (m : Machine) :
    ∃ (first : Token) (body : List Token) (w : Word), tokens = first :: body ∧
      first.lexeme = .word w.name ∧ w.action = .body body ∧
      Machine.carryOut n (.declaration tokens) m = .done () { m with dictionary := m.dictionary.add w } := by
  obtain ⟨parts, hformed, -⟩ := Statement.formed_of_mem_drain h
  cases hformed with
  | @declaration _ first _ name body _ hfirst =>
    refine ⟨first, body, ⟨name, .body body, some first.location, "User defined word.", ""⟩, rfl, hfirst,
      rfl, ?_⟩
    simp only [Machine.carryOut, carryOutVia, Setting.act, define, hfirst]
    rfl

end TokenForth

import TokenForth.Proofs.Reading

/-!
# Structured programs

A structured program is a tree: a sequence of leaves and of blocks, each with the sequences it
holds. Its tokens are a flat list, in which the blocks can be found again. A scan for a closing word
passes over whole programs, and putting in loop indices leaves the bodies of inner loops alone.
-/
namespace TokenForth

/-- A sequence of leaves and blocks, with the places of the keywords. -/
inductive Program where
  | done
  | leaf (token : Token) (rest : Program)
  /-- `IF ... THEN` -/
  | when (opening : Location) (body : Program) (closing : Location) (rest : Program)
  /-- `IF ... ELSE ... THEN` -/
  | choose (opening : Location) (yes : Program) (middle : Location) (no : Program)
    (closing : Location) (rest : Program)
  /-- `DO ... LOOP` or, stepped, `DO ... +LOOP` -/
  | count (opening : Location) (body : Program) (stepped : Bool) (closing : Location)
    (rest : Program)
  /-- `BEGIN ... UNTIL` -/
  | loopUntil (opening : Location) (body : Program) (closing : Location) (rest : Program)
  /-- `BEGIN ... AGAIN` -/
  | loopAgain (opening : Location) (body : Program) (closing : Location) (rest : Program)
  /-- `BEGIN ... WHILE ... REPEAT` -/
  | loopWhile (opening : Location) (test : Program) (middle : Location) (body : Program)
    (closing : Location) (rest : Program)
  deriving DecidableEq, Repr

namespace Program

def keywords : List String :=
  ["IF", "ELSE", "THEN", "DO", "LOOP", "+LOOP", "BEGIN", "UNTIL", "AGAIN", "WHILE", "REPEAT"]

def namingWords : List String := ["VARIABLE", "CONSTANT", "SEE"]

def keyword (name : String) (location : Location) : Token := ⟨.word name, location⟩

def loopCloser (stepped : Bool) : String := if stepped then "+LOOP" else "LOOP"

def tokens : Program → List Token
  | done => []
  | leaf t rest => t :: rest.tokens
  | when o body c rest => keyword "IF" o :: (body.tokens ++ keyword "THEN" c :: rest.tokens)
  | choose o yes s no c rest =>
    keyword "IF" o :: (yes.tokens ++ keyword "ELSE" s :: (no.tokens ++ keyword "THEN" c :: rest.tokens))
  | count o body stepped c rest =>
    keyword "DO" o :: (body.tokens ++ keyword (loopCloser stepped) c :: rest.tokens)
  | loopUntil o body c rest => keyword "BEGIN" o :: (body.tokens ++ keyword "UNTIL" c :: rest.tokens)
  | loopAgain o body c rest => keyword "BEGIN" o :: (body.tokens ++ keyword "AGAIN" c :: rest.tokens)
  | loopWhile o test s body c rest =>
    keyword "BEGIN" o ::
      (test.tokens ++ keyword "WHILE" s :: (body.tokens ++ keyword "REPEAT" c :: rest.tokens))

/-- The tokens of a program in a pass with given indices, which stand for `I`, `J` and `K` outside
of inner loops. -/
def tokensIn (env : List Cell) : Program → List Token
  | done => []
  | leaf t rest => t.withIndex env :: rest.tokensIn env
  | when o body c rest =>
    keyword "IF" o :: (body.tokensIn env ++ keyword "THEN" c :: rest.tokensIn env)
  | choose o yes s no c rest =>
    keyword "IF" o :: (yes.tokensIn env ++ keyword "ELSE" s ::
      (no.tokensIn env ++ keyword "THEN" c :: rest.tokensIn env))
  | count o body stepped c rest =>
    keyword "DO" o :: (body.tokens ++ keyword (loopCloser stepped) c :: rest.tokensIn env)
  | loopUntil o body c rest =>
    keyword "BEGIN" o :: (body.tokensIn env ++ keyword "UNTIL" c :: rest.tokensIn env)
  | loopAgain o body c rest =>
    keyword "BEGIN" o :: (body.tokensIn env ++ keyword "AGAIN" c :: rest.tokensIn env)
  | loopWhile o test s body c rest =>
    keyword "BEGIN" o :: (test.tokensIn env ++ keyword "WHILE" s ::
      (body.tokensIn env ++ keyword "REPEAT" c :: rest.tokensIn env))

def head? : Program → Option Token
  | leaf t _ => some t
  | _ => none

/-- Whether a token can be a leaf: a literal, a comment, or a word that is no keyword and not
`FORGET`. -/
def isLeaf (t : Token) : Bool :=
  match t.lexeme with
  | .number _ | .quote _ | .comment _ => true
  | .word name => name ∉ keywords ∧ name ≠ "FORGET"
  | .colon | .semicolon => false

def isName (t : Token) : Bool :=
  match t.name? with
  | some name => name ∉ ["I", "J", "K"]
  | none => false

/-- Whether all leaves can be leaves, and naming words are followed by names. -/
def isWellFormed : Program → Bool
  | done => true
  | leaf t rest =>
    isLeaf t && (t.name?.all (· ∉ namingWords) || rest.head?.any isName) && rest.isWellFormed
  | when _ body _ rest | count _ body _ _ rest | loopUntil _ body _ rest | loopAgain _ body _ rest =>
    body.isWellFormed && rest.isWellFormed
  | choose _ a _ b _ rest | loopWhile _ a _ b _ rest =>
    a.isWellFormed && b.isWellFormed && rest.isWellFormed

end Program

namespace Vocabulary

/-- A scan passes over the tokens, whatever the depth, and takes them into its block as they are. -/
def Passes (v : Vocabulary) (tokens : List Token) : Prop :=
  ∀ depth rest, v.scanFrom depth (tokens ++ rest) =
    (v.scanFrom depth rest).map fun (b, after) => ({ b with first := tokens ++ b.first }, after)

variable {v : Vocabulary} {o s c t : Token} {first second rest : List Token}

/-- The words around a sequence: a scan takes them for the words of one of its own blocks, or they
mean nothing to it. -/
def Pairs (v : Vocabulary) (o c : Token) : Prop :=
  v.role o = .opens ∧ v.role c = .closes ∨ v.role o = .plain ∧ v.role c = .plain

def Splits (v : Vocabulary) (o s c : Token) : Prop :=
  v.role o = .opens ∧ v.role s = .separates ∧ v.role c = .closes ∨
    v.role o = .plain ∧ v.role s = .plain ∧ v.role c = .plain

theorem passes_nil : v.Passes [] := by
  intro depth rest
  simp

theorem Passes.cons (h : v.role t = .plain) (hrest : v.Passes rest) : v.Passes (t :: rest) := by
  intro depth tokens
  simp [scanFrom, h, hrest depth, Block.prepend, Function.comp_def]

theorem Passes.block (h : v.Pairs o c) (hfirst : v.Passes first) (hrest : v.Passes rest) :
    v.Passes (o :: (first ++ c :: rest)) := by
  intro depth tokens
  rcases h with ⟨ho, hc⟩ | ⟨ho, hc⟩
  · simp [scanFrom, ho, hc, hfirst (depth + 1), hrest depth, Block.prepend, Function.comp_def]
  · simp [scanFrom, ho, hc, hfirst depth, hrest depth, Block.prepend, Function.comp_def]

theorem Passes.splitBlock (h : v.Splits o s c) (hfirst : v.Passes first)
    (hsecond : v.Passes second) (hrest : v.Passes rest) :
    v.Passes (o :: (first ++ s :: (second ++ c :: rest))) := by
  intro depth tokens
  rcases h with ⟨ho, hs, hc⟩ | ⟨ho, hs, hc⟩
  · simp [scanFrom, ho, hs, hc, hfirst (depth + 1), hsecond (depth + 1), hrest depth, Block.prepend,
      Function.comp_def]
  · simp [scanFrom, ho, hs, hc, hfirst depth, hsecond depth, hrest depth, Block.prepend,
      Function.comp_def]

/-- The first closing word after tokens that a scan passes over ends the block. -/
theorem Passes.scan (hfirst : v.Passes first) (hc : v.role c = .closes) :
    v.scan (first ++ c :: rest) = some (⟨first, [], c⟩, rest) := by
  simp [Vocabulary.scan, hfirst 0, scanFrom, hc]

theorem Passes.scan_split (hfirst : v.Passes first) (hs : v.role s = .separates)
    (hsecond : v.Passes second) (hc : v.role c = .closes) :
    v.scan (first ++ s :: (second ++ c :: rest)) = some (⟨first, [(s, second)], c⟩, rest) := by
  simp [Vocabulary.scan, hfirst 0, hsecond 0, scanFrom, hs, hc, Block.split]

end Vocabulary

namespace Program

open Vocabulary

theorem isLeaf_withIndex {t : Token} (h : isLeaf t = true) (env : List Cell) :
    isLeaf (t.withIndex env) = true := by
  unfold Token.withIndex
  split
  · rfl
  · exact h

/-- A leaf means nothing to a scan. -/
theorem role_leaf {t : Token} (h : isLeaf t = true) {v : Vocabulary}
    (hv : v ∈ [conditional, counted, repeated]) : v.role t = .plain := by
  obtain ⟨lexeme, location⟩ := t
  cases lexeme with
  | word name =>
    simp only [isLeaf, keywords, List.mem_cons, not_or, decide_eq_true_eq] at h
    simp only [List.mem_cons, List.not_mem_nil, or_false] at hv
    rcases hv with rfl | rfl | rfl <;>
      simp [role, Token.name?, conditional, counted, repeated, h]
  | _ => rfl

theorem pairs_keywords {v : Vocabulary} (hv : v ∈ [conditional, counted, repeated])
    {opener closer : String} (h : (opener, closer) ∈
      [("IF", "THEN"), ("DO", "LOOP"), ("DO", "+LOOP"), ("BEGIN", "UNTIL"), ("BEGIN", "AGAIN")])
    (o c : Location) : v.Pairs (keyword opener o) (keyword closer c) := by
  simp only [List.mem_cons, List.not_mem_nil, or_false, Prod.mk.injEq] at hv h
  rcases hv with rfl | rfl | rfl <;>
    rcases h with ⟨rfl, rfl⟩ | ⟨rfl, rfl⟩ | ⟨rfl, rfl⟩ | ⟨rfl, rfl⟩ | ⟨rfl, rfl⟩ <;>
    simp [Pairs, role, keyword, Token.name?, conditional, counted, repeated]

theorem splits_keywords {v : Vocabulary} (hv : v ∈ [conditional, counted, repeated])
    {opener middle closer : String} (h : (opener, middle, closer) ∈
      [("IF", "ELSE", "THEN"), ("BEGIN", "WHILE", "REPEAT")]) (o s c : Location) :
    v.Splits (keyword opener o) (keyword middle s) (keyword closer c) := by
  simp only [List.mem_cons, List.not_mem_nil, or_false, Prod.mk.injEq] at hv h
  rcases hv with rfl | rfl | rfl <;> rcases h with ⟨rfl, rfl, rfl⟩ | ⟨rfl, rfl, rfl⟩ <;>
    simp [Splits, role, keyword, Token.name?, conditional, counted, repeated]

@[simp] theorem tokensIn_nil (p : Program) : p.tokensIn [] = p.tokens := by
  have hleaf (t : Token) : t.withIndex [] = t := by
    unfold Token.withIndex loopIndex?
    split
    · next h =>
      obtain ⟨name, -, h⟩ := Option.bind_eq_some_iff.mp h
      split at h <;> cases h
    · rfl
  induction p <;> simp_all [tokensIn, tokens]

/-- A scan passes over whole programs: what one kind of block uses as its words never stands alone
between the words of another. -/
theorem passes_tokensIn {v : Vocabulary} (hv : v ∈ [conditional, counted, repeated]) {p : Program}
    (hp : p.isWellFormed = true) (env : List Cell) : v.Passes (p.tokensIn env) := by
  induction p generalizing env with
  | done => exact passes_nil
  | leaf t rest ih =>
    simp only [isWellFormed, Bool.and_eq_true] at hp
    exact (ih hp.2 env).cons (role_leaf (isLeaf_withIndex hp.1.1 env) hv)
  | when o body c rest ihbody ihrest | loopUntil o body c rest ihbody ihrest
  | loopAgain o body c rest ihbody ihrest =>
    simp only [isWellFormed, Bool.and_eq_true] at hp
    exact Passes.block (pairs_keywords hv (by simp) o c) (ihbody hp.1 env) (ihrest hp.2 env)
  | count o body stepped c rest ihbody ihrest =>
    simp only [isWellFormed, Bool.and_eq_true] at hp
    have hbody := ihbody hp.1 []
    rw [tokensIn_nil] at hbody
    exact Passes.block (pairs_keywords hv (by cases stepped <;> simp [loopCloser]) o c) hbody
      (ihrest hp.2 env)
  | choose o a s b c rest iha ihb ihrest | loopWhile o a s b c rest iha ihb ihrest =>
    simp only [isWellFormed, Bool.and_eq_true] at hp
    exact Passes.splitBlock (splits_keywords hv (by simp) o s c) (iha hp.1.1 env) (ihb hp.1.2 env)
      (ihrest hp.2 env)

section Substitution

variable (env : List Cell) (depth : Nat) (l : Location) (rest : List Token)

theorem substituteFrom_do : substituteFrom env depth (keyword "DO" l :: rest) =
    keyword "DO" l :: substituteFrom env (depth + 1) rest := by
  simp [substituteFrom, role, keyword, Token.name?, counted]

theorem substituteFrom_loop (stepped : Bool) :
    substituteFrom env (depth + 1) (keyword (loopCloser stepped) l :: rest) =
      keyword (loopCloser stepped) l :: substituteFrom env depth rest := by
  cases stepped <;> simp [substituteFrom, role, keyword, Token.name?, counted, loopCloser]

theorem substituteFrom_keyword {name : String}
    (h : name ∈ ["IF", "ELSE", "THEN", "BEGIN", "UNTIL", "AGAIN", "WHILE", "REPEAT"]) :
    substituteFrom env depth (keyword name l :: rest) =
      keyword name l :: substituteFrom env depth rest := by
  simp only [List.mem_cons, List.not_mem_nil, or_false] at h
  rcases h with rfl | rfl | rfl | rfl | rfl | rfl | rfl | rfl <;>
    simp [substituteFrom, role, keyword, Token.name?, counted, Token.withIndex, loopIndex?]

variable {p : Program} (hp : p.isWellFormed = true)
include hp

/-- The body of an inner loop stays as it is. -/
theorem substituteFrom_inner : substituteFrom env (depth + 1) (p.tokens ++ rest) =
    p.tokens ++ substituteFrom env (depth + 1) rest := by
  induction p generalizing depth rest with
  | done => rfl
  | leaf t q ih =>
    simp only [isWellFormed, Bool.and_eq_true] at hp
    simp [tokens, substituteFrom, role_leaf hp.1.1 (v := counted), ih, hp.2]
  | when o body c q ihbody ihrest | loopUntil o body c q ihbody ihrest
  | loopAgain o body c q ihbody ihrest =>
    simp only [isWellFormed, Bool.and_eq_true] at hp
    simp [tokens, substituteFrom_keyword, ihbody, ihrest, hp]
  | count o body stepped c q ihbody ihrest =>
    simp only [isWellFormed, Bool.and_eq_true] at hp
    simp [tokens, substituteFrom_do, substituteFrom_loop, ihbody, ihrest, hp]
  | choose o a s b c q iha ihb ihrest | loopWhile o a s b c q iha ihb ihrest =>
    simp only [isWellFormed, Bool.and_eq_true] at hp
    simp [tokens, substituteFrom_keyword, iha, ihb, ihrest, hp]

theorem substituteFrom_outer : substituteFrom env 0 (p.tokens ++ rest) =
    p.tokensIn env ++ substituteFrom env 0 rest := by
  induction p generalizing rest with
  | done => rfl
  | leaf t q ih =>
    simp only [isWellFormed, Bool.and_eq_true] at hp
    simp [tokens, tokensIn, substituteFrom, role_leaf hp.1.1 (v := counted), ih, hp.2]
  | when o body c q ihbody ihrest | loopUntil o body c q ihbody ihrest
  | loopAgain o body c q ihbody ihrest =>
    simp only [isWellFormed, Bool.and_eq_true] at hp
    simp [tokens, tokensIn, substituteFrom_keyword, ihbody, ihrest, hp]
  | count o body stepped c q ihbody ihrest =>
    simp only [isWellFormed, Bool.and_eq_true] at hp
    simp [tokens, tokensIn, substituteFrom_do, substituteFrom_loop, substituteFrom_inner, ihrest,
      hp]
  | choose o a s b c q iha ihb ihrest | loopWhile o a s b c q iha ihb ihrest =>
    simp only [isWellFormed, Bool.and_eq_true] at hp
    simp [tokens, tokensIn, substituteFrom_keyword, iha, ihb, ihrest, hp]

/-- Rewriting the tokens of a body for a pass gives the tokens of the body in that pass. -/
theorem substitute_tokens : substitute env p.tokens = p.tokensIn env := by
  simpa [substitute, substituteFrom] using substituteFrom_outer env [] hp

end Substitution

end Program

end TokenForth

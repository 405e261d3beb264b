import Mathlib.Data.List.Chain
import Mathlib.Data.List.Forall2
import TokenForth.Proofs.Names

/-!
# Token lists and machines without comments

What deleting the comments does to blocks, to the substitution of loop indices and to the words of a
dictionary. The token lists that can do without comments are the orderly ones: no comment stands where
a word would take it for the name or the message that should come next, and no definition is shown.
-/
namespace TokenForth

open Exec Machine

def Token.isComment (t : Token) : Bool :=
  match t.lexeme with
  | .comment _ => true
  | _ => false

def withoutComments (tokens : List Token) : List Token := tokens.filter fun t => !t.isComment

def Block.withoutComments (b : Block) : Block :=
  ⟨TokenForth.withoutComments b.first,
    b.parts.map fun part => (part.1, TokenForth.withoutComments part.2), b.closer⟩

def Word.withoutComments (w : Word) : Word :=
  match w.action with
  | .primitive _ => w
  | .body tokens => { w with action := .body (TokenForth.withoutComments tokens) }

def Word.tokens (w : Word) : List Token :=
  match w.action with
  | .primitive _ => []
  | .body tokens => tokens

def Dictionary.withoutComments (d : Dictionary) : Dictionary :=
  ⟨d.words.map Word.withoutComments⟩

def Machine.withoutComments (m : Machine) : Machine :=
  { m with dictionary := m.dictionary.withoutComments }

def asking : List String := ["VARIABLE", "CONSTANT", "FORGET", "ABORT"]

/-- No comment directly follows a word that looks at the token after it, and the word that shows
definitions does not occur. -/
structure Orderly (tokens : List Token) : Prop where
  apart : tokens.IsChain fun t u => (∃ name ∈ asking, t.name? = some name) → u.isComment = false
  unseen : ∀ t ∈ tokens, t.name? ≠ some "SEE"

def Dictionary.Orderly (d : Dictionary) : Prop :=
  ∀ w ∈ d.words, ∀ body, w.action = .body body → TokenForth.Orderly body

/-- The name in the catalog of a primitive that takes the next token, blocks apart. -/
def Primitive.title? : Primitive → Option String
  | storage .declare => some "VARIABLE"
  | storage .constant => some "CONSTANT"
  | listing .forget => some "FORGET"
  | listing .see => some "SEE"
  | control .abort => some "ABORT"
  | _ => none

def Word.title? (w : Word) : Option String :=
  match w.action with
  | .primitive p => p.title?
  | .body _ => none

/-- The primitives that take the next token are bound to their own names only, and none prints where
execution stands. -/
def Dictionary.Titled (d : Dictionary) : Prop :=
  ∀ w ∈ d.words, w.action ≠ .primitive .report ∧ ∀ title ∈ w.title?, w.name = title

theorem Dictionary.Standard.titled {d : Dictionary} (h : d.Standard) : d.Titled := by
  have hcatalog : ∀ e ∈ Catalog.words, e.action ≠ .primitive .report ∧
      ∀ title ∈ e.title?, e.name = title := by decide +kernel
  intro w hw
  cases haction : w.action with
  | body tokens => simp [Word.title?, haction]
  | primitive p =>
    rcases h w hw p haction with ⟨value, hvalue⟩ | ⟨e, he, hname, hprimitive⟩
    · rw [haction] at hvalue
      cases hvalue
      simp [Word.title?, haction, Primitive.title?]
    · have hentry := hcatalog e he
      simp only [Word.title?, hprimitive] at hentry
      simpa only [Word.title?, haction, ← hname] using hentry

theorem withoutComments_cons_comment {t : Token} (h : t.isComment = true) (tokens : List Token) :
    withoutComments (t :: tokens) = withoutComments tokens := by
  simp [withoutComments, h]

theorem withoutComments_cons_other {t : Token} (h : t.isComment = false) (tokens : List Token) :
    withoutComments (t :: tokens) = t :: withoutComments tokens := by
  simp [withoutComments, h]

theorem withoutComments_idem (tokens : List Token) :
    withoutComments (withoutComments tokens) = withoutComments tokens := by
  simp [withoutComments]

theorem withoutComments_dropWhile (tokens : List Token) :
    withoutComments (tokens.dropWhile Token.isComment) = withoutComments tokens := by
  induction tokens with
  | nil => rfl
  | cons t tokens ih =>
    by_cases ht : t.isComment = true
    · rw [List.dropWhile_cons_of_pos ht, ih, withoutComments_cons_comment ht]
    · rw [List.dropWhile_cons_of_neg ht]

theorem Token.name?_comment {t : Token} (h : t.isComment = true) : t.name? = none := by
  simp only [Token.isComment] at h
  split at h
  · next hlexeme => simp [Token.name?, hlexeme]
  · cases h

theorem Vocabulary.role_comment (v : Vocabulary) {t : Token} (h : t.isComment = true) :
    v.role t = .plain := by
  simp [Vocabulary.role, Token.name?_comment h]

/-- A block is found in the same place without the comments. -/
theorem Vocabulary.scanFrom_withoutComments (v : Vocabulary) (depth : Nat) (tokens : List Token) :
    v.scanFrom depth (withoutComments tokens) = (v.scanFrom depth tokens).map fun found =>
      (found.1.withoutComments, withoutComments found.2) := by
  induction tokens generalizing depth with
  | nil => rfl
  | cons t tokens ih =>
    have hmap {f g : Block → Block} (hfg : ∀ b, (f b).withoutComments = g b.withoutComments)
        (depth : Nat) :
        ((v.scanFrom depth (withoutComments tokens)).map fun found => (g found.1, found.2)) =
          ((v.scanFrom depth tokens).map fun found => (f found.1, found.2)).map fun found =>
            (found.1.withoutComments, withoutComments found.2) := by
      rw [ih, Option.map_map, Option.map_map]
      congr 1
      funext found
      simp [hfg]
    by_cases ht : t.isComment = true
    · have hprepend (b : Block) : (b.prepend t).withoutComments = b.withoutComments := by
        simp [Block.withoutComments, Block.prepend, withoutComments_cons_comment ht]
      rw [withoutComments_cons_comment ht]
      simp only [scanFrom, v.role_comment ht]
      rw [← hmap (g := id) hprepend]
      simp
    · have ht' : t.isComment = false := by simpa using ht
      have hprepend (b : Block) : (b.prepend t).withoutComments = b.withoutComments.prepend t := by
        simp [Block.withoutComments, Block.prepend, withoutComments_cons_other ht']
      have hsplit (b : Block) : (b.split t).withoutComments = b.withoutComments.split t := by
        simp [Block.withoutComments, Block.split, TokenForth.withoutComments]
      rw [withoutComments_cons_other ht']
      simp only [scanFrom]
      cases v.role t with
      | opens => exact hmap hprepend (depth + 1)
      | plain => exact hmap hprepend depth
      | closes =>
        cases depth with
        | zero => rfl
        | succ depth => exact hmap hprepend depth
      | separates =>
        cases depth with
        | zero => exact hmap hsplit 0
        | succ depth => exact hmap hprepend (depth + 1)

theorem Token.isComment_withIndex (indices : List Cell) (t : Token) :
    (t.withIndex indices).isComment = t.isComment := by
  unfold Token.withIndex
  cases hindex : t.name?.bind (loopIndex? indices) with
  | none => rfl
  | some index =>
    -- Only a word is replaced, and it is replaced by a number.
    obtain ⟨name, hname, -⟩ := Option.bind_eq_some_iff.mp hindex
    by_contra hcomment
    have hword : t.isComment = true := by simpa [Token.isComment] using Ne.symm hcomment
    rw [Token.name?_comment hword] at hname
    cases hname

theorem substituteFrom_withoutComments (indices : List Cell) (depth : Nat) (tokens : List Token) :
    substituteFrom indices depth (withoutComments tokens) =
      withoutComments (substituteFrom indices depth tokens) := by
  induction tokens generalizing depth with
  | nil => rfl
  | cons t tokens ih =>
    by_cases ht : t.isComment = true
    · have hindex : t.withIndex indices = t := by
        simp [Token.withIndex, Token.name?_comment ht]
      rw [withoutComments_cons_comment ht, ih]
      simp [substituteFrom, Vocabulary.role_comment _ ht, hindex, withoutComments_cons_comment ht]
    · have ht' : t.isComment = false := by simpa using ht
      have hindex : (t.withIndex indices).isComment = false := by
        rw [Token.isComment_withIndex, ht']
      rw [withoutComments_cons_other ht']
      simp only [substituteFrom]
      cases Vocabulary.counted.role t with
      | opens | closes => simp only [ih, withoutComments_cons_other ht']
      | separates | plain =>
        by_cases hdepth : depth = 0
        · simp [hdepth, ih, withoutComments_cons_other hindex]
        · simp [hdepth, ih, withoutComments_cons_other ht']

/-- Tokens of which the second can stand for the first without being taken for another word. -/
def Token.Fades (t u : Token) : Prop :=
  u.isComment = t.isComment ∧ ∀ name, u.name? = some name → t.name? = some name

theorem Token.fades_withIndex (indices : List Cell) (t : Token) :
    t.Fades (t.withIndex indices) := by
  refine ⟨t.isComment_withIndex indices, ?_⟩
  unfold Token.withIndex
  cases t.name?.bind (loopIndex? indices) with
  | none => exact fun _ h => h
  | some index => exact fun _ h => by cases h

theorem fades_substituteFrom (indices : List Cell) (depth : Nat) (tokens : List Token) :
    List.Forall₂ Token.Fades tokens (substituteFrom indices depth tokens) := by
  induction tokens generalizing depth with
  | nil => exact .nil
  | cons t tokens ih =>
    have hsame : t.Fades t := ⟨rfl, fun _ h => h⟩
    simp only [substituteFrom]
    cases Vocabulary.counted.role t with
    | opens | closes => exact .cons hsame (ih _)
    | separates | plain =>
      by_cases hdepth : depth = 0
      · simpa only [hdepth, if_true] using .cons (t.fades_withIndex indices) (ih _)
      · simpa only [hdepth, if_false] using .cons hsame (ih _)

namespace Orderly

variable {tokens tokens' : List Token}

theorem of_part (h : Orderly tokens) (hpart : tokens' <:+: tokens) : Orderly tokens' := by
  constructor
  · exact List.IsChain.infix h.apart hpart
  · exact fun t ht => h.unseen t (hpart.subset ht)

theorem withoutComments (h : Orderly tokens) : Orderly (withoutComments tokens) := by
  constructor
  · apply List.Pairwise.isChain
    apply List.pairwise_of_forall_mem_list
    intro t _ u hu _
    simpa using (List.mem_filter.mp hu).2
  · exact fun t ht => h.unseen t (List.mem_filter.mp ht).1

theorem of_fades (h : Orderly tokens) (hfades : List.Forall₂ Token.Fades tokens tokens') :
    Orderly tokens' := by
  induction hfades with
  | nil => exact h
  | @cons t u ts us htu hrest ih =>
    obtain ⟨hhead, htail⟩ := List.isChain_cons.mp h.apart
    have hrec := ih ⟨htail, fun v hv => h.unseen v (List.mem_cons_of_mem t hv)⟩
    constructor
    · refine List.isChain_cons.mpr ⟨?_, hrec.apart⟩
      rintro v hv ⟨name, hname, hu⟩
      cases hrest with
      | nil => cases hv
      | cons hvw _ =>
        cases hv
        rw [hvw.1]
        exact hhead _ rfl ⟨name, hname, htu.2 name hu⟩
    · refine List.forall_mem_cons.mpr ⟨fun hsee => ?_, hrec.unseen⟩
      exact h.unseen t List.mem_cons_self (htu.2 _ hsee)

end Orderly

namespace Word

@[simp] theorem name_withoutComments (w : Word) : w.withoutComments.name = w.name := by
  unfold withoutComments
  split <;> rfl

@[simp] theorem withoutComments_idem (w : Word) :
    w.withoutComments.withoutComments = w.withoutComments := by
  cases haction : w.action with
  | primitive p => simp [withoutComments, haction]
  | body tokens => simp [withoutComments, haction, TokenForth.withoutComments_idem]

theorem listingLine_withoutComments (width : Nat) (w : Word) :
    w.withoutComments.listingLine width = w.listingLine width := by
  unfold withoutComments
  split
  · rfl
  · next haction => simp [listingLine, isPrimitive, haction]

end Word

namespace Dictionary

theorem withoutComments_idem (d : Dictionary) :
    d.withoutComments.withoutComments = d.withoutComments := by
  simp [withoutComments]

theorem withoutComments_eq_self {d : Dictionary} (h : ∀ w ∈ d.words, w.withoutComments = w) :
    d.withoutComments = d := by
  rw [withoutComments, List.map_congr_left h, List.map_id']

theorem get?_withoutComments (d : Dictionary) (name : String) :
    d.withoutComments.get? name = (d.get? name).map Word.withoutComments := by
  have hname : (fun w : Word => decide (w.name = name)) ∘ Word.withoutComments =
      fun w => decide (w.name = name) := by
    funext w
    rw [Function.comp_apply, Word.name_withoutComments]
  rw [get?, get?, withoutComments, List.find?_map, hname]

theorem before_withoutComments (d : Dictionary) (name : String) :
    d.withoutComments.before name = (d.before name).map Word.withoutComments := by
  simp [before, withoutComments, List.dropWhile_map, Function.comp_def]

theorem newest_withoutComments (words : List Word) :
    newest (words.map Word.withoutComments) = (newest words).map Word.withoutComments := by
  induction words with
  | nil => rfl
  | cons w words ih => simp [newest, ih, List.filter_map, Function.comp_def]

/-- A listing shows no tokens. -/
theorem render_withoutComments (d : Dictionary) : d.withoutComments.render = d.render := by
  simp [render, visible, withoutComments, newest_withoutComments, nameWidth,
    Function.comp_def, Word.listingLine_withoutComments, ← List.map_reverse]

end Dictionary

def TokenStream.withoutComments (s : TokenStream) : TokenStream :=
  ⟨TokenForth.withoutComments s.rest⟩

/-- The machine without comments in its words and in the tokens to come, and without a location. -/
def Machine.bared (m : Machine) : Machine :=
  { m with
    dictionary := m.dictionary.withoutComments
    location := none
    streams := m.streams.map TokenStream.withoutComments }

def Fault.bared (f : Fault) : Fault := { f with location := none }

def Outcome.bared {α : Type} : Outcome α → Outcome α
  | done a m => done a m.bared
  | failed f m => failed f.bared m.bared
  | unfinished => unfinished

end TokenForth

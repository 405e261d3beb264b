import TokenForth.Catalog
import TokenForth.Proofs.Bookkeeping

/-!
# The names that a run can meet

A run of a token list looks up the names in it, the names in the bodies of all bindings of these
names, and so on. What a run can do is told by the primitives that are bound to such names, since
the only bindings it makes are constants.
-/
namespace TokenForth

/-- The primitives of the dictionary are constants and words of the catalog under their names. -/
def Dictionary.Standard (d : Dictionary) : Prop :=
  ∀ w ∈ d.words, ∀ p, w.action = .primitive p →
    w.IsConstant ∨ ∃ e ∈ Catalog.words, e.name = w.name ∧ e.action = .primitive p

/-- The names in a token list and, transitively, in the body of any binding of such a name. -/
inductive Dictionary.Reaches (d : Dictionary) (tokens : List Token) : String → Prop
  | here {t : Token} {name : String} : t ∈ tokens → t.name? = some name → Reaches d tokens name
  | through {w : Word} {body : List Token} {t : Token} {name : String} :
    Reaches d tokens w.name → w ∈ d.words → w.action = .body body → t ∈ body →
      t.name? = some name → Reaches d tokens name

def TokensWithin (names : String → Prop) (tokens : List Token) : Prop :=
  ∀ t ∈ tokens, ∀ name, t.name? = some name → names name

instance {names : String → Prop} [DecidablePred names] (tokens : List Token) :
    Decidable (TokensWithin names tokens) :=
  decidable_of_iff (∀ name ∈ tokens.filterMap Token.name?, names name)
    ⟨fun h _ ht name hname => h name (List.mem_filterMap.mpr ⟨_, ht, hname⟩),
      fun h _ hname => (List.mem_filterMap.mp hname).elim fun t ht => h t ht.1 _ ht.2⟩

/-- Indices that are put in are no names. -/
theorem TokensWithin.substitute {names : String → Prop} {body : List Token}
    (h : TokensWithin names body) (indices : List Cell) :
    TokensWithin names (substitute indices body) := by
  have hwith {t : Token} (ht : ∀ name, t.name? = some name → names name) (name : String)
      (hname : (t.withIndex indices).name? = some name) : names name := by
    unfold Token.withIndex at hname
    split at hname
    · cases hname
    · exact ht name hname
  have hfrom (depth : Nat) : TokensWithin names (substituteFrom indices depth body) := by
    induction body generalizing depth with
    | nil => exact fun t ht => by cases ht
    | cons t rest ih =>
      have hrest := ih fun u hu => h u (List.mem_cons_of_mem t hu)
      have ht := h t List.mem_cons_self
      unfold substituteFrom
      split <;> intro u hu <;> rcases List.mem_cons.mp hu with rfl | hu
      · exact ht
      · exact hrest _ u hu
      · exact ht
      · exact hrest _ u hu
      · split
        · exact hwith ht
        · exact ht
      · exact hrest _ u hu
  exact hfrom 0

/-- The bindings of some names lead to these names and to allowed primitives only. -/
def Dictionary.Within (d : Dictionary) (names : String → Prop) (allowed : Primitive → Prop) : Prop :=
  ∀ w ∈ d.words, names w.name →
    (∀ p, w.action = .primitive p → allowed p) ∧
      ∀ body, w.action = .body body → TokensWithin names body

namespace Dictionary

variable {d d' : Dictionary} {names : String → Prop} {allowed : Primitive → Prop}

/-- Bindings that are lost and constants that are gained do not matter. -/
theorem Within.of_words (h : d.Within names allowed) (hliteral : ∀ value, allowed (.literal value))
    (hwords : ∀ w ∈ d'.words, w ∈ d.words ∨ w.IsConstant) : d'.Within names allowed := by
  intro w hw hname
  rcases hwords w hw with hw | ⟨value, hvalue⟩
  · exact h w hw hname
  · rw [hvalue]
    constructor
    · rintro p hp
      cases hp
      exact hliteral value
    · rintro body hbody
      cases hbody

theorem Within.imp {allowed' : Primitive → Prop} (h : d.Within names allowed)
    (himp : ∀ p, allowed p → allowed' p) : d.Within names allowed' := fun w hw hname =>
  ⟨fun p hp => himp p ((h w hw hname).1 p hp), (h w hw hname).2⟩

theorem get?_eq_some {name : String} {w : Word} (h : d.get? name = some w) :
    w ∈ d.words ∧ w.name = name := by
  refine ⟨List.mem_of_find?_eq_some h, ?_⟩
  simpa using List.find?_some h

end Dictionary

theorem Machine.meaning_eq_word {m : Machine} {name : String} {w : Word}
    (h : m.meaning name = .word w) : m.dictionary.get? name = some w := by
  unfold Machine.meaning at h
  split at h
  · cases h
  · split at h
    · next hw =>
      cases h
      exact hw
    · split at h <;> cases h

namespace Catalog

/-- A constant, or a primitive that the catalog has under a name that is not forbidden. -/
def Allows (forbidden : List String) (p : Primitive) : Prop :=
  (∃ value, p = .literal value) ∨ ∃ e ∈ words, e.action = .primitive p ∧ e.name ∉ forbidden

/-- To know something of all allowed primitives it is enough to go through the catalog. -/
theorem Allows.of_all {forbidden : List String} {p : Primitive} (h : Allows forbidden p)
    (good : Primitive → Bool) (hliteral : ∀ value, good (.literal value))
    (hall : ∀ e ∈ words, e.name ∈ forbidden ∨
      (match e.action with
        | .primitive p => good p
        | .body _ => true) = true) : good p := by
  rcases h with ⟨value, rfl⟩ | ⟨e, he, haction, hname⟩
  · exact hliteral value
  · have hgood := (hall e he).resolve_left hname
    rwa [haction] at hgood

end Catalog

/-- A standard dictionary leads from the names it reaches to allowed primitives. -/
theorem Dictionary.Standard.within {d : Dictionary} {tokens : List Token} {forbidden : List String}
    (h : d.Standard) (hnames : ∀ name ∈ forbidden, ¬ d.Reaches tokens name) :
    d.Within (d.Reaches tokens) (Catalog.Allows forbidden) := by
  intro w hw hname
  constructor
  · intro p hp
    rcases h w hw p hp with ⟨value, hvalue⟩ | ⟨e, he, hename, haction⟩
    · rw [hp] at hvalue
      cases hvalue
      exact .inl ⟨value, rfl⟩
    · refine .inr ⟨e, he, haction, fun hforbidden => ?_⟩
      rw [hename] at hforbidden
      exact hnames w.name hforbidden hname
  · intro body hbody t ht name htname
    exact .through hname hw hbody ht htname

/-- The names that are reached are among any names that the tokens and the bodies keep to. -/
theorem Dictionary.Reaches.of_closed {d : Dictionary} {tokens : List Token} {name : String}
    (h : d.Reaches tokens name) (names : String → Prop) (htokens : TokensWithin names tokens)
    (hbodies : ∀ w ∈ d.words, names w.name → ∀ body, w.action = .body body →
      TokensWithin names body) : names name := by
  induction h with
  | here ht hname => exact htokens _ ht _ hname
  | through _ hw hbody ht hname ih => exact hbodies _ hw ih _ hbody _ ht _ hname

theorem bare_standard (config : Config) : (Machine.bare config).dictionary.Standard := by
  intro w hw p hp
  exact .inr ⟨w, List.mem_reverse.mp hw, rfl, hp⟩

theorem bare_ne_body {config : Config} {w : Word} (h : w ∈ (Machine.bare config).dictionary.words)
    (body : List Token) : w.action ≠ .body body := by
  have hprimitive : ∀ w ∈ Catalog.words, w.isPrimitive := by decide +kernel
  have hw := hprimitive w (List.mem_reverse.mp h)
  intro hbody
  simp [Word.isPrimitive, hbody] at hw

/-- Without defined words the names that are reached are those in the tokens. -/
theorem bare_reaches {config : Config} {tokens : List Token} {name : String}
    (h : (Machine.bare config).dictionary.Reaches tokens name) :
    name ∈ tokens.filterMap Token.name? := by
  apply h.of_closed (· ∈ tokens.filterMap Token.name?)
  · exact fun t ht name hname => List.mem_filterMap.mpr ⟨t, ht, hname⟩
  · exact fun w hw _ body hbody => absurd hbody (bare_ne_body hw body)

theorem Dictionary.tokensWithin_reaches (d : Dictionary) (tokens : List Token) :
    TokensWithin (d.Reaches tokens) tokens := fun _ ht _ hname => .here ht hname

end TokenForth

import Mathlib.Data.List.Basic
import TokenForth.Proofs.Steps
import TokenForth.Proofs.Simulation
import TokenForth.Proofs.Stripping

/-!
# Comments have no influence

A comment in a token list costs a step and moves the location, and nothing else, as long as no word
takes it for the name or the message that should come next. So a token list and the defined words of
the dictionary can be run without their comments, with the same outcome. The run without comments
takes fewer steps, so the two do not keep step; the shorter one waits while the other takes a comment.
-/
namespace TokenForth

open Exec Machine

namespace Comments

variable {α β : Type}

/-- The action does the same on a machine without comments. -/
def Blind (act : Exec α) : Prop := ∀ m, act m.bared = (act m).bared

theorem Blind.bind {act : Exec α} {next : α → Exec β} (h : Blind act)
    (hnext : ∀ a, Blind (next a)) : Blind (act >>= next) := by
  intro m
  simp only [Bind.bind, h m]
  cases act m with
  | done a m' => exact hnext a m'
  | failed f m' => rfl
  | unfinished => rfl

theorem blind_plain {E : Effect → Prop} {act : Exec α} (h : Plain E act) : Blind act := by
  induction h with
  | bind _ _ ih ihnext => exact ih.bind ihnext
  | pop =>
    intro m
    simp only [Machine.pop, bared]
    cases m.data.pop? <;> rfl
  | popMany n =>
    intro m
    simp only [Machine.popMany, bared]
    cases m.data.popMany? n <;> rfl
  | top =>
    intro m
    simp only [Machine.top, bared]
    cases m.data.top? <;> rfl
  | popReturn =>
    intro m
    simp only [Machine.popReturn, bared]
    cases m.returns.pop? <;> rfl
  | topReturn =>
    intro m
    simp only [Machine.topReturn, bared]
    cases m.returns.top? <;> rfl
  | setRadix r =>
    intro m
    unfold Machine.setRadix
    cases Numeral.isRadix r <;> rfl
  | fetch address =>
    intro m
    simp only [Machine.fetch, bared]
    cases m.memory.fetch? address <;> rfl
  | words =>
    intro m
    simp only [Exec.read, bared, Dictionary.render_withoutComments]
    rfl
  | _ => exact fun _ => rfl

theorem blind_forgetWord (name : String) : Blind (forgetWord name) := by
  intro m
  simp only [forgetWord, Dictionary.forget?, bared,
    Dictionary.get?_withoutComments, Dictionary.before_withoutComments]
  cases m.dictionary.get? name <;> rfl

structure Tidy (limit : Nat) (tokens : List Token) : Prop where
  orderly : Orderly tokens
  short : tokens.length ≤ limit

theorem Tidy.of_part {limit : Nat} {tokens tokens' : List Token} (h : Tidy limit tokens)
    (hpart : tokens' <:+: tokens) : Tidy limit tokens' :=
  ⟨h.orderly.of_part hpart, hpart.length_le.trans h.short⟩

structure Twin (limit : Nat) (ts us : List Token) : Prop where
  same : withoutComments ts = withoutComments us
  left : Tidy limit ts
  right : Tidy limit us

structure Neat (limit : Nat) (d : Dictionary) : Prop where
  titled : d.Titled
  bodies : ∀ w ∈ d.words, ∀ body, w.action = .body body → Tidy limit body

variable {limit : Nat}

/-- Bindings that are lost and constants that are gained do not matter. -/
theorem Neat.of_words {d d' : Dictionary} (h : Neat limit d)
    (hwords : ∀ w ∈ d'.words, w ∈ d.words ∨ w.IsConstant) : Neat limit d' := by
  constructor
  · intro w hw
    rcases hwords w hw with hw | ⟨value, hvalue⟩
    · exact h.titled w hw
    · simp [Word.title?, hvalue, Primitive.title?]
  · intro w hw body hbody
    rcases hwords w hw with hw | ⟨value, hvalue⟩
    · exact h.bodies w hw body hbody
    · rw [hvalue] at hbody
      cases hbody

theorem Twin.symm {ts us : List Token} (h : Twin limit ts us) : Twin limit us ts :=
  ⟨h.same.symm, h.right, h.left⟩

theorem forall₂_of_map_eq {xs ys : List α} {f : α → β} (h : xs.map f = ys.map f) :
    List.Forall₂ (fun x y => x ∈ xs ∧ y ∈ ys ∧ f x = f y) xs ys := by
  rw [← List.forall₂_eq_eq_eq, List.forall₂_map_left_iff, List.forall₂_map_right_iff,
    List.forall₂_iff_zip] at h
  rw [List.forall₂_iff_zip]
  refine ⟨h.1, fun hmem => ?_⟩
  obtain ⟨hx, hy⟩ := List.of_mem_zip hmem
  exact ⟨hx, hy, h.2 hmem⟩

/-- What is found in two token lists without their comments is found in both. -/
theorem Twin.scan {ts us : List Token} (h : Twin limit ts us) (v : Vocabulary) :
    Option.Rel (fun p q => p.1.Related Eq (Twin limit) q.1 ∧ Twin limit p.2 q.2)
      (v.scan ts) (v.scan us) := by
  have hscan := congrArg (v.scanFrom 0) h.same
  rw [v.scanFrom_withoutComments, v.scanFrom_withoutComments] at hscan
  cases hts : v.scanFrom 0 ts with
  | none =>
    cases hus : v.scanFrom 0 us with
    | none =>
      rw [Vocabulary.scan, Vocabulary.scan, hts, hus]
      exact .none
    | some found => simp [hts, hus] at hscan
  | some found =>
    cases hus : v.scanFrom 0 us with
    | none => simp [hts, hus] at hscan
    | some found' =>
      obtain ⟨b, rest⟩ := found
      obtain ⟨b', rest'⟩ := found'
      have hleft := (v.scanFrom_eq_some hts).1
      have hright := (v.scanFrom_eq_some hus).1
      simp only [hts, hus, Option.map_some, Option.some.injEq, Prod.mk.injEq,
        Block.withoutComments, Block.mk.injEq] at hscan
      obtain ⟨⟨hfirst, hparts, hcloser⟩, hrest⟩ := hscan
      have hsegment {x y : List Token} (hx : x ∈ b.segments) (hy : y ∈ b'.segments)
          (hxy : withoutComments x = withoutComments y) : Twin limit x y := by
        refine ⟨hxy, h.left.of_part ?_, h.right.of_part ?_⟩
        · rw [hleft]
          exact (Block.segment_part hx).trans (List.prefix_append _ _).isInfix
        · rw [hright]
          exact (Block.segment_part hy).trans (List.prefix_append _ _).isInfix
      rw [Vocabulary.scan, Vocabulary.scan, hts, hus]
      refine .some ⟨⟨?_, ?_, hcloser⟩, hrest, ?_, ?_⟩
      · exact hsegment List.mem_cons_self List.mem_cons_self hfirst
      · apply (forall₂_of_map_eq hparts).imp
        rintro part part' ⟨hpart, hpart', hsame⟩
        obtain ⟨hseparator, htokens⟩ := Prod.mk.inj hsame
        refine ⟨hseparator, hsegment ?_ ?_ htokens⟩
        · exact List.mem_cons_of_mem _ (List.mem_map_of_mem hpart)
        · exact List.mem_cons_of_mem _ (List.mem_map_of_mem hpart')
      · rw [hleft] at h
        exact h.left.of_part (List.suffix_append _ _).isInfix
      · rw [hright] at h
        exact h.right.of_part (List.suffix_append _ _).isInfix

theorem Twin.substitute {ts us : List Token} (h : Twin limit ts us) (indices : List Cell) :
    Twin limit (substitute indices ts) (substitute indices us) := by
  have htidy {ts : List Token} (h : Tidy limit ts) : Tidy limit (TokenForth.substitute indices ts) := by
    have hfades := fades_substituteFrom indices 0 ts
    refine ⟨h.orderly.of_fades hfades, ?_⟩
    rw [TokenForth.substitute, ← hfades.length_eq]
    exact h.short
  refine ⟨?_, htidy h.left, htidy h.right⟩
  rw [TokenForth.substitute, TokenForth.substitute, ← substituteFrom_withoutComments, h.same,
    substituteFrom_withoutComments]

/-- Machines that differ in comments and in their locations at most. -/
structure Rel (limit : Nat) (m m' : Machine) : Prop where
  same : m.bared = m'.bared
  left : Neat limit m.dictionary
  right : Neat limit m'.dictionary

theorem Rel.symm {m m' : Machine} (h : Rel limit m m') : Rel limit m' m :=
  ⟨h.same.symm, h.right, h.left⟩

/-- What is read off a machine without regard to comments. -/
theorem Rel.read {m m' : Machine} (h : Rel limit m m') (f : Machine → α)
    (hf : ∀ m, f m.bared = f m) : f m = f m' := by
  rw [← hf m, h.same, hf m']

/-- A change that has nothing to do with words. -/
theorem Rel.update {m m' : Machine} (h : Rel limit m m') (change : Machine → Machine)
    (hbared : ∀ m, (change m).bared = change m.bared)
    (hwords : ∀ m, (change m).dictionary = m.dictionary) :
    Rel limit (change m) (change m') := by
  refine ⟨?_, ?_, ?_⟩
  · rw [hbared, hbared, h.same]
  · rw [hwords]
    exact h.left
  · rw [hwords]
    exact h.right

def coupling (limit : Nat) : Coupling where
  rel := Rel limit
  token := Eq
  tokens := Twin limit
  fault f g := f.bared = g.bared
  lost _ := False
  nested ss ss' := ss.map TokenStream.withoutComments = ss'.map TokenStream.withoutComments
  lexeme := congrArg Token.lexeme
  raised h c := congrArg (fun m => Machine.fault m c) h.same
  streams h := congrArg Machine.streams h.same
  streamed hrest hss := by
    simp only [List.map_cons, hss, TokenStream.withoutComments, hrest.same]
  restreamed := by
    intro m m' ss ss' h hss
    refine ⟨?_, h.left, h.right⟩
    have hsame := congrArg
      (fun m => ({ m with streams := ss'.map TokenStream.withoutComments } : Machine)) h.same
    simpa only [bared, hss] using hsame
  exhausted := ⟨rfl, ⟨⟨.nil, by simp⟩, Nat.zero_le _⟩, ⟨⟨.nil, by simp⟩, Nat.zero_le _⟩⟩
  scanned v _ _ h := h.scan v

/-- An action that does not see comments and keeps the bookkeeping keeps step with itself. -/
theorem inStep_of_blind {act : Exec α} (h : Blind act) (hlater : Always Later act) :
    (coupling limit).InStep Eq act act := by
  rintro outer outer' m m' ⟨hm, houter, rest, rest', hs, hs', hrest⟩
  have hat {m₁ m₁' : Machine} (hsame : m₁.bared = m₁'.bared) (hm₁ : Later m m₁)
      (hm₁' : Later m' m₁') : (coupling limit).At outer outer' m₁ m₁' := by
    have hstreams := hm₁.streams
    have hstreams' := hm₁'.streams
    rw [hs] at hstreams
    rw [hs'] at hstreams'
    obtain ⟨rest₁, hs₁, hsuffix⟩ := hstreams.exists_cons
    obtain ⟨rest₁', hs₁', hsuffix'⟩ := hstreams'.exists_cons
    have htokens : withoutComments rest₁ = withoutComments rest₁' := by
      have hnested := congrArg Machine.streams hsame
      simp only [bared, hs₁, hs₁', List.map_cons, List.cons.injEq] at hnested
      exact congrArg TokenStream.rest hnested.1
    refine ⟨⟨hsame, hm.left.of_words hm₁.words, hm.right.of_words hm₁'.words⟩, houter, rest₁, rest₁',
      hs₁, hs₁', htokens, ?_, ?_⟩
    · exact hrest.left.of_part hsuffix.isInfix
    · exact hrest.right.of_part hsuffix'.isInfix
  have houtcome : (act m).bared = (act m').bared := by rw [← h m, hm.same, h m']
  have hlater₁ := hlater m
  have hlater₁' := hlater m'
  generalize act m = o, act m' = o' at houtcome hlater₁ hlater₁' ⊢
  cases o <;> cases o' <;>
    simp only [Outcome.bared, Outcome.done.injEq, Outcome.failed.injEq, reduceCtorEq] at houtcome
  · exact .done ⟨houtcome.1, hat houtcome.2 hlater₁ hlater₁'⟩
  · exact .failed ⟨houtcome.1, hat houtcome.2 hlater₁ hlater₁'⟩
  · exact .unfinished

theorem inStep_pop : (coupling limit).InStep Eq pop pop :=
  inStep_of_blind (blind_plain (E := fun _ => True) .pop) pop_keeps

theorem follows_addConstant {w : Word} (hw : w.IsConstant) :
    (coupling limit).Follows (addWord w) (addWord w) := by
  refine (inStep_of_blind ?_ (addWord_keeps hw)).imp fun _ _ _ => trivial
  obtain ⟨value, hvalue⟩ := hw
  intro m
  simp [addWord, Exec.update, Outcome.bared, bared, Dictionary.add, Dictionary.withoutComments,
    Word.withoutComments, hvalue]

/-- The words that take the next token keep step where they take the same one. -/
theorem frontStep_asking {p : Primitive} {title : String} (hp : p.title? = some title)
    (hsee : title ≠ "SEE") (r r' : Runner) (n n' : Nat) :
    (coupling limit).FrontStep (fun _ _ => True) (p.run r n) (p.run r' n') := by
  have hflow (word : Flow) : p ≠ .flow word := by
    rintro rfl
    cases hp
  rw [p.run_eq hflow r' r n' n]
  cases p with
  | storage word =>
    cases word with
    | declare =>
      apply Coupling.frontStep_declare
      intro m m' name hm
      exact ⟨congrArg (fun m => ({ m with memory := (m.memory.allocate name).2 } : Machine)) hm.same,
        hm.left, hm.right⟩
    | constant =>
      apply Coupling.frontStep_constant inStep_pop
      rintro t _ name rfl - value
      exact follows_addConstant ⟨value, rfl⟩
    | store | fetch => cases hp
  | listing word =>
    cases word with
    | forget =>
      apply Coupling.frontStep_forget
      intro name
      exact (inStep_of_blind (blind_forgetWord name) (forgetWord_keeps name)).imp fun _ _ _ => trivial
    | see =>
      cases hp
      exact absurd rfl hsee
    | words => cases hp
  | control word =>
    cases word with
    | abort => exact Coupling.frontStep_abort inStep_pop
    | _ => cases hp
  | _ => cases hp

theorem follows_plain {p : Primitive} (hp : p.title? = none ∧ p ≠ .report)
    (hflow : ∀ word, p ≠ .flow word) (r r' : Runner) (n n' : Nat) :
    (coupling limit).Follows (p.run r n) (p.run r' n') := by
  have hread : p.readsTokens = false := by
    unfold Primitive.readsTokens
    split
    · cases hp.1
    · cases hp.1
    · cases hp.1
    · cases hp.1
    · cases hp.1
    · exact absurd rfl (hflow _)
    · exact absurd rfl (hflow _)
    · exact absurd rfl (hflow _)
    · exact absurd rfl hp.2
    · rfl
  rw [p.run_eq hflow r' r n' n]
  have hplain := p.plain hread r n
  exact (inStep_of_blind (blind_plain hplain) (plain_keeps hplain)).imp fun _ _ _ => trivial

def accord (limit : Nat) : Accord where
  toCoupling := coupling limit
  primitive p := p.title? = none ∧ p ≠ .report
  substituted h indices := h.substitute indices
  leave := by
    intro f g h
    have hleave : f.bared.isLeave = g.bared.isLeave := congrArg Fault.isLeave h
    exact hleave
  lost_leave _ h := h.elim
  frames h := h.read Machine.frames fun _ => rfl
  returns h := h.read (·.returns.depth) fun _ => rfl
  shallow h hlimit := by
    rwa [← h.read Machine.depth fun _ => rfl, ← h.read Machine.config fun _ => rfl]
  tooDeep h hlimit _ := by
    rw [← h.read Machine.depth fun _ => rfl, ← h.read Machine.config fun _ => rfl]
    exact .inr ⟨hlimit, rfl⟩
  located h _ := ⟨h.same, h.left, h.right⟩
  looped := by
    intro m m' frames h _
    exact h.update (fun m => { m with frames := frames }) (fun _ => rfl) fun _ => rfl
  called := by
    rintro m m' t _ h rfl name
    have hcalls := h.update (fun m => { m with calls := ⟨name, t.location⟩ :: m.calls })
      (fun _ => rfl) fun _ => rfl
    exact ⟨hcalls.same, hcalls.left, hcalls.right⟩
  uncalled h := h.update callExited (fun _ => rfl) fun _ => rfl
  entered h _ := h.update wordEntered (fun _ => rfl) fun _ => rfl
  exited h _ := h.update wordExited (fun _ => rfl) fun _ => rfl
  pushed h c := h.update (Machine.pushed c) (fun _ => rfl) fun _ => rfl
  written h text := h.update (fun m => { m with output := m.output ++ text }) (fun _ => rfl)
    fun _ => rfl
  cleared h _ := .inr (h.update Machine.cleared (fun _ => rfl) fun _ => rfl)
  returnsCleared h := h.update (fun m => { m with returns := m.returns.clear }) (fun _ => rfl)
    fun _ => rfl
  popped := inStep_pop
  run := follows_plain

/-- What a name means does not depend on comments. -/
theorem Rel.meaning {m m' : Machine} (h : Rel limit m m') (name : String) :
    Meaning.Related (Twin limit) (fun p => p ≠ .report ∧ ∀ title ∈ p.title?, name = title)
      (m.meaning name) (m'.meaning name) := by
  have hget := h.read (fun m => m.dictionary.withoutComments.get? name) fun m => by
    rw [bared, Dictionary.withoutComments_idem]
  simp only [Dictionary.get?_withoutComments] at hget
  unfold Machine.meaning
  rw [← h.read Machine.memory fun _ => rfl, ← h.read Machine.radix fun _ => rfl]
  cases m.memory.address? name with
  | some address => exact .address address
  | none =>
    cases hw : m.dictionary.get? name with
    | none =>
      cases hw' : m'.dictionary.get? name with
      | none =>
        cases Numeral.read? m.radix name with
        | some value => exact .number value
        | none => exact .unknown
      | some w' => simp [hw, hw'] at hget
    | some w =>
      cases hw' : m'.dictionary.get? name with
      | none => simp [hw, hw'] at hget
      | some w' =>
        simp only [hw, hw', Option.map_some, Option.some.injEq] at hget
        obtain ⟨hmem, hname⟩ := Dictionary.get?_eq_some hw
        obtain ⟨hmem', hname'⟩ := Dictionary.get?_eq_some hw'
        have htitled := h.left.titled w hmem
        cases haction : w.action with
        | primitive p =>
          cases haction' : w'.action with
          | primitive p' =>
            have hp : w.action = w'.action := by
              simpa [Word.withoutComments, haction, haction'] using congrArg Word.action hget
            rw [haction, haction'] at hp
            cases hp
            simp only [Word.title?, haction, hname] at htitled
            exact .primitive (hname.trans hname'.symm) haction haction'
              ⟨fun hreport => htitled.1 (by rw [hreport]), htitled.2⟩
          | body us =>
            have hbody := congrArg Word.action hget
            simp [Word.withoutComments, haction, haction'] at hbody
        | body ts =>
          have hbody := congrArg Word.action hget
          cases haction' : w'.action with
          | primitive p => simp [Word.withoutComments, haction, haction'] at hbody
          | body us =>
            simp only [Word.withoutComments, haction, haction', Action.body.injEq] at hbody
            exact .body (hname.trans hname'.symm) haction haction'
              ⟨hbody, h.left.bodies w hmem ts haction, h.right.bodies w' hmem' us haction'⟩

/-- Where no comment is next, the same token is. -/
theorem Twin.front {ts us : List Token} (h : Twin limit ts us)
    (hts : ∀ t ∈ ts.head?, t.isComment = false) (hus : ∀ u ∈ us.head?, u.isComment = false) :
    (coupling limit).Front ts us := by
  have hsame := h.same
  cases ts with
  | nil =>
    cases us with
    | nil => exact .nil
    | cons u us =>
      rw [withoutComments_cons_other (hus u rfl)] at hsame
      cases hsame
  | cons t ts =>
    rw [withoutComments_cons_other (hts t rfl)] at hsame
    cases us with
    | nil => cases hsame
    | cons u us =>
      rw [withoutComments_cons_other (hus u rfl)] at hsame
      obtain ⟨htu, hrest⟩ := List.cons.inj hsame
      exact .cons htu ⟨hrest, h.left.of_part (List.suffix_cons t ts).isInfix,
        h.right.of_part (List.suffix_cons u us).isInfix⟩

theorem runToken_comment {t : Token} (h : t.isComment = true) (invoke : Invocation → Exec Unit)
    (k : Nat) (rest : Exec Unit) : runToken invoke k rest t = rest := by
  unfold Token.isComment at h
  unfold runToken
  split at h
  · next hlexeme => rw [hlexeme]
  · cases h

/-- The comments at the head of a stream take a step each, and nothing is left of them but the
location. -/
theorem runStream_comments (r : Runner) {rest : List Token} {outer : List TokenStream} {m : Machine}
    (hs : m.streams = ⟨rest⟩ :: outer) :
    ∃ location, ∀ k, runStream r (k + (rest.takeWhile Token.isComment).length) m =
      runStream r k { m.withRest (rest.dropWhile Token.isComment) with location := location } := by
  induction rest generalizing m with
  | nil =>
    refine ⟨m.location, fun k => ?_⟩
    simp [withRest_eq_self hs]
  | cons t rest ih =>
    by_cases ht : t.isComment = true
    · have hskip (k : Nat) : runStream r (k + 1) m =
          runStream r k { m.withRest rest with location := some t.location } := by
        rw [runStream, runStreamVia_cons hs, runToken_comment ht]
        rfl
      let m₁ : Machine := { m.withRest rest with location := some t.location }
      obtain ⟨location, hrest⟩ := ih (m := m₁) (streams_withRest hs rest)
      refine ⟨location, fun k => ?_⟩
      simp only [List.takeWhile_cons, ht, List.dropWhile_cons, if_true, List.length_cons]
      rw [← Nat.add_assoc, hskip, hrest k]
      rfl
    · refine ⟨m.location, fun k => ?_⟩
      simp [ht, withRest_eq_self hs]

theorem at_relocated {outer outer' : List TokenStream} {m m' : Machine}
    (hm : (coupling limit).At outer outer' m m') (location location' : Option Location) :
    (coupling limit).At outer outer' { m with location := location }
      { m' with location := location' } :=
  ⟨⟨hm.1.same, hm.1.left, hm.1.right⟩, hm.2⟩

theorem title_mem_asking {p : Primitive} {title : String} (h : p.title? = some title)
    (hsee : title ≠ "SEE") : title ∈ asking := by
  unfold Primitive.title? at h
  split at h
  · cases h
    decide
  · cases h
    decide
  · cases h
    decide
  · cases h
    exact absurd rfl hsee
  · cases h
    decide
  · cases h

section Runner

variable {r r' : Runner}
  (hr : ∀ {ts us}, Twin limit ts us → (coupling limit).Follows (r ts) (r' us))
  (hrestored : ∀ tokens, Always Restored (r tokens))

include hr hrestored

/-- The same token on both sides. The words that ask for the next token find none that is a comment,
so they find the same one. -/
theorem matches_runToken {n k : Nat} (hn : n ≤ k) {rest rest' : Exec Unit}
    (hrest : (coupling limit).Follows rest rest') {t : Token}
    {ts us : List Token} (hts : Tidy limit (t :: ts)) (hus : Tidy limit (t :: us))
    (htwin : Twin limit ts us)
    {outer outer' : List TokenStream} {m m' : Machine}
    (hm : (coupling limit).At outer outer' m m') (hs : m.streams = ⟨ts⟩ :: outer)
    (hs' : m'.streams = ⟨us⟩ :: outer') :
    Outcome.Matches (fun _ => False)
      (fun _ m₁ _ m₁' => True ∧ (coupling limit).At outer outer' m₁ m₁')
      (fun f m₁ g m₁' => f.bared = g.bared ∧ (coupling limit).At outer outer' m₁ m₁')
      (runToken (Invocation.run r) n rest t m) (runToken (Invocation.run r') k rest' t m') := by
  have hvalue (value : Cell) : (coupling limit).Follows (push value >>= fun _ => rest)
      (push value >>= fun _ => rest') :=
    .bind (Accord.follows_push (S := accord limit) value) fun _ _ _ => hrest
  have hwrite := Accord.follows_write (S := accord limit)
  unfold runToken
  generalize hname : t.lexeme = lexeme
  cases lexeme with
  | quote text => exact Coupling.InStep.bind (hwrite text) (fun _ _ _ => hrest) outer outer' m m' hm
  | comment text => exact hrest outer outer' m m' hm
  | number value => exact hvalue value outer outer' m m' hm
  | word name =>
    have hmeaning := hm.1.meaning name
    change Outcome.Matches _ _ _
      (runMeaning (Invocation.run r) n t.location name rest (m.meaning name) m)
      (runMeaning (Invocation.run r') k t.location name rest' (m'.meaning name) m')
    generalize m.meaning name = a, m'.meaning name = a' at hmeaning ⊢
    cases hmeaning with
    | address value => exact hvalue value outer outer' m m' hm
    | number value => exact hvalue value outer outer' m m' hm
    | unknown => exact hwrite _ outer outer' m m' hm
    | body hword hw hw' h =>
      have hcall := Accord.follows_runWord (S := accord limit) hr hrestored hn (t := t) rfl
        (.body hword hw hw' h)
      exact Coupling.InStep.bind hcall (fun _ _ _ => hrest) outer outer' m m' hm
    | @primitive w w' p hword hw hw' hp =>
      cases htitle : p.title? with
      | none =>
        have hcall := Accord.follows_runWord (S := accord limit) hr hrestored hn (t := t) rfl
          (.primitive hword hw hw' ⟨htitle, hp.1⟩)
        exact Coupling.InStep.bind hcall (fun _ _ _ => hrest) outer outer' m m' hm
      | some title =>
        have htoken : t.name? = some title := by
          rw [← hp.2 title htitle]
          simp [Token.name?, hname]
        have hsee : title ≠ "SEE" := by
          rintro rfl
          exact hts.orderly.unseen t List.mem_cons_self htoken
        have hasking : ∃ name ∈ asking, t.name? = some name :=
          ⟨title, title_mem_asking htitle hsee, htoken⟩
        have hfront : (coupling limit).Front ts us := by
          apply htwin.front
          · exact fun u hu => (List.isChain_cons.mp hts.orderly.apart).1 u hu hasking
          · exact fun u hu => (List.isChain_cons.mp hus.orderly.apart).1 u hu hasking
        have haction : (coupling limit).FrontStep (fun _ _ => True) (runAction r n w)
            (runAction r' k w') := by
          unfold runAction
          rw [hw, hw']
          exact frontStep_asking htitle hsee r r' n k
        have hcall := Accord.frontStep_runWord (S := accord limit) (t := t) rfl hword haction
        exact hcall.bind (fun _ _ _ => hrest) outer outer' m m' ⟨hm, ts, us, hs, hs', hfront⟩
  | colon | semicolon => exact Coupling.inStep_raise _ outer outer' m m' hm

theorem frontStep_runStream {n k : Nat} (hn : n ≤ k)
    (hrest : (coupling limit).Follows (runStream r n) (runStream r' k)) :
    (coupling limit).FrontStep (fun _ _ => True) (runStream r (n + 1)) (runStream r' (k + 1)) := by
  rintro outer outer' m m' ⟨hm, rest, rest', hs, hs', hfront⟩
  obtain ⟨-, -, _, _, hs₁, hs₁', htwin⟩ := id hm
  cases hs.symm.trans hs₁
  cases hs'.symm.trans hs₁'
  cases hfront with
  | nil =>
    rw [runStream, runStreamVia_done hs, runStream, runStreamVia_done hs']
    exact .done ⟨trivial, hm⟩
  | @cons t _ ts us ht hts =>
    cases ht
    rw [runStream, runStreamVia_cons hs, runStream, runStreamVia_cons hs']
    have hm₁ := at_relocated (hm.withRest hts) (some t.location) (some t.location)
    exact matches_runToken hr hrestored hn hrest htwin.left htwin.right hts hm₁
      (streams_withRest hs ts) (streams_withRest hs' us)

/-- A stream keeps step with the same stream without comments, if it gets enough steps for those
that come between. -/
theorem follows_runStream {n k : Nat} (hk : n * (limit + 1) ≤ k) :
    (coupling limit).Follows (runStream r n) (runStream r' k) := by
  induction n generalizing k with
  | zero => exact Coupling.inStep_unfinished
  | succ n ih =>
    intro outer outer' m m' hm
    obtain ⟨hrel, houter, rest, rest', hs, hs', htwin⟩ := id hm
    rw [Nat.succ_mul] at hk
    have hn : n ≤ n * (limit + 1) := Nat.le_mul_of_pos_right n limit.succ_pos
    by_cases hhead : ∀ t ∈ rest.head?, t.isComment = false
    · -- The second machine takes its comments, and then both take the same token.
      obtain ⟨location, hskip⟩ := runStream_comments r' hs'
      have hcomments : (rest'.takeWhile Token.isComment).length ≤ limit :=
        (List.takeWhile_prefix _).length_le.trans htwin.right.short
      obtain ⟨k, rfl⟩ : ∃ i, k = i + 1 + (rest'.takeWhile Token.isComment).length :=
        ⟨k - 1 - (rest'.takeWhile Token.isComment).length, by omega⟩
      have hdrop : Twin limit rest (rest'.dropWhile Token.isComment) := by
        refine ⟨?_, htwin.left, htwin.right.of_part (List.dropWhile_suffix _).isInfix⟩
        rw [withoutComments_dropWhile, htwin.same]
      have hhead' : ∀ u ∈ (rest'.dropWhile Token.isComment).head?, u.isComment = false := by
        intro u hu
        have hnot := List.head?_dropWhile_not Token.isComment rest'
        rwa [Option.mem_def.mp hu] at hnot
      have hm₁ := at_relocated (hm.withRest hdrop) m.location location
      rw [withRest_eq_self hs] at hm₁
      rw [hskip]
      exact frontStep_runStream hr hrestored (by omega) (ih (by omega)) outer outer' _ _
        ⟨hm₁, rest, _, hs, streams_withRest hs' _, hdrop.front hhead hhead'⟩
    · -- The second machine waits for the first to take a comment.
      obtain ⟨t, ts, rfl, ht⟩ : ∃ t ts, rest = t :: ts ∧ t.isComment = true := by
        cases rest with
        | nil => simp at hhead
        | cons t ts => exact ⟨t, ts, rfl, by simpa using hhead⟩
      have hts : Twin limit ts rest' := by
        refine ⟨?_, htwin.left.of_part (List.suffix_cons t ts).isInfix, htwin.right⟩
        rw [← htwin.same, withoutComments_cons_comment ht]
      have hm₁ := at_relocated (hm.withRest hts) (some t.location) m'.location
      rw [withRest_eq_self hs'] at hm₁
      rw [runStream, runStreamVia_cons hs, runToken_comment ht]
      exact ih (by omega) outer outer' _ _ hm₁

end Runner

theorem runs_runTokens {n k : Nat} (hk : n * (limit + 1) ≤ k) {ts us : List Token}
    (h : Twin limit ts us) : (accord limit).Runs (runTokens n ts) (runTokens k us) := by
  induction n generalizing k ts us with
  | zero => exact relates_unfinished
  | succ n ih =>
    rw [Nat.succ_mul] at hk
    obtain ⟨k, rfl⟩ : ∃ i, k = i + 1 := ⟨k - 1, by omega⟩
    have hk : n * (limit + 1) ≤ k := by omega
    have hnested {ts us : List Token} (h : Twin limit ts us) :
        (coupling limit).Follows (runTokens n ts) (runTokens k us) :=
      (ih hk h).follows (runTokens_restored n ts) (runTokens_restored k us)
    exact Accord.runs_streams (S := accord limit) h fun hm =>
      follows_runStream hnested (runTokens_restored n) hk _ _ _ _ hm

theorem Tidy.withoutComments {tokens : List Token} (h : Tidy limit tokens) :
    Tidy limit (withoutComments tokens) :=
  ⟨h.orderly.withoutComments, (List.length_filter_le _ _).trans h.short⟩

theorem Neat.withoutComments {d : Dictionary} (h : Neat limit d) : Neat limit d.withoutComments := by
  constructor <;> intro w' hw' <;> obtain ⟨w, hw, rfl⟩ := List.mem_map.mp hw'
  · have htitled := h.titled w hw
    cases haction : w.action with
    | primitive p => simpa [Word.withoutComments, haction] using htitled
    | body tokens => simp [Word.withoutComments, Word.title?, haction]
  · intro body hbody
    cases haction : w.action with
    | primitive p => simp [Word.withoutComments, haction] at hbody
    | body tokens =>
      simp only [Word.withoutComments, haction, Action.body.injEq] at hbody
      subst hbody
      exact (h.bodies w hw tokens haction).withoutComments

/-- The length of all token lists together is a limit for each of them. -/
theorem exists_limit {d : Dictionary} (htitled : d.Titled) (horderly : d.Orderly)
    {tokens : List Token} (htokens : Orderly tokens) :
    ∃ limit, Neat limit d ∧ Tidy limit tokens := by
  use (tokens ++ (d.words.map Word.tokens).flatten).length
  constructor
  · refine ⟨htitled, fun w hw body hbody => ⟨horderly w hw body hbody, ?_⟩⟩
    have hpart : body <:+: (d.words.map Word.tokens).flatten := by
      apply List.infix_of_mem_flatten
      exact List.mem_map.mpr ⟨w, hw, by simp [Word.tokens, hbody]⟩
    exact (hpart.trans (List.suffix_append _ _).isInfix).length_le
  · exact ⟨htokens, (List.prefix_append _ _).length_le⟩

/-- A machine that differs in comments at most and has none is the other without comments. -/
theorem Rel.eq_withoutComments {m m' : Machine} (h : Rel limit m m')
    (hwords : m'.dictionary.withoutComments = m'.dictionary) (hstreams : m'.streams = m.streams) :
    ∃ location, m' = { m.withoutComments with location := location } := by
  use m'.location
  calc
    m' = { m'.bared with location := m'.location, streams := m'.streams } := by
      simp only [bared, hwords]
    _ = { m.bared with location := m'.location, streams := m.streams } := by rw [h.same, hstreams]

theorem exists_eq_of_bared {f g : Fault} (h : f.bared = g.bared) :
    ∃ location, g = { f with location := location } := by
  use g.location
  calc
    g = { g.bared with location := g.location } := rfl
    _ = { f.bared with location := g.location } := by rw [h]

end Comments

/-- The same outcome without comments in the words of the machine, up to the location. -/
inductive Outcome.SameWithoutComments {α : Type} : Outcome α → Outcome α → Prop
  | done (a : α) (m : Machine) (location : Option Location) :
    SameWithoutComments (.done a m) (.done a { m.withoutComments with location := location })
  | failed (f : Fault) (m : Machine) (faultLocation location : Option Location) :
    SameWithoutComments (.failed f m)
      (.failed { f with location := faultLocation } { m.withoutComments with location := location })

namespace Machine

open Comments

/-- A machine without comments keeps to words without comments. -/
theorem Restored.withoutComments_eq_self {m m' : Machine} (h : Restored m.withoutComments m') :
    m'.dictionary.withoutComments = m'.dictionary := by
  apply Dictionary.withoutComments_eq_self
  intro w hw
  rcases h.words w hw with hold | ⟨value, hvalue⟩
  · obtain ⟨v, -, rfl⟩ := List.mem_map.mp hold
    exact v.withoutComments_idem
  · simp [Word.withoutComments, hvalue]

/-- Where a run comes to an end, the run without comments ends in the same way, given `limit + 1`
times the steps. -/
theorem sameWithoutComments_of_twin {limit n : Nat} {m : Machine} {tokens : List Token}
    (htwin : Twin limit tokens (TokenForth.withoutComments tokens))
    (hrel : Rel limit m m.withoutComments) (hn : runTokens n tokens m ≠ .unfinished) :
    (runTokens n tokens m).SameWithoutComments
      (runTokens (n * (limit + 1)) (TokenForth.withoutComments tokens) m.withoutComments) := by
  have hrun := runs_runTokens (n := n) (Nat.le_refl _) htwin m m.withoutComments hrel
  have hleft := runTokens_restored n tokens m
  have hright := runTokens_restored (n * (limit + 1)) (TokenForth.withoutComments tokens)
    m.withoutComments
  have hfinal {m₁ m₁' : Machine} (h : Rel limit m₁ m₁') (hm₁ : Restored m m₁)
      (hm₁' : Restored m.withoutComments m₁') :
      ∃ location, m₁' = { m₁.withoutComments with location := location } := by
    apply h.eq_withoutComments hm₁'.withoutComments_eq_self
    rw [hm₁.position, hm₁'.position]
    rfl
  generalize runTokens n tokens m = o,
    runTokens (n * (limit + 1)) (TokenForth.withoutComments tokens) m.withoutComments = o'
    at hrun hleft hright hn ⊢
  cases hrun with
  | @done _ m₁ _ _ h =>
    obtain ⟨location, rfl⟩ := hfinal h hleft hright
    exact .done () m₁ location
  | @failed f m₁ _ _ h =>
    obtain ⟨location, rfl⟩ := hfinal h.2 hleft hright
    obtain ⟨faultLocation, rfl⟩ := exists_eq_of_bared h.1
    exact .failed f m₁ faultLocation location
  | lost hlost => exact hlost.elim
  | unfinished => exact absurd rfl hn

/-- Comments have no influence on a run: without them, in the token list and in the words of the
machine, it comes to an end as well, and in the same way. -/
theorem runTokens_withoutComments {m : Machine} {tokens : List Token}
    (htitled : m.dictionary.Titled) (hwords : m.dictionary.Orderly) (htokens : Orderly tokens) :
    ((∃ n, runTokens n tokens m ≠ .unfinished) ↔
      ∃ n, runTokens n (TokenForth.withoutComments tokens) m.withoutComments ≠ .unfinished) ∧
    ∀ n k, runTokens n tokens m ≠ .unfinished →
      runTokens k (TokenForth.withoutComments tokens) m.withoutComments ≠ .unfinished →
      (runTokens n tokens m).SameWithoutComments
        (runTokens k (TokenForth.withoutComments tokens) m.withoutComments) := by
  obtain ⟨limit, hneat, htidy⟩ := exists_limit htitled hwords htokens
  have htwin : Twin limit tokens (TokenForth.withoutComments tokens) :=
    ⟨(withoutComments_idem tokens).symm, htidy, htidy.withoutComments⟩
  have hrel : Rel limit m m.withoutComments := by
    refine ⟨?_, hneat, hneat.withoutComments⟩
    rw [bared, bared, withoutComments, Dictionary.withoutComments_idem]
  apply Exec.ends_together (fun n k hn => runTokens_below hn _)
  · intro o o' h
    cases h <;> simp
  · exact fun n hn => ⟨n * (limit + 1), sameWithoutComments_of_twin htwin hrel hn⟩
  · intro n hn
    use n * (limit + 1)
    have hrun := runs_runTokens (n := n) (Nat.le_refl _) htwin.symm m.withoutComments m hrel.symm
    generalize runTokens n (TokenForth.withoutComments tokens) m.withoutComments = o,
      runTokens (n * (limit + 1)) tokens m = o' at hrun hn ⊢
    cases hrun with
    | done _ => simp
    | failed _ => simp
    | lost hlost => exact hlost.elim
    | unfinished => exact absurd rfl hn

private def commented : Machine :=
  { bare {} with
    dictionary := (bare {}).dictionary.add
      { name := "HALF"
        action := .body [⟨.comment "n -- n/2", ⟨"", 1, 8⟩⟩, ⟨.number 2, ⟨"", 1, 19⟩⟩,
          ⟨.word "/", ⟨"", 1, 21⟩⟩] } }

private def remark : List Token :=
  [⟨.number 7, ⟨"", 1, 1⟩⟩, ⟨.comment "lucky", ⟨"", 1, 3⟩⟩, ⟨.word "HALF", ⟨"", 1, 13⟩⟩,
    ⟨.number 0, ⟨"", 1, 18⟩⟩, ⟨.word "/", ⟨"", 1, 20⟩⟩]

/-- A division by zero after comments. -/
theorem runTokens_withoutComments_division :
    ∃ f m₁ faultLocation location,
      runTokens 9 remark commented = .failed f m₁ ∧
      runTokens 7 (TokenForth.withoutComments remark) commented.withoutComments =
        .failed { f with location := faultLocation }
          { m₁.withoutComments with location := location } := by
  have htitled : commented.dictionary.Titled :=
    List.forall_mem_cons.mpr ⟨by simp [Word.title?], (bare_standard {}).titled⟩
  have hwords : commented.dictionary.Orderly := by
    refine List.forall_mem_cons.mpr ⟨fun body hbody => ?_, fun w hw body hbody => ?_⟩
    · cases hbody
      exact ⟨by decide, by decide⟩
    · exact absurd hbody (bare_ne_body hw body)
  have hremark : Orderly remark := ⟨by decide, by decide⟩
  have hsame := (runTokens_withoutComments htitled hwords hremark).2 9 7 (by decide +kernel)
    (by decide +kernel)
  have hfailed : (runTokens 9 remark commented).isDone = false := by decide +kernel
  generalize runTokens 9 remark commented = o,
    runTokens 7 (TokenForth.withoutComments remark) commented.withoutComments = o'
    at hsame hfailed ⊢
  cases hsame with
  | done => cases hfailed
  | failed f m₁ faultLocation location => exact ⟨f, m₁, faultLocation, location, rfl, rfl⟩

end Machine

end TokenForth

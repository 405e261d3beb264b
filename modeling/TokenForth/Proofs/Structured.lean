import TokenForth.Proofs.Following

/-!
# Runs of structured programs

Running the tokens of a structured program does what evaluating the program does. A block that is
scanned for is the block of the tree, and a token that was rewritten for a pass is the index that is
looked up. There is one lemma for each node; the induction over runs puts them together.
-/
namespace TokenForth

open Exec Machine

namespace Structured

variable {trees : List Token → Program}

section Blocks

variable {S outer : List TokenStream} {F : List (List Cell)} {runner : Runner}
  {tokens : List Token} {body : Exec Unit}

theorem stays_until (h : Stays trees S F (runner tokens) body) {k n : Nat} (hk : k ≤ n) :
    Stays trees S F (Flow.runUntil runner tokens k) (Program.untilTrue body n) := by
  induction k generalizing n with
  | zero => exact relates_unfinished
  | succ k ih =>
    obtain ⟨n, rfl⟩ := Nat.exists_eq_add_of_le' (Nat.le_of_add_left_le hk)
    refine h.bind fun _ => stays_popFlag.bind fun flag => ?_
    cases flag with
    | true => exact follows_pure () fun _ hm => hm
    | false => exact ih (Nat.le_of_succ_le_succ hk)

theorem stays_again (h : Stays trees S F (runner tokens) body) {k n : Nat} (hk : k ≤ n) :
    Stays trees S F (Flow.runAgain runner tokens k) (Program.forever body n) := by
  induction k generalizing n with
  | zero => exact relates_unfinished
  | succ k ih =>
    obtain ⟨n, rfl⟩ := Nat.exists_eq_add_of_le' (Nat.le_of_add_left_le hk)
    exact h.bind fun _ => ih (Nat.le_of_succ_le_succ hk)

theorem stays_while {test : List Token} {test' : Exec Unit}
    (htest : Stays trees S F (runner test) test') (h : Stays trees S F (runner tokens) body)
    {k n : Nat} (hk : k ≤ n) :
    Stays trees S F (Flow.runWhile runner test tokens k) (Program.whileTrue test' body n) := by
  induction k generalizing n with
  | zero => exact relates_unfinished
  | succ k ih =>
    obtain ⟨n, rfl⟩ := Nat.exists_eq_add_of_le' (Nat.le_of_add_left_le hk)
    refine htest.bind fun _ => stays_popFlag.bind fun flag => ?_
    cases flag with
    | true => exact h.bind fun _ => ih (Nat.le_of_succ_le_succ hk)
    | false => exact follows_pure () fun _ hm => hm

def Looping (S : List TokenStream) (env : List Cell) (fs : List (List Cell)) (m : Machine) : Prop :=
  ∃ index, At S ((index :: env) :: fs) m

variable {env : List Cell} {fs : List (List Cell)} {p : Program} {pass : Cell → Exec Unit}
  {stepped : Bool}

/-- The body that is rewritten for a pass does what the tree does with the index of the pass. -/
theorem follows_passes (hp : p.isWellFormed = true)
    (h : ∀ index, Stays trees S ((index :: env) :: fs) (runner (p.tokensIn (index :: env)))
      (pass index)) (limit : Cell) {k n : Nat} (hk : k ≤ n) (index : Cell) :
    Follows trees (Looping S env fs) (fun _ => Looping S env fs) (Looping S env fs)
      (Flow.runPasses runner p.tokens limit stepped k index)
      (Program.counting pass limit stepped n index) := by
  induction k generalizing n index with
  | zero => exact relates_unfinished
  | succ k ih =>
    obtain ⟨n, rfl⟩ := Nat.exists_eq_add_of_le' (Nat.le_of_add_left_le hk)
    have hlooping (m : Machine) (hm : At S ((index :: env) :: fs) m) : Looping S env fs m :=
      ⟨index, hm⟩
    have hstep : Stays trees S ((index :: env) :: fs) (Flow.takeStep stepped)
        (Flow.takeStep stepped) := by
      cases stepped with
      | true => exact stays_pop
      | false => exact follows_pure 1 fun _ hm => hm
    have hnext : Follows trees (At S ((index :: env) :: fs)) (fun _ => Looping S env fs)
        (Looping S env fs)
        (runner (p.tokensIn (index :: env)) >>= fun _ => Flow.takeStep stepped >>= fun step =>
          Flow.nextPass (Flow.runPasses runner p.tokens limit stepped k) limit index step)
        (Program.counting pass limit stepped (n + 1) index) := by
      refine ((h index).mono (fun _ hm => hm) (fun _ _ hm => hm) hlooping).bind fun _ =>
        (hstep.mono (fun _ hm => hm) (fun _ _ hm => hm) hlooping).bind fun step => ?_
      unfold Flow.nextPass
      cases Cell.add? index step with
      | none => exact follows_pure () hlooping
      | some next =>
        by_cases hend : Flow.reached next limit step = true
        · simp only [hend, if_true]
          exact follows_pure () hlooping
        · simp only [hend]
          exact (ih (Nat.le_of_succ_le_succ hk) next).mono hlooping (fun _ _ hm => hm)
            (fun _ hm => hm)
    rintro m s ⟨hagree, i, hat⟩
    have hupdated : loopUpdated index m = { m with frames := (index :: env) :: fs } := by
      rw [loopUpdated_eq, hat.frames]
      rfl
    have hindices : (loopUpdated index m).indices = index :: env := by
      rw [hupdated]
      rfl
    have hm := hnext (loopUpdated index m) s (by
      rw [hupdated]
      exact ⟨hagree.of_core rfl, hat.streams, rfl⟩)
    rw [← Program.substitute_tokens _ hp, ← hindices] at hm
    exact hm

open Vocabulary Program

variable {q : Program} {yes no : Exec Unit} {rest : List Token} {c d : Location}

theorem consumes_when (hp : p.isWellFormed = true)
    (h : Stays trees (⟨rest⟩ :: outer) F (runner (p.tokensIn env)) yes) :
    Consumes trees outer F (p.tokensIn env ++ keyword "THEN" c :: rest) rest
      (Flow.runConditional runner) (branch yes (pure ())) := by
  have hscan : conditional.scan (p.tokensIn env ++ keyword "THEN" c :: rest) = _ :=
    (passes_tokensIn (by simp) hp env).scan rfl
  refine Follows.take (fun m hm => takeBlock_some hm hscan) (Stays.consumes ?_)
  refine stays_popFlag.bind fun flag => ?_
  cases flag with
  | true => exact h
  | false => exact follows_pure () fun _ hm => hm

theorem consumes_choose (hp : p.isWellFormed = true) (hq : q.isWellFormed = true)
    (hyes : Stays trees (⟨rest⟩ :: outer) F (runner (p.tokensIn env)) yes)
    (hno : Stays trees (⟨rest⟩ :: outer) F (runner (q.tokensIn env)) no) :
    Consumes trees outer F
      (p.tokensIn env ++ keyword "ELSE" d :: (q.tokensIn env ++ keyword "THEN" c :: rest)) rest
      (Flow.runConditional runner) (branch yes no) := by
  have hscan : conditional.scan
      (p.tokensIn env ++ keyword "ELSE" d :: (q.tokensIn env ++ keyword "THEN" c :: rest)) = _ :=
    (passes_tokensIn (by simp) hp env).scan_split rfl (passes_tokensIn (by simp) hq env) rfl
  refine Follows.take (fun m hm => takeBlock_some hm hscan) (Stays.consumes ?_)
  refine stays_popFlag.bind fun flag => ?_
  cases flag with
  | true => exact hyes
  | false => exact hno

theorem consumes_until (hp : p.isWellFormed = true)
    (h : Stays trees (⟨rest⟩ :: outer) F (runner (p.tokensIn env)) body) {k n : Nat} (hk : k ≤ n) :
    Consumes trees outer F (p.tokensIn env ++ keyword "UNTIL" c :: rest) rest
      (Flow.runRepeated runner k) (catchLeave (untilTrue body n)) := by
  have hscan : repeated.scan (p.tokensIn env ++ keyword "UNTIL" c :: rest) = _ :=
    (passes_tokensIn (by simp) hp env).scan rfl
  refine Follows.take (fun m hm => takeBlock_some hm hscan) ?_
  exact (stays_until h hk).catchLeave

theorem consumes_again (hp : p.isWellFormed = true)
    (h : Stays trees (⟨rest⟩ :: outer) F (runner (p.tokensIn env)) body) {k n : Nat} (hk : k ≤ n) :
    Consumes trees outer F (p.tokensIn env ++ keyword "AGAIN" c :: rest) rest
      (Flow.runRepeated runner k) (catchLeave (forever body n)) := by
  have hscan : repeated.scan (p.tokensIn env ++ keyword "AGAIN" c :: rest) = _ :=
    (passes_tokensIn (by simp) hp env).scan rfl
  refine Follows.take (fun m hm => takeBlock_some hm hscan) ?_
  exact (stays_again h hk).catchLeave

theorem consumes_while {test : Exec Unit} (hp : p.isWellFormed = true) (hq : q.isWellFormed = true)
    (htest : Stays trees (⟨rest⟩ :: outer) F (runner (p.tokensIn env)) test)
    (h : Stays trees (⟨rest⟩ :: outer) F (runner (q.tokensIn env)) body) {k n : Nat} (hk : k ≤ n) :
    Consumes trees outer F
      (p.tokensIn env ++ keyword "WHILE" d :: (q.tokensIn env ++ keyword "REPEAT" c :: rest)) rest
      (Flow.runRepeated runner k) (catchLeave (whileTrue test body n)) := by
  have hscan : repeated.scan
      (p.tokensIn env ++ keyword "WHILE" d :: (q.tokensIn env ++ keyword "REPEAT" c :: rest)) = _ :=
    (passes_tokensIn (by simp) hp env).scan_split rfl (passes_tokensIn (by simp) hq env) rfl
  refine Follows.take (fun m hm => takeBlock_some hm hscan) ?_
  exact (stays_while htest h hk).catchLeave

theorem consumes_count (hp : p.isWellFormed = true)
    (h : ∀ index, Stays trees (⟨rest⟩ :: outer) ((index :: env) :: fs)
      (runner (p.tokensIn (index :: env))) (pass index)) {k n : Nat} (hk : k ≤ n) :
    Consumes trees outer (env :: fs) (p.tokens ++ keyword (loopCloser stepped) c :: rest) rest
      (Flow.runCounted runner k) (counted pass stepped n) := by
  have hpasses := passes_tokensIn (v := Vocabulary.counted) (by simp) hp []
  rw [tokensIn_nil] at hpasses
  have hscan : Vocabulary.counted.scan (p.tokens ++ keyword (loopCloser stepped) c :: rest) = _ :=
    hpasses.scan (by cases stepped <;> rfl)
  have hpop : Follows trees (At (⟨p.tokens ++ keyword (loopCloser stepped) c :: rest⟩ :: outer)
      (env :: fs)) _ (Inside outer (env :: fs)) pop pop :=
    stays_pop.mono (fun _ hm => hm) (fun _ _ hm => hm) fun _ hm => ⟨_, hm⟩
  refine hpop.bind fun start => hpop.bind fun limit =>
    Follows.take (fun m hm => takeBlock_some hm hscan) ?_
  have hcloser : decide ((⟨p.tokens, [], keyword (loopCloser stepped) c⟩ : Block).closerName =
      "+LOOP") = stepped := by
    cases stepped <;> rfl
  rw [hcloser]
  refine Follows.catchLeave (Follows.bracket (follows_passes hp h limit hk start) ?_ ?_ ?_ ?_ ?_)
  · intro m
    rw [loopEntered_eq]
    rfl
  · intro m
    rw [loopExited_eq]
    rfl
  · intro m hm
    rw [loopEntered_eq, indices, hm.frames]
    exact ⟨start, hm.streams, rfl⟩
  · rintro _ m ⟨index, hm⟩
    rw [loopExited_eq, hm.frames]
    exact ⟨hm.streams, rfl⟩
  · rintro m ⟨index, hm⟩
    rw [loopExited_eq, hm.frames]
    exact ⟨hm.streams, rfl⟩

end Blocks

section Words

variable {S outer : List TokenStream} {F : List (List Cell)} {runner call : Runner}
  {tokens rest : List Token}

theorem Agree.wordEntered {m s : Machine} (h : Agree trees m s) :
    Agree trees (wordEntered m) (wordEntered s) := by
  rw [eq_of_core_eq h.core]
  exact ⟨rfl, h.fits.of_eq rfl rfl⟩

theorem core_wordExited {m s : Machine} (h : m.core = s.core) :
    (wordExited m).core = (wordExited s).core := by
  rw [eq_of_core_eq h]
  rfl

/-- The body of a defined word starts in a loop frame of its own. -/
theorem stays_enclosed {body : List Token} (h : Stays trees S ([] :: F) (runner body) (call body)) :
    Stays trees S F (enclosed runner body) (enclosed call body) := by
  have hexited {m s : Machine} (hm : Agree trees m s ∧ At S ([] :: F) m) :
      Agree trees (wordExited m) (wordExited s) ∧ At S F (wordExited m) := by
    obtain ⟨⟨hcore, hfits⟩, hat⟩ := hm
    refine ⟨⟨core_wordExited hcore, hfits.of_eq rfl rfl⟩, hat.streams, ?_⟩
    rw [wordExited, hat.frames]
    rfl
  rintro m s ⟨hagree, hat⟩
  have hentered : At S ([] :: F) (wordEntered m) := ⟨hat.streams, by rw [← hat.frames]; rfl⟩
  refine (Relates.after h ?_ ?_) _ _ ⟨hagree.wordEntered, hentered⟩
  · rintro _ m _ s ⟨_, hm⟩
    exact ⟨rfl, hexited hm⟩
  · rintro f m g s hf
    exact ⟨hf.cause, fun hleave => hexited (hf.leave hleave), core_wordExited hf.cleared⟩

theorem stays_checkReturns (name : String) (before : Nat) :
    Stays trees S F (checkReturns name before) (checkReturns name before) := by
  rintro m s hm
  have hreturns : s.returns = m.returns := by rw [eq_of_core_eq hm.1.core]
  change Outcome.Matches _ _ _
    ((if m.returns.depth = before then pure () else do
      clearReturn
      Exec.raise (.unbalanced name before m.returns.depth) : Exec Unit) m)
    ((if s.returns.depth = before then pure () else do
      clearReturn
      Exec.raise (.unbalanced name before s.returns.depth) : Exec Unit) s)
  rw [hreturns]
  split
  · exact follows_pure () (fun _ hm => hm) m s hm
  · refine follows_plain (E := fun _ => True) ?_ m s hm
    exact .bind (.clearReturn trivial) fun _ => .raise _ nofun

theorem stays_runBody {name : String} {body : List Token}
    (h : Stays trees S ([] :: F) (runner body) (call body)) :
    Stays trees S F (runBody runner name body) (runBody call name body) := by
  rintro m s ⟨hagree, hat⟩
  have hs := eq_of_core_eq hagree.core
  have hconfig : s.config = m.config := by rw [hs]
  have hdepth : s.depth = m.depth := by rw [hs]
  have hreturns : s.returns = m.returns := by rw [hs]
  rcases Nat.lt_or_ge m.depth m.config.callLimit with hlt | hge
  · rw [runBody_shallow hlt, runBody_shallow (by rw [hconfig, hdepth]; exact hlt), hreturns]
    exact (stays_enclosed h).bind (fun _ => stays_checkReturns name _) m s ⟨hagree, hat⟩
  · rw [runBody_deep hge, runBody_deep (by rw [hconfig, hdepth]; exact hge), hconfig]
    exact .failed (hagree.failures hat _)

/-- A call is bookkeeping. -/
theorem follows_runWord {w : Word} {k : Nat} {location : Location} {act' : Exec Unit}
    (h : Consumes trees outer F tokens rest (runAction runner k w) act') :
    Consumes trees outer F tokens rest (runWord runner k location w) act' := by
  refine Follows.bracket h (fun _ => rfl) (fun _ => rfl) ?_ ?_ ?_
  · exact fun m hm => ⟨hm.streams, hm.frames⟩
  · exact fun _ m hm => ⟨hm.streams, hm.frames⟩
  · rintro m ⟨rest, hm⟩
    exact ⟨rest, hm.streams, hm.frames⟩

end Words

section Leaves

open Program

def isNaming : Primitive → Bool
  | .storage .declare | .storage .constant | .listing .see => true
  | _ => false

/-- A word reads no tokens, or it works on a name under the name of a naming word, or it is `ABORT`,
or it cannot be a leaf. -/
def readsInOrder (w : Word) : Bool :=
  match w.action with
  | .primitive p => p.readsTokens = false ∨ isNaming p = true ∧ w.name ∈ namingWords ∨
      p = .control .abort ∨ w.name ∈ "FORGET" :: keywords
  | .body _ => true

theorem catalog_readers {e : Word} (he : e ∈ Catalog.words) {p : Primitive}
    (hp : e.action = .primitive p) (hreads : p.readsTokens = true) :
    isNaming p = true ∧ e.name ∈ namingWords ∨ p = .control .abort ∨
      e.name ∈ "FORGET" :: keywords := by
  have hall : ∀ e ∈ Catalog.words, readsInOrder e = true := by decide +kernel
  have h := hall e he
  rw [readsInOrder, hp] at h
  simpa [hreads] using h

variable {outer : List TokenStream} {F : List (List Cell)} {runner : Runner} {env : List Cell}
  {rest : Program} {k : Nat}

theorem run_eq_of_not_reads {p : Primitive} (h : p.readsTokens = false) (r r' : Runner)
    (n n' : Nat) : p.run r n = p.run r' n' := by
  cases p with
  | flow word =>
    cases word with
    | leave => rfl
    | _ => cases h
  | _ => rfl

/-- The name that follows a naming word is the next token in every pass. -/
theorem exists_name (env : List Cell) (hrest : rest.isWellFormed = true)
    (hname : rest.head?.any isName = true) :
    ∃ name location after, rest = .leaf ⟨.word name, location⟩ after ∧ name ∉ keywords ∧
      rest.tokensIn env = ⟨.word name, location⟩ :: after.tokensIn env := by
  cases rest with
  | leaf t after =>
    obtain ⟨lexeme, location⟩ := t
    cases lexeme with
    | word name =>
      simp only [isWellFormed, isLeaf, Bool.and_eq_true, decide_eq_true_eq] at hrest
      simp only [head?, Option.any_some, isName, Token.name?, decide_eq_true_eq, List.mem_cons,
        List.not_mem_nil, or_false, not_or] at hname
      refine ⟨name, location, after, rfl, hrest.1.1.1, ?_⟩
      have hindex : loopIndex? env name = none := by
        unfold loopIndex?
        split <;> simp_all
      simp [tokensIn, Token.withIndex, Token.name?, hindex]
    | _ => cases hname
  | _ => cases hname

theorem evaluate_of_not_reads {p : Primitive} (h : p.readsTokens = false) (next : Option Token) :
    p.takes next = false ∧ p.evaluate next = p.run (fun _ => Exec.unfinished) 0 := by
  constructor
  · unfold Primitive.takes
    split <;> first | rfl | cases h
  · unfold Primitive.evaluate
    split <;> first | rfl | cases h

/-- `ABORT` finds its message in the stream as it stands in the tree. -/
theorem nextMessage_tokensIn {m : Machine} (hm : m.streams = ⟨rest.tokensIn env⟩ :: outer) :
    nextMessage m = .done (messageOf rest.head?)
      (m.withRest ((rest.tokensIn env).drop
        ((Primitive.control .abort).takes rest.head?).toNat)) := by
  have hsame : m.withRest (rest.tokensIn env) = m := by
    obtain ⟨config, data, returns, radix, dictionary, memory, location, calls, streams⟩ := m
    simp_all [withRest]
  by_cases hquote : ∃ text location, rest.head? = some ⟨.quote text, location⟩
  · obtain ⟨text, location, hhead⟩ := hquote
    cases rest with
    | leaf t after =>
      cases hhead
      exact nextMessage_quote hm
    | _ => cases hhead
  · have hother : messageOf rest.head? = "" ∧
        (Primitive.control .abort).takes rest.head? = false := by
      simp only [messageOf, Primitive.takes]
      split <;> simp_all
    rw [hother.1, hother.2]
    refine (nextMessage_other hm ?_).trans (congrArg _ hsame.symm)
    intro text location after htokens
    cases rest with
    | done => cases htokens
    | leaf t after =>
      obtain ⟨lexeme, location⟩ := t
      simp only [tokensIn, Token.withIndex] at htokens
      split at htokens
      · simp at htokens
      · cases htokens
        exact hquote ⟨text, _, rfl⟩
    | _ => cases htokens

/-- A naming word reads the name from the stream that the tree has as the next leaf. -/
theorem consumes_naming {p : Primitive} (hp : isNaming p = true) (hrest : rest.isWellFormed = true)
    (hname : rest.head?.any isName = true) :
    Consumes trees outer F (rest.tokensIn env)
      ((rest.tokensIn env).drop (p.takes rest.head?).toNat) (p.run runner k)
      (p.evaluate rest.head?) := by
  obtain ⟨name, location, after, rfl, hkeyword, htokens⟩ := exists_name env hrest hname
  rw [htokens]
  have htake : ∀ m : Machine,
      m.streams = ⟨⟨.word name, location⟩ :: after.tokensIn env⟩ :: outer → nextName m = _ :=
    fun m hm => nextName_word hm
  cases p with
  | storage word =>
    cases word with
    | declare =>
      refine Follows.take htake (Stays.consumes ?_)
      exact (follows_allocate hkeyword).bind fun _ => follows_pure () fun _ hm => hm
    | constant =>
      refine Follows.take htake (Stays.consumes ?_)
      exact stays_pop.bind fun value => follows_addConstant ⟨value, rfl⟩ hkeyword
    | store | fetch => cases hp
  | listing word =>
    cases word with
    | see =>
      refine Follows.take htake (Stays.consumes ?_)
      exact (follows_findWord name).bind fun w => follows_plain (.write (E := fun _ => False) _)
    | forget | words => cases hp
  | _ => cases hp

theorem consumes_abort :
    Consumes trees outer F (rest.tokensIn env)
      ((rest.tokensIn env).drop ((Primitive.control .abort).takes rest.head?).toNat)
      ((Primitive.control .abort).run runner k) ((Primitive.control .abort).evaluate rest.head?) := by
  have hpop : Follows trees (At (⟨rest.tokensIn env⟩ :: outer) F) _ (Inside outer F) popFlag popFlag :=
    stays_popFlag.mono (fun _ hm => hm) (fun _ _ hm => hm) fun _ hm => ⟨_, hm⟩
  refine hpop.bind fun flag => Follows.take (fun m hm => nextMessage_tokensIn hm) (Stays.consumes ?_)
  cases flag with
  | true => exact follows_raise _ fun _ hm => hm
  | false => exact follows_pure () fun _ hm => hm

/-- A leaf that is a word of the machine and no keyword. -/
theorem consumes_primitive {m : Machine} (hfits : m.Fits trees) {t : Token} {name : String}
    (hname : t.name? = some name) (hp : (Program.leaf t rest).isWellFormed = true) {w : Word}
    (hw : m.meaning name = .word w) {p : Primitive} (haction : w.action = .primitive p) :
    Consumes trees outer F (rest.tokensIn env)
      ((rest.tokensIn env).drop (p.takes rest.head?).toNat) (p.run runner k)
      (p.evaluate rest.head?) := by
  obtain ⟨hmem, rfl⟩ := Dictionary.get?_eq_some (meaning_eq_word hw)
  simp only [isWellFormed, Bool.and_eq_true, Bool.or_eq_true] at hp
  obtain ⟨⟨hleaf, hnaming⟩, hrest⟩ := hp
  by_cases hreads : p.readsTokens = true
  · obtain ⟨e, he, hename, heaction⟩ := hfits.readers w hmem p haction hreads
    rcases catalog_readers he heaction hreads with ⟨hisNaming, hin⟩ | rfl | hin
    · refine consumes_naming hisNaming hrest (hnaming.resolve_left ?_)
      rw [hename] at hin
      simp [hname, hin]
    · exact consumes_abort
    · obtain ⟨lexeme, location⟩ := t
      cases lexeme with
      | word v =>
        cases hname
        simp only [isLeaf, decide_eq_true_eq] at hleaf
        rw [hename] at hin
        rcases List.mem_cons.mp hin with h | h
        · exact absurd h hleaf.2
        · exact absurd h hleaf.1
      | _ => cases hname
  · rw [Bool.not_eq_true] at hreads
    obtain ⟨htakes, hevaluate⟩ := evaluate_of_not_reads hreads rest.head?
    rw [htakes, hevaluate, run_eq_of_not_reads hreads runner (fun _ => Exec.unfinished) k 0]
    exact (follows_plain (p.plain hreads _ 0)).consumes

end Leaves

section Sequences

open Program

abbrev Completes (trees : List Token → Program) (outer : List TokenStream) (F : List (List Cell))
    (tokens : List Token) (act act' : Exec Unit) : Prop :=
  Follows trees (At (⟨tokens⟩ :: outer) F) (fun _ => Inside outer F) (Inside outer F) act act'

variable {outer : List TokenStream} {F fs : List (List Cell)} {runner call : Runner}
  {env : List Cell} {tokens rest : List Token} {k n : Nat} {act' block' rest' : Exec Unit}

theorem completes_cons {t : Token}
    (h : Completes trees outer F rest
      (runToken (Invocation.run runner) k (runStream runner k) t) act') :
    Completes trees outer F (t :: rest) (runStream runner (k + 1)) act' := by
  rintro m s ⟨hagree, hat⟩
  rw [runStream, runStreamVia_cons hat.streams]
  refine h _ _ ⟨hagree.of_core rfl, ?_, hat.frames⟩
  rw [withRest, hat.streams]
  rfl

theorem completes_nil : Completes trees outer F [] (runStream runner k) (pure ()) := by
  cases k with
  | zero => exact relates_unfinished
  | succ k =>
    rintro m s ⟨hagree, hat⟩
    rw [runStream, runStreamVia_done hat.streams]
    exact .done ⟨rfl, hagree, [], hat⟩

theorem meaning_opener {m : Machine} (h : m.Fits trees) {entry : String × Flow}
    (hentry : entry ∈ [("IF", Flow.conditional), ("DO", .counted), ("BEGIN", .repeated)]) :
    ∃ w, m.meaning entry.1 = .word w ∧ w.action = .primitive (.flow entry.2) := by
  obtain ⟨w, hw, haction⟩ := Option.map_eq_some_iff.mp (h.openers entry hentry)
  have hkeyword : entry.1 ∈ keywords := by
    simp only [List.mem_cons, List.not_mem_nil, or_false] at hentry
    rcases hentry with rfl | rfl | rfl <;> simp [keywords]
  exact ⟨w, by simp [meaning, h.addresses _ hkeyword, hw], haction⟩

/-- A block and what comes after it. -/
theorem completes_block {opener : String} (flow : Flow) {o : Location}
    (hentry : (opener, flow) ∈ [("IF", Flow.conditional), ("DO", .counted), ("BEGIN", .repeated)])
    (hk : k ≤ n)
    (hblock : ∀ k, k ≤ n → Consumes trees outer F tokens rest (flow.run runner k) block')
    (hrest : ∀ k, k ≤ n → Completes trees outer F rest (runStream runner k) rest') :
    Completes trees outer F (keyword opener o :: tokens) (runStream runner k)
      (block' >>= fun _ => rest') := by
  obtain _ | k := k
  · exact relates_unfinished
  have hk : k ≤ n := Nat.le_of_succ_le hk
  refine completes_cons ?_
  rintro m s ⟨hagree, hat⟩
  obtain ⟨w, hw, haction⟩ := meaning_opener hagree.fits hentry
  change (runMeaning (Invocation.run runner) k o opener (runStream runner k) (m.meaning opener)
    m).Matches _ _ _ _
  rw [hw]
  have hword : Consumes trees outer F tokens rest (runWord runner k o w) block' := by
    refine follows_runWord ?_
    rw [runAction, haction]
    exact hblock k hk
  exact hword.bind (fun _ => hrest k hk) m s ⟨hagree, hat⟩

theorem isSome_of_takes {p : Primitive} {next : Option Token} (h : p.takes next = true) :
    next.isSome = true := by
  cases next with
  | some t => rfl
  | none => simp [Primitive.takes] at h

/-- A leaf and what comes after it. The calls of defined words agree by `hcall`. -/
theorem completes_leaf {t : Token} {rest : Program} {onward : Bool → Exec Unit}
    (hp : (Program.leaf t rest).isWellFormed = true)
    (hcall : ∀ body, (trees body).tokens = body → (trees body).isWellFormed = true →
      ∀ S fs, Stays trees S ([] :: fs) (runner body) (call body))
    (honward : ∀ taken, (taken = true → rest.head?.isSome = true) →
      Completes trees outer F ((rest.tokensIn env).drop taken.toNat) (runStream runner k)
        (onward taken)) :
    Completes trees outer F (t.withIndex env :: rest.tokensIn env) (runStream runner (k + 1))
      (t.evaluate call env rest.head? onward) := by
  have hgo : Completes trees outer F (rest.tokensIn env) (runStream runner k) (onward false) :=
    honward false fun h => by cases h
  have hpush (value : Cell) : Completes trees outer F (rest.tokensIn env)
      (push value >>= fun _ => runStream runner k) (push value >>= fun _ => onward false) :=
    (follows_plain (.push (E := fun _ => False) value)).consumes.bind fun _ => hgo
  refine completes_cons ?_
  obtain ⟨lexeme, location⟩ := t
  cases lexeme with
  | quote text =>
    exact (follows_plain (.write (E := fun _ => False) text)).consumes.bind fun _ => hgo
  | comment text => exact hgo
  | number value => exact hpush value
  | word name =>
    cases hindex : loopIndex? env name with
    | some index =>
      simp only [Token.withIndex, Token.evaluate, Token.name?, Option.bind_some, hindex]
      exact hpush index
    | none =>
      simp only [Token.withIndex, Token.evaluate, Token.name?, Option.bind_some, hindex]
      rintro m s ⟨hagree, hat⟩
      have hmeaning : s.meaning name = m.meaning name := by rw [eq_of_core_eq hagree.core]; rfl
      change (runMeaning (Invocation.run runner) k location name (runStream runner k)
        (m.meaning name) m).Matches _ _ _
        ((s.meaning name).evaluate call name rest.head? onward s)
      rw [hmeaning]
      cases hm : m.meaning name with
      | address value | number value => exact hpush value m s ⟨hagree, hat⟩
      | unknown =>
        have hwrite : Stays trees (⟨rest.tokensIn env⟩ :: outer) F (write (name ++ "?")) _ :=
          follows_plain (.write (E := fun _ => False) _)
        exact hwrite.mono (fun _ hm => hm) (fun _ _ hm => ⟨_, hm⟩) (fun _ hm => ⟨_, hm⟩) m s
          ⟨hagree, hat⟩
      | word w =>
        refine (?_ : Completes trees outer F (rest.tokensIn env) _ _) m s ⟨hagree, hat⟩
        simp only [runMeaning, Meaning.evaluate]
        cases haction : w.action with
        | primitive p =>
          refine Follows.bind (follows_runWord ?_) fun _ => honward _ isSome_of_takes
          rw [runAction, haction]
          exact consumes_primitive hagree.fits rfl hp hm haction
        | body tokens =>
          refine Follows.bind (follows_runWord ?_) fun _ => hgo
          rw [runAction, haction]
          have hmem := (Dictionary.get?_eq_some (meaning_eq_word hm)).1
          obtain ⟨htokens, hbody⟩ := hagree.fits.bodies w hmem tokens haction
          exact (stays_runBody (hcall tokens htokens hbody _ _)).consumes
  | colon | semicolon => cases hp

/-- A sequence is run to its end as the tree is evaluated. Nested token lists agree by `hrun`, and
the calls of defined words by `hcall`. -/
theorem completes_program
    (hrun : ∀ p : Program, p.isWellFormed = true → ∀ env S fs,
      Stays trees S (env :: fs) (runner (p.tokensIn env)) (p.evaluate call n env false))
    (hcall : ∀ body, (trees body).tokens = body → (trees body).isWellFormed = true →
      ∀ S fs, Stays trees S ([] :: fs) (runner body) (call body))
    {p : Program} (hp : p.isWellFormed = true) (hk : k ≤ n) (taken : Bool)
    (htaken : taken = true → p.head?.isSome = true) :
    Completes trees outer (env :: fs) ((p.tokensIn env).drop taken.toNat) (runStream runner k)
      (p.evaluate call n env taken) := by
  induction p generalizing k taken with
  | done =>
    rw [tokensIn, List.drop_nil]
    exact completes_nil
  | leaf t rest ih =>
    have hrest : rest.isWellFormed = true := by
      simp only [isWellFormed, Bool.and_eq_true] at hp
      exact hp.2
    cases taken with
    | true => exact ih hrest hk false fun h => by cases h
    | false =>
      cases k with
      | zero => exact relates_unfinished
      | succ k => exact completes_leaf hp hcall fun taken => ih hrest (Nat.le_of_succ_le hk) taken
  | when o body c rest _ ih =>
    simp only [isWellFormed, Bool.and_eq_true] at hp
    obtain rfl : taken = false := by simpa [head?] using htaken
    refine completes_block .conditional (by simp) hk (fun k hk => ?_) fun k hk =>
      ih hp.2 hk false fun h => by cases h
    exact consumes_when hp.1 (hrun body hp.1 env _ fs)
  | choose o yes s no c rest _ _ ih =>
    simp only [isWellFormed, Bool.and_eq_true] at hp
    obtain rfl : taken = false := by simpa [head?] using htaken
    refine completes_block .conditional (by simp) hk (fun k hk => ?_) fun k hk =>
      ih hp.2 hk false fun h => by cases h
    exact consumes_choose hp.1.1 hp.1.2 (hrun yes hp.1.1 env _ fs) (hrun no hp.1.2 env _ fs)
  | count o body stepped c rest _ ih =>
    simp only [isWellFormed, Bool.and_eq_true] at hp
    obtain rfl : taken = false := by simpa [head?] using htaken
    refine completes_block .counted (by simp) hk (fun k hk => ?_) fun k hk =>
      ih hp.2 hk false fun h => by cases h
    exact consumes_count hp.1 (fun index => hrun body hp.1 (index :: env) _ fs) hk
  | loopUntil o body c rest _ ih =>
    simp only [isWellFormed, Bool.and_eq_true] at hp
    obtain rfl : taken = false := by simpa [head?] using htaken
    refine completes_block .repeated (by simp) hk (fun k hk => ?_) fun k hk =>
      ih hp.2 hk false fun h => by cases h
    exact consumes_until hp.1 (hrun body hp.1 env _ fs) hk
  | loopAgain o body c rest _ ih =>
    simp only [isWellFormed, Bool.and_eq_true] at hp
    obtain rfl : taken = false := by simpa [head?] using htaken
    refine completes_block .repeated (by simp) hk (fun k hk => ?_) fun k hk =>
      ih hp.2 hk false fun h => by cases h
    exact consumes_again hp.1 (hrun body hp.1 env _ fs) hk
  | loopWhile o test s body c rest _ _ ih =>
    simp only [isWellFormed, Bool.and_eq_true] at hp
    obtain rfl : taken = false := by simpa [head?] using htaken
    refine completes_block .repeated (by simp) hk (fun k hk => ?_) fun k hk =>
      ih hp.2 hk false fun h => by cases h
    exact consumes_while hp.1.1 hp.1.2 (hrun test hp.1.1 env _ fs) (hrun body hp.1.2 env _ fs) hk

/-- Runs a token list in a stream of its own, without emptying the data stack after a fault. -/
def runList (steps : Nat) (tokens : List Token) : Exec Unit := do
  Exec.update (streamEntered tokens)
  Exec.after (runStream (runTokens steps) steps) streamExited

theorem runTokens_succ (n : Nat) (tokens : List Token) :
    runTokens (n + 1) tokens = (runList n tokens).onFault (fun f => !f.isLeave) cleared := rfl

/-- The induction is on the steps of the run. The evaluation has more steps, since it spends none
on nested blocks and as many on a call. -/
theorem stays_runList {p : Program} (hp : p.isWellFormed = true) (hn : k < n)
    (env : List Cell) (S : List TokenStream) (fs : List (List Cell)) :
    Stays trees S (env :: fs) (runList k (p.tokensIn env))
      (p.evaluate (evaluateBody trees n) n env false) := by
  induction k generalizing n p env S fs with
  | zero => exact relates_unfinished
  | succ k ih =>
    have hrun {n : Nat} (hn : k + 1 ≤ n) (p : Program) (hp : p.isWellFormed = true) (env : List Cell)
        (S : List TokenStream) (fs : List (List Cell)) : Stays trees S (env :: fs)
          (runTokens (k + 1) (p.tokensIn env)) (p.evaluate (evaluateBody trees n) n env false) := by
      rw [runTokens_succ]
      exact (ih hp hn env S fs).onFault
    have hcall (body : List Token) (htokens : (trees body).tokens = body)
        (hbody : (trees body).isWellFormed = true) (S : List TokenStream) (fs : List (List Cell)) :
        Stays trees S ([] :: fs) (runTokens (k + 1) body) (evaluateBody trees n body) := by
      obtain ⟨n, rfl⟩ := Nat.exists_eq_add_of_lt hn
      have h := hrun (Nat.le_of_lt_succ hn) (trees body) hbody [] S fs
      rw [tokensIn_nil, htokens] at h
      exact h
    have hcomplete : Completes trees S (env :: fs) (p.tokensIn env)
        (runStream (runTokens (k + 1)) (k + 1)) (p.evaluate (evaluateBody trees n) n env false) :=
      completes_program (hrun (Nat.le_of_lt hn)) hcall hp (Nat.le_of_lt hn) false fun h => by cases h
    refine Follows.bracket hcomplete (fun _ => rfl) (fun _ => rfl) ?_ ?_ ?_
    · exact fun m hm => ⟨by rw [← hm.streams]; rfl, hm.frames⟩
    · rintro _ m ⟨rest, hm⟩
      exact ⟨by rw [streamExited, hm.streams]; rfl, hm.frames⟩
    · rintro m ⟨rest, hm⟩
      exact ⟨by rw [streamExited, hm.streams]; rfl, hm.frames⟩

end Sequences

end Structured

/-- What an action that ended came to: the cause of its failure, if it failed, and the machine
without its bookkeeping. -/
def Outcome.seen : Outcome Unit → Option (Option Fault.Cause × Machine)
  | done _ m => some (none, m.core)
  | failed f m => some (some f.cause, m.core)
  | unfinished => none

namespace Machine

/-- A run of the tokens of a structured program that ends comes to what the evaluation of the
program comes to, given as many steps or more. -/
theorem runTokens_agrees {trees : List Token → Program} {p : Program} {m : Machine} {n k : Nat}
    (hp : p.isWellFormed = true) (hfits : m.Fits trees) (hframe : m.frames.head? = some [])
    (hn : runTokens n p.tokens m ≠ .unfinished) (hk : n ≤ k) :
    (runTokens n p.tokens m).seen = (p.run trees k m).seen := by
  obtain _ | n := n
  · exact absurd rfl hn
  obtain ⟨fs, hframes⟩ : ∃ fs, m.frames = [] :: fs := by
    obtain ⟨fs, hfs⟩ := List.head?_eq_some_iff.mp hframe
    exact ⟨fs, hfs⟩
  have hmatch := Structured.stays_runList hp hk [] m.streams fs m m
    ⟨⟨rfl, hfits⟩, rfl, hframes⟩
  rw [Program.tokensIn_nil] at hmatch
  rw [Structured.runTokens_succ] at hn ⊢
  unfold Program.run
  unfold Exec.onFault at hn ⊢
  generalize Structured.runList n p.tokens m = o, p.evaluate _ k [] false m = o' at hmatch hn ⊢
  cases hmatch with
  | done h => simp [Outcome.seen, h.2.1.core]
  | @failed f m g s h =>
    have hleave : g.isLeave = f.isLeave := by simp only [Fault.isLeave, h.cause]
    cases hf : f.isLeave with
    | true => simp [Outcome.seen, hleave, hf, h.cause, (h.leave hf).1.core]
    | false => simp [Outcome.seen, hleave, hf, h.cause, h.cleared]
  | lost h => exact h.elim
  | unfinished => exact absurd rfl hn

def showBody : Program :=
  .leaf ⟨.word "DUP", {}⟩ <|
  .choose {} (.leaf ⟨.word ".", {}⟩ .done) {}
    (.leaf ⟨.word "DROP", {}⟩ <| .leaf ⟨.quote "zero", {}⟩ .done) {} .done

def showLoop : Program :=
  .leaf ⟨.number 3, {}⟩ <| .leaf ⟨.number 0, {}⟩ <|
  .count {} (.leaf ⟨.word "I", {}⟩ <| .leaf ⟨.word "SHOW", {}⟩ <| .leaf ⟨.word "I", {}⟩ <|
    .when {} (.leaf ⟨.word "LEAVE", {}⟩ .done) {} .done) false {} .done

def showMachine : Machine :=
  { bare {} with
    dictionary := (bare {}).dictionary.add ⟨"SHOW", .body showBody.tokens, none, "", ""⟩ }

theorem showMachine_fits : showMachine.Fits fun _ => showBody where
  bodies := by
    intro w hw body hbody
    rcases List.mem_cons.mp hw with rfl | hw
    · cases hbody
      exact ⟨rfl, rfl⟩
    · exact absurd hbody (bare_ne_body hw body)
  openers := by decide +kernel
  readers := by
    intro w hw p hp hreads
    rcases List.mem_cons.mp hw with rfl | hw
    · cases hp
    · exact ⟨w, List.mem_reverse.mp hw, rfl, hp⟩
  addresses := fun _ _ => rfl

theorem runTokens_agrees_show :
    (runTokens 20 showLoop.tokens showMachine).seen =
        (showLoop.run (fun _ => showBody) 20 showMachine).seen ∧
      (showLoop.run (fun _ => showBody) 20 showMachine).seen.map (·.2.output) =
        some "zero1 " := by
  constructor
  · exact runTokens_agrees rfl showMachine_fits rfl (by decide +kernel) (Nat.le_refl 20)
  · decide +kernel

end Machine

end TokenForth

import TokenForth.Proofs.Names
import TokenForth.Proofs.Numerals

/-!
# Token lists that always end

Without the words of `BEGIN` and without `+LOOP`, every run ends. A run of the body of a defined
word uses up some of the calls that are left; a run of a segment of a block is a run of fewer
tokens; and each pass of a loop brings its index closer to the limit.
-/
namespace TokenForth

open Exec Machine

namespace Exec

def Finishes {α : Type} (act : Exec α) : Prop := ∀ m, act m ≠ .unfinished

theorem finishes_pure {α : Type} (a : α) : Finishes (pure a : Exec α) := fun m h => by cases h

theorem finishes_raise {α : Type} (cause : Fault.Cause) : Finishes (raise cause : Exec α) :=
  fun m h => by cases h

theorem finishes_update (change : Machine → Machine) : Finishes (update change) :=
  fun m h => by cases h

theorem finishes_read {α : Type} (f : Machine → α) : Finishes (read f) := fun m h => by cases h

theorem Finishes.bind {α β : Type} {act : Exec α} {next : α → Exec β} (h : Finishes act)
    (hnext : ∀ a, Finishes (next a)) : Finishes (act >>= next) := by
  intro m
  simp only [Bind.bind]
  cases hact : act m with
  | done a m' => exact hnext a m'
  | failed f m' => exact fun h => by cases h
  | unfinished => exact absurd hact (h m)

/-- An action that is bounded by two numbers of steps ends, in one way, once both are large. -/
def Halts {α : Type} (act : Nat → Nat → Exec α) (m : Machine) : Prop :=
  ∃ o, o ≠ .unfinished ∧ ∃ n, ∀ j ≥ n, ∀ k ≥ n, act j k m = o

variable {α β : Type} {m : Machine}

theorem Halts.const {act : Exec α} (h : Finishes act) : Halts (fun _ _ => act) m :=
  ⟨act m, h m, 0, fun _ _ _ _ => rfl⟩

/-- A first action that is done without a bound. -/
theorem Halts.step {act : Exec α} {a : α} {m' : Machine} (h : act m = .done a m')
    {next : Nat → Nat → α → Exec β} (hnext : Halts (fun j k => next j k a) m') :
    Halts (fun j k => act >>= next j k) m := by
  obtain ⟨o, ho, n, hn⟩ := hnext
  refine ⟨o, ho, n, fun j hj k hk => ?_⟩
  simp only [Bind.bind, h]
  exact hn j hj k hk

theorem Halts.update {change : Machine → Machine} {next : Nat → Nat → Unit → Exec β}
    (h : Halts (fun j k => next j k ()) (change m)) :
    Halts (fun j k => Exec.update change >>= next j k) m := h

theorem Halts.state {next : Nat → Nat → Machine → Exec β} (h : Halts (fun j k => next j k m) m) :
    Halts (fun j k => Exec.state >>= next j k) m := h

theorem Halts.failed {act : Exec α} {f : Fault} {m' : Machine} (h : act m = .failed f m')
    {next : Nat → Nat → α → Exec β} : Halts (fun j k => act >>= next j k) m := by
  refine ⟨.failed f m', by simp, 0, fun j _ k _ => ?_⟩
  simp only [Bind.bind, h]

/-- A first action that always leaves a machine at which the next one halts. -/
theorem Halts.bind {R : Machine → Machine → Prop} {act : Nat → Nat → Exec α}
    {next : Nat → Nat → α → Exec β} (h : Halts act m) (hact : ∀ j k, Always R (act j k))
    (hnext : ∀ a m', R m m' → Halts (fun j k => next j k a) m') :
    Halts (fun j k => act j k >>= next j k) m := by
  obtain ⟨o, ho, n, hn⟩ := h
  have hR := hact n n m
  rw [hn n (Nat.le_refl n) n (Nat.le_refl n)] at hR
  cases o with
  | unfinished => exact absurd rfl ho
  | failed f m' =>
    refine ⟨.failed f m', by simp, n, fun j hj k hk => ?_⟩
    simp only [Bind.bind, hn j hj k hk]
  | done a m' =>
    obtain ⟨o, ho, i, hi⟩ := hnext a m' hR
    refine ⟨o, ho, max n i, fun j hj k hk => ?_⟩
    simp only [Bind.bind, hn j (by omega) k (by omega)]
    exact hi j (by omega) k (by omega)

/-- Something done around an action, which depends on how the action ends. -/
theorem Halts.around {act : Nat → Nat → Exec α} (h : Halts act m) (w : Exec α → Exec β)
    (hcongr : ∀ a b : Exec α, a m = b m → w a m = w b m)
    (hends : ∀ a : Exec α, a m ≠ .unfinished → w a m ≠ .unfinished) :
    Halts (fun j k => w (act j k)) m := by
  obtain ⟨o, ho, n, hn⟩ := h
  exact ⟨w (fun _ => o) m, hends _ ho, n, fun j hj k hk => hcongr _ _ (hn j hj k hk)⟩

theorem Halts.of_eq {act : Nat → Nat → Exec α} {o : Outcome α} (ho : o ≠ .unfinished)
    (h : ∀ j k, act j k m = o) : Halts act m := ⟨o, ho, 0, fun j _ k _ => h j k⟩

theorem Halts.congr {act act' : Nat → Nat → Exec α} (h : Halts act m)
    (heq : ∀ j k, act' j k m = act j k m) : Halts act' m := by
  obtain ⟨o, ho, n, hn⟩ := h
  exact ⟨o, ho, n, fun j hj k hk => (heq j k).trans (hn j hj k hk)⟩

/-- A run that gives both bounds to an action is itself bounded by one more. -/
theorem Halts.of_both {act : Nat → Nat → Exec α} {run : Nat → Exec α} (h : Halts act m)
    (hrun : ∀ j, run (j + 1) m = act j j m) : Halts (fun j _ => run j) m := by
  obtain ⟨o, ho, n, hn⟩ := h
  refine ⟨o, ho, n + 1, fun j hj _ _ => ?_⟩
  obtain ⟨j, rfl⟩ : ∃ i, j = i + 1 := ⟨j - 1, by omega⟩
  exact (hrun j).trans (hn j (by omega) j (by omega))

theorem Halts.after {act : Nat → Nat → Exec α} (h : Halts act m) (leave : Machine → Machine) :
    Halts (fun j k => (act j k).after leave) m := by
  apply h.around (·.after leave)
  · intro a b hab
    simp only [Exec.after, hab]
  · intro a ha
    simp only [Exec.after]
    cases hact : a m with
    | unfinished => exact absurd hact ha
    | _ => simp

theorem Halts.onFault {act : Nat → Nat → Exec α} (h : Halts act m) (test : Fault → Bool)
    (change : Machine → Machine) : Halts (fun j k => (act j k).onFault test change) m := by
  apply h.around (·.onFault test change)
  · intro a b hab
    simp only [Exec.onFault, hab]
  · intro a ha
    simp only [Exec.onFault]
    cases hact : a m with
    | unfinished => exact absurd hact ha
    | _ => simp

theorem Halts.catchLeave {act : Nat → Nat → Exec Unit} (h : Halts act m) :
    Halts (fun j k => (act j k).catchLeave) m := by
  apply h.around (·.catchLeave)
  · intro a b hab
    simp only [Exec.catchLeave, hab]
  · intro a ha
    simp only [Exec.catchLeave]
    cases hact : a m with
    | unfinished => exact absurd hact ha
    | done _ _ => simp
    | failed f m' => by_cases hf : f.isLeave = true <;> simp [hf]

/-- A bound that is spent one at a time. -/
theorem Halts.of_succ {act : Nat → Nat → Exec α} (h : Halts (fun j k => act j (k + 1)) m) :
    Halts act m := by
  obtain ⟨o, ho, n, hn⟩ := h
  refine ⟨o, ho, n + 1, fun j hj k hk => ?_⟩
  obtain ⟨k, rfl⟩ : ∃ i, k = i + 1 := ⟨k - 1, by omega⟩
  exact hn j (by omega) k (by omega)

end Exec

theorem plain_finishes {E : Effect → Prop} {α : Type} {act : Exec α} (h : Plain E act) :
    Finishes act := by
  induction h with
  | pure a => exact finishes_pure a
  | raise cause => exact finishes_raise cause
  | bind _ _ ih ihnext => exact .bind ih ihnext
  | push | clear | pushReturn | clearReturn | write | store => exact finishes_update _
  | depth | listing | listingReturn | radix | words => exact finishes_read _
  | pop =>
    intro m
    unfold Machine.pop
    split <;> simp
  | popMany n =>
    intro m
    unfold Machine.popMany
    split <;> simp
  | top =>
    intro m
    unfold Machine.top
    split <;> simp
  | popReturn =>
    intro m
    unfold Machine.popReturn
    split <;> simp
  | topReturn =>
    intro m
    unfold Machine.topReturn
    split <;> simp
  | setRadix r =>
    intro m
    unfold Machine.setRadix
    split <;> simp
  | fetch address =>
    intro m
    unfold Machine.fetch
    split <;> simp

theorem popFlag_finishes : Finishes popFlag := plain_finishes (E := fun _ => False) .popFlag

theorem pop_finishes : Finishes pop := plain_finishes (E := fun _ => False) .pop

theorem nextName_finishes : Finishes nextName := by
  have hnext? : Finishes nextToken? := by
    intro m
    unfold nextToken?
    split <;> simp
  have hnext : Finishes nextToken := by
    refine .bind hnext? fun t => ?_
    cases t with
    | none => exact finishes_raise _
    | some t => exact finishes_pure t
  refine .bind hnext fun t => ?_
  split
  · exact finishes_pure _
  · exact finishes_raise _

theorem stream_finishes : Finishes stream := by
  intro m
  unfold stream
  split <;> simp

theorem nextMessage_finishes : Finishes nextMessage := by
  refine .bind stream_finishes fun s => ?_
  split
  · exact .bind (finishes_update _) fun _ => finishes_pure _
  · exact finishes_pure _

theorem primitive_finishes {p : Primitive} (hflow : ∀ word, p ≠ .flow word) (r : Runner) (n : Nat) :
    Finishes (p.run r n) := by
  by_cases hread : p.readsTokens = false
  · exact plain_finishes (p.plain hread r n)
  · cases p with
    | flow word => exact absurd rfl (hflow word)
    | storage word =>
      cases word with
      | declare =>
        have hallocate (name : String) : Finishes (allocate name) := fun m => by simp [allocate]
        exact .bind nextName_finishes fun _ => .bind (hallocate _) fun _ => finishes_pure _
      | constant =>
        exact .bind nextName_finishes fun _ => .bind pop_finishes fun _ => finishes_update _
      | store | fetch => exact absurd rfl hread
    | listing word =>
      cases word with
      | forget =>
        have hforget (name : String) : Finishes (forgetWord name) := by
          intro m
          unfold forgetWord
          split <;> simp
        exact .bind nextName_finishes fun _ => hforget _
      | see =>
        have hfind (name : String) : Finishes (findWord name) := by
          intro m
          unfold findWord
          split <;> simp
        exact .bind nextName_finishes fun _ => .bind (hfind _) fun _ => finishes_update _
      | words => exact absurd rfl hread
    | control word =>
      cases word with
      | abort =>
        refine .bind popFlag_finishes fun flag => .bind nextMessage_finishes fun message => ?_
        split
        · exact finishes_raise _
        · exact finishes_pure _
      | _ => exact absurd rfl hread
    | report =>
      have hstate : Finishes state := fun m => by simp [state]
      exact .bind stream_finishes fun _ => .bind hstate fun _ => finishes_update _
    | _ => exact absurd rfl hread

namespace Termination

/-- A machine with a bound on the calls that are left, whose words never lead to `BEGIN`. -/
structure Ready (names : String → Prop) (calls : Nat) (m : Machine) : Prop where
  within : m.dictionary.Within names (fun p => p ≠ .flow .repeated)
  calls : m.config.callLimit ≤ m.depth + calls

structure Running (names : String → Prop) (calls size : Nat) (m : Machine) : Prop
    extends Ready names calls m where
  stream : ∃ rest outer, m.streams = ⟨rest⟩ :: outer ∧ rest.length ≤ size ∧ TokensWithin names rest

/-- All token lists of less than `size` tokens end at ready machines. -/
def Ending (names : String → Prop) (calls size : Nat) : Prop :=
  ∀ tokens, tokens.length < size → TokensWithin names tokens →
    ∀ m, Ready names calls m → Halts (fun j _ => runTokens j tokens) m

variable {names : String → Prop} {calls size : Nat} {m : Machine}

theorem Ready.keeps {F : List (List Cell) → List (List Cell) → Prop} {m' : Machine}
    (h : Ready names calls m) (hm : Keeps F m m') : Ready names calls m' := by
  refine ⟨h.within.of_words (fun value => by simp) hm.words, ?_⟩
  rw [hm.config, hm.depth]
  exact h.calls

theorem Running.keeps {F : List (List Cell) → List (List Cell) → Prop} {m' : Machine}
    (h : Running names calls size m) (hm : Keeps F m m') : Running names calls size m' := by
  obtain ⟨rest, outer, hs, hsize, hrest⟩ := h.stream
  have hstreams := hm.streams
  rw [hs] at hstreams
  obtain ⟨rest', hs', hsuffix⟩ := hstreams.exists_cons
  refine ⟨h.toReady.keeps hm, rest', outer, hs', ?_, ?_⟩
  · exact Nat.le_trans hsuffix.length_le hsize
  · exact fun t ht => hrest t (hsuffix.subset ht)

theorem Running.mono {left : Nat} (h : Running names calls left m) (hleft : left ≤ size) :
    Running names calls size m := by
  obtain ⟨rest, outer, hs, hsize, hrest⟩ := h.stream
  exact ⟨h.toReady, rest, outer, hs, Nat.le_trans hsize hleft, hrest⟩

/-- A block that is taken from the stream has shorter segments, within the same names. -/
theorem takeBlock_halts (hm : Running names calls size m) (v : Vocabulary)
    {next : Nat → Nat → Block → Exec Unit}
    (hnext : ∀ block m', Ready names calls m' → v.role block.closer = .closes →
      TokensWithin names [block.closer] →
      (∀ segment ∈ block.segments, segment.length < size ∧ TokensWithin names segment) →
      Halts (fun j k => next j k block) m') :
    Halts (fun j k => Flow.takeBlock v >>= next j k) m := by
  obtain ⟨rest, outer, hs, hsize, hrest⟩ := hm.stream
  cases hscan : v.scan rest with
  | none => exact .failed (takeBlock_none hs hscan)
  | some found =>
    obtain ⟨block, after⟩ := found
    obtain ⟨htokens, hrole⟩ := v.scanFrom_eq_some hscan
    have hsegment (segment : List Token) (h : segment ∈ block.segments) :
        List.Sublist (segment ++ [block.closer]) rest := by
      rw [htokens]
      exact (Block.segment_sublist h).trans (List.sublist_append_left _ _)
    refine .step (takeBlock_some hs hscan) (hnext block _ ⟨hm.within, hm.calls⟩ hrole ?_ ?_)
    · intro t ht
      have hfirst := hsegment block.first List.mem_cons_self
      exact hrest t (hfirst.subset (List.mem_append_right _ ht))
    · intro segment h
      have hlength := (hsegment segment h).length_le
      simp only [List.length_append, List.length_singleton] at hlength
      refine ⟨by omega, fun t ht => hrest t ((hsegment segment h).subset (List.mem_append_left _ ht))⟩

theorem conditional_halts (hshorter : Ending names calls size) (hm : Running names calls size m) :
    Halts (fun j _ => Flow.runConditional (runTokens j)) m := by
  refine takeBlock_halts hm _ fun block m' hm' _ _ hsegments => ?_
  have hrun (segment : List Token) (h : segment ∈ block.segments) {m'' : Machine}
      (hm'' : Later m' m'') : Halts (fun j _ => runTokens j segment) m'' :=
    hshorter segment (hsegments segment h).1 (hsegments segment h).2 m'' (hm'.keeps hm'')
  obtain ⟨first, parts, closer⟩ := block
  rcases parts with _ | ⟨⟨separator, other⟩, _ | ⟨part, more⟩⟩
  · refine .bind (R := Later) (.const popFlag_finishes) (fun _ _ => popFlag_keeps) fun flag m'' hm'' => ?_
    cases flag with
    | true => exact hrun first (by simp [Block.segments]) hm''
    | false => exact .const (finishes_pure _)
  · refine .bind (R := Later) (.const popFlag_finishes) (fun _ _ => popFlag_keeps) fun flag m'' hm'' => ?_
    cases flag with
    | true => exact hrun first (by simp [Block.segments]) hm''
    | false => exact hrun other (by simp [Block.segments]) hm''
  · exact .const (finishes_raise _)

theorem length_substitute (indices : List Cell) (body : List Token) :
    (substitute indices body).length = body.length := by
  have hfrom (depth : Nat) : (substituteFrom indices depth body).length = body.length := by
    fun_induction substituteFrom indices depth body <;> simp_all
  exact hfrom 0

/-- Each pass brings the index closer to the limit. -/
theorem passes_halts {body : List Token} (hsize : body.length < size)
    (hbody : TokensWithin names body) (hshorter : Ending names calls size) (limit index : Cell)
    (hm : Ready names calls m) :
    Halts (fun j k => Flow.runPasses (runTokens j) body limit false k index) m := by
  induction hd : (limit.toInt - index.toInt).toNat using Nat.strongRecOn generalizing index m with
  | ind d ih =>
    have hupdated : Ready names calls (loopUpdated index m) := by
      rw [loopUpdated_eq]
      exact ⟨hm.within, hm.calls⟩
    have hrun := hshorter (substitute (loopUpdated index m).indices body)
      (by rw [length_substitute]; exact hsize) (hbody.substitute _) _ hupdated
    refine .of_succ (.update (.state (.bind hrun (fun j _ => runTokens_restored j _) ?_)))
    intro _ m' hm'
    change Halts (fun j k =>
      Flow.nextPass (Flow.runPasses (runTokens j) body limit false k) limit index 1) m'
    unfold Flow.nextPass
    cases hadd : Cell.add? index 1 with
    | none => exact .const (finishes_pure _)
    | some index' =>
      by_cases hreached : Flow.reached index' limit 1 = true
      · simp only [hreached, if_true]
        exact .const (finishes_pure _)
      · simp only [hreached]
        have hone : (1 : Cell).toInt = 1 := by decide
        have hindex := Cell.toInt_of_add? hadd
        have hlimit : ¬ limit ≤ index' := by simpa [Flow.reached] using hreached
        rw [Int64.le_iff_toInt_le] at hlimit
        exact ih _ (by omega) index' (hupdated.keeps hm'.toKeeps) rfl

theorem counted_halts (hplus : ¬ names "+LOOP") (hshorter : Ending names calls size)
    (hm : Running names calls size m) :
    Halts (fun j k => Flow.runCounted (runTokens j) k) m := by
  refine .bind (R := Later) (.const pop_finishes) (fun _ _ => pop_keeps) fun start m₁ hm₁ => ?_
  refine .bind (R := Later) (.const pop_finishes) (fun _ _ => pop_keeps) fun limit m₂ hm₂ => ?_
  refine takeBlock_halts ((hm.keeps hm₁).keeps hm₂) _ fun block m₃ hm₃ hrole hcloser hsegments => ?_
  have hloop : decide (block.closerName = "+LOOP") = false := by
    refine decide_eq_false fun hname => hplus ?_
    unfold Block.closerName at hname
    cases hcloserName : block.closer.name? with
    | none => simp [Vocabulary.role, hcloserName] at hrole
    | some name =>
      rw [hcloserName, Option.getD_some] at hname
      subst hname
      exact hcloser block.closer (List.mem_singleton_self _) _ hcloserName
  rw [hloop]
  refine .update ((Halts.after ?_ loopExited).catchLeave)
  obtain ⟨hsize, hfirst⟩ := hsegments block.first List.mem_cons_self
  refine passes_halts hsize hfirst hshorter limit start ?_
  rw [loopEntered_eq]
  exact ⟨hm₃.within, hm₃.calls⟩

theorem body_halts (hdeeper : ∀ c < calls, ∀ size, Ending names c size) (name : String)
    {body : List Token} (hbody : TokensWithin names body) (hm : Ready names calls m) :
    Halts (fun j _ => runBody (runTokens j) name body) m := by
  rcases Nat.lt_or_ge m.depth m.config.callLimit with h | h
  · have hcalls := hm.calls
    have hentered : Ready names (calls - 1) (wordEntered m) := by
      refine ⟨hm.within, ?_⟩
      simp only [wordEntered]
      omega
    have hrun := hdeeper (calls - 1) (by omega) (body.length + 1) body (Nat.lt_succ_self _) hbody _
      hentered
    have hcheck : Finishes (checkReturns name m.returns.depth) := by
      refine .bind (fun m => by simp [state]) fun m' => ?_
      split
      · exact finishes_pure _
      · exact .bind (finishes_update _) fun _ => finishes_raise _
    have henclosed : Halts (fun j _ => enclosed (runTokens j) body) m :=
      .update (hrun.after wordExited)
    refine Halts.congr (.bind (R := fun _ _ => True) henclosed ?_ fun _ _ _ => .const hcheck)
      fun j k => runBody_shallow h
    exact fun j k m' => by cases enclosed (runTokens j) body m' <;> trivial
  · exact .of_eq (by simp) fun j k => runBody_deep h

theorem word_halts (hplus : ¬ names "+LOOP") (hdeeper : ∀ c < calls, ∀ size, Ending names c size)
    (hshorter : Ending names calls size) (hm : Running names calls size m) (location : Location)
    {w : Word} (hprimitive : ∀ p, w.action = .primitive p → p ≠ .flow .repeated)
    (hbody : ∀ body, w.action = .body body → TokensWithin names body) :
    Halts (fun j k => runWord (runTokens j) k location w) m := by
  have hcalled : Running names calls size (callEntered ⟨w.name, location⟩ m) :=
    ⟨⟨hm.within, hm.calls⟩, hm.stream⟩
  refine .update (Halts.after ?_ callExited)
  unfold runAction
  cases haction : w.action with
  | body body => exact body_halts hdeeper w.name (hbody body haction) hcalled.toReady
  | primitive p =>
    have hplain (hflow : ∀ word, p ≠ .flow word) :
        Halts (fun j k => p.run (runTokens j) k) (callEntered ⟨w.name, location⟩ m) :=
      (Halts.const (primitive_finishes hflow (runTokens 0) 0)).congr fun j k => by
        rw [p.run_eq hflow (runTokens j) (runTokens 0) k 0]
    cases p with
    | flow word =>
      cases word with
      | conditional => exact conditional_halts hshorter hcalled
      | counted => exact counted_halts hplus hshorter hcalled
      | repeated => exact absurd rfl (hprimitive _ haction)
      | leave => exact .const (finishes_raise _)
    | _ => exact hplain fun _ h => by cases h

/-- The tokens of a stream that is not longer than `size`, one after the other. -/
theorem stream_halts (hplus : ¬ names "+LOOP")
    (hdeeper : ∀ c < calls, ∀ size, Ending names c size) (hshorter : Ending names calls size)
    {left : Nat} (hleft : left ≤ size) (hm : Running names calls left m) :
    Halts (fun j k => runStream (runTokens j) k) m := by
  induction left generalizing m with
  | zero =>
    obtain ⟨rest, outer, hs, hsize, -⟩ := hm.stream
    obtain rfl : rest = [] := List.eq_nil_of_length_eq_zero (Nat.le_zero.mp hsize)
    exact .of_succ (.step (nextToken?_done hs) (.const (finishes_pure _)))
  | succ left ih =>
    obtain ⟨rest, outer, hs, hsize, hrest⟩ := hm.stream
    refine .of_succ ?_
    cases rest with
    | nil => exact .step (nextToken?_done hs) (.const (finishes_pure _))
    | cons t rest =>
      have hnext {m' : Machine} (h : Ready names calls m') (hs' : m'.streams = ⟨rest⟩ :: outer) :
          Running names calls left m' :=
        ⟨h, rest, outer, hs', Nat.le_of_succ_le_succ hsize,
          fun u hu => hrest u (List.mem_cons_of_mem t hu)⟩
      have hmore {m' : Machine} (h : Running names calls left m') :
          Halts (fun j k => runStream (runTokens j) k) m' := ih (by omega) h
      have hready : Ready names calls (m.withRest rest) := ⟨hm.within, hm.calls⟩
      have hstreams : (m.withRest rest).streams = ⟨rest⟩ :: outer := by simp [withRest, hs]
      refine .step (nextToken?_cons hs) (.update ?_)
      obtain ⟨lexeme, location⟩ := t
      cases lexeme with
      | quote text => exact .update (hmore (hnext ⟨hready.within, hready.calls⟩ hstreams))
      | comment text => exact hmore (hnext ⟨hready.within, hready.calls⟩ hstreams)
      | number value => exact .update (hmore (hnext ⟨hready.within, hready.calls⟩ hstreams))
      | colon | semicolon => exact .const (finishes_raise _)
      | word name =>
        have hname : names name := hrest _ List.mem_cons_self name rfl
        have hrunning : Running names calls left (located location (m.withRest rest)) :=
          hnext ⟨hready.within, hready.calls⟩ hstreams
        refine .state ?_
        dsimp only
        generalize located location (m.withRest rest) = m₁ at hrunning ⊢
        cases hmeaning : m₁.meaning name with
        | address value | number value =>
          exact .update (hmore ⟨⟨hrunning.within, hrunning.calls⟩, hrunning.stream⟩)
        | unknown => exact .const (finishes_update _)
        | word w =>
          obtain ⟨hmem, rfl⟩ := Dictionary.get?_eq_some (meaning_eq_word hmeaning)
          obtain ⟨hprimitive, hbody⟩ := hrunning.within w hmem hname
          refine .bind (word_halts hplus hdeeper hshorter (hrunning.mono (by omega)) location
            hprimitive hbody) (fun j k => runWord_later (runTokens_restored j) k location w) ?_
          exact fun _ m' hm' => hmore (hrunning.keeps hm')

/-- By induction on the calls that are left and, within that, on the number of tokens. -/
theorem ending (hplus : ¬ names "+LOOP") (calls size : Nat) : Ending names calls size := by
  induction calls using Nat.strongRecOn generalizing size with
  | ind calls hdeeper =>
    induction size with
    | zero => exact fun tokens h => absurd h (Nat.not_lt_zero _)
    | succ size hshorter =>
      intro tokens hsize htokens m hm
      have hsize := Nat.le_of_lt_succ hsize
      have hentered : Running names calls tokens.length (streamEntered tokens m) :=
        ⟨⟨hm.within, hm.calls⟩, tokens, m.streams, rfl, Nat.le_refl _, htokens⟩
      have hrun := stream_halts hplus hdeeper hshorter hsize hentered
      have hbracket : Halts (fun j k => update (streamEntered tokens) >>= fun _ =>
          ((runStream (runTokens j) k).after streamExited).onFault (fun f => !f.isLeave) cleared) m :=
        .update ((hrun.after streamExited).onFault _ cleared)
      exact hbracket.of_both fun _ => rfl

theorem ne_repeated_of_allows {p : Primitive} (h : Catalog.Allows ["BEGIN", "+LOOP"] p) :
    p ≠ .flow .repeated := by
  have hne : (p != .flow .repeated) = true := h.of_all (· != .flow .repeated) (fun _ => rfl) (by decide +kernel)
  simpa using hne

end Termination

namespace Machine

/-- A token list that names neither `BEGIN` nor `+LOOP`, not even through other words, ends,
however its words call each other. -/
theorem runTokens_terminates {m : Machine} {tokens : List Token} (hstandard : m.dictionary.Standard)
    (hnames : ∀ name ∈ ["BEGIN", "+LOOP"], ¬ m.dictionary.Reaches tokens name) :
    ∃ o, o ≠ .unfinished ∧ ∃ n, ∀ k ≥ n, runTokens k tokens m = o := by
  have hwithin := (hstandard.within hnames).imp fun _ => Termination.ne_repeated_of_allows
  have hready : Termination.Ready (m.dictionary.Reaches tokens) m.config.callLimit m :=
    ⟨hwithin, Nat.le_add_left _ _⟩
  have hplus : ¬ m.dictionary.Reaches tokens "+LOOP" := hnames "+LOOP" (by simp)
  obtain ⟨o, ho, n, hn⟩ := Termination.ending hplus m.config.callLimit (tokens.length + 1) tokens
    (Nat.lt_succ_self _) (m.dictionary.tokensWithin_reaches tokens) m hready
  exact ⟨o, ho, n, fun k hk => hn k hk k hk⟩

/-- A word that calls itself in each of the passes of a loop. -/
theorem runTokens_terminates_recursive :
    ∃ o, o ≠ .unfinished ∧ ∃ n, ∀ k ≥ n, runTokens k [⟨.word "R", {}⟩]
      { bare { callLimit := 3 } with
        dictionary := (bare {}).dictionary.add ⟨"R", .body [⟨.number 5, {}⟩, ⟨.number 0, {}⟩,
          ⟨.word "DO", {}⟩, ⟨.word "R", {}⟩, ⟨.word "LOOP", {}⟩], none, "", ""⟩ } = o := by
  apply runTokens_terminates
  · intro w hw p hp
    rcases List.mem_cons.mp hw with rfl | hw
    · cases hp
    · exact bare_standard {} w hw p hp
  · intro name hname hreach
    have hmem : name ∈ ["R", "DO", "LOOP"] := by
      apply hreach.of_closed (· ∈ ["R", "DO", "LOOP"])
      · decide
      · intro w hw _ body hbody
        rcases List.mem_cons.mp hw with rfl | hw
        · cases hbody
          decide
        · exact absurd hbody (bare_ne_body hw body)
    clear hreach
    revert name
    decide

end Machine

end TokenForth

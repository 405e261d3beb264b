import TokenForth.Proofs.Names

/-!
# What a run can change

The dictionary, the variables, the radix and the return stack are each changed by a few words of the
catalog only. A run that names none of these words, neither itself nor through the words it reaches,
leaves the part as it was, however it ends. That holds of any relation between machines that the
primitives within reach keep, so the induction over runs is made once, for such a relation.
-/
namespace TokenForth

open Exec Machine

/-- The parts of a machine that outlast the run of a token list and are not its data or output. -/
inductive Holding where
  | dictionary
  | memory
  | radix
  | returns
  deriving DecidableEq, Repr

namespace Holding

def Same : Holding → Machine → Machine → Prop
  | dictionary, m, m' => m'.dictionary = m.dictionary
  | memory, m, m' => m'.memory = m.memory
  | radix, m, m' => m'.radix = m.radix
  | returns, m, m' => m'.returns = m.returns

def changers : Holding → List String
  | dictionary => ["CONSTANT", "FORGET"]
  | memory => ["VARIABLE", "!"]
  | radix => ["HEX", "OCTAL", "DECIMAL", "BINARY"]
  | returns => [">R", "R>", "CLEAR"]

def changedBy : Holding → Primitive → Bool
  | dictionary, .storage .constant | dictionary, .listing .forget => true
  | memory, .storage .declare | memory, .storage .store => true
  | radix, .control (.radix _) => true
  | returns, .transfer .toReturn | returns, .transfer .fromReturn | returns, .control .clear => true
  | _, _ => false

/-- The effect by which plain operations change a part. -/
def effect? : Holding → Option Effect
  | dictionary => none
  | memory => some .cells
  | radix => some .radix
  | returns => some .returns

instance (part : Holding) : IsPreorder Machine part.Same where
  refl m := by cases part <;> rfl
  trans a b c hab hbc := by cases part <;> exact Eq.trans hbc hab

end Holding

structure Machine.Unmoved (m m' : Machine) : Prop where
  dictionary : m'.dictionary = m.dictionary
  memory : m'.memory = m.memory
  radix : m'.radix = m.radix
  returns : m'.returns = m.returns

namespace Machine

instance : IsPreorder Machine Unmoved where
  refl _ := ⟨rfl, rfl, rfl, rfl⟩
  trans _ _ _ hab hbc := ⟨hbc.dictionary.trans hab.dictionary, hbc.memory.trans hab.memory,
    hbc.radix.trans hab.radix, hbc.returns.trans hab.returns⟩

theorem Unmoved.same {m m' : Machine} (h : Unmoved m m') (part : Holding) : part.Same m m' := by
  cases part with
  | dictionary => exact h.dictionary
  | memory => exact h.memory
  | radix => exact h.radix
  | returns => exact h.returns

theorem unmoved_refl (m : Machine) : Unmoved m m := Std.Refl.refl m

theorem unmoved_pop : Always Unmoved pop := by
  intro m
  unfold pop
  split
  · exact ⟨rfl, rfl, rfl, rfl⟩
  · exact unmoved_refl m

theorem unmoved_popFlag : Always Unmoved popFlag := .bind unmoved_pop fun _ => always_pure _

theorem unmoved_stream : Always Unmoved stream := by
  intro m
  unfold stream
  split <;> exact unmoved_refl m

theorem unmoved_nextToken? : Always Unmoved nextToken? := by
  intro m
  unfold nextToken?
  split
  · exact ⟨rfl, rfl, rfl, rfl⟩
  · exact unmoved_refl m

theorem unmoved_nextName : Always Unmoved nextName := by
  refine .bind (.bind unmoved_nextToken? fun t => ?_) fun t => ?_
  · cases t with
    | none => exact always_raise _
    | some t => exact always_pure t
  · split
    · exact always_pure _
    · exact always_raise _

theorem unmoved_setStream (rest : TokenStream) : Always Unmoved (setStream rest) :=
  always_update fun _ => ⟨rfl, rfl, rfl, rfl⟩

theorem unmoved_nextMessage : Always Unmoved nextMessage := by
  refine .bind unmoved_stream fun s => ?_
  split
  · exact .bind (unmoved_setStream _) fun _ => always_pure _
  · exact always_pure _

theorem unmoved_takeBlock (v : Vocabulary) : Always Unmoved (Flow.takeBlock v) := by
  refine .bind unmoved_stream fun s => ?_
  split
  · exact .bind (unmoved_setStream _) fun _ => always_pure _
  · exact .bind (unmoved_setStream _) fun _ => always_raise _

theorem unmoved_push (c : Cell) : Always Unmoved (push c) :=
  always_update fun _ => ⟨rfl, rfl, rfl, rfl⟩

theorem unmoved_write (text : String) : Always Unmoved (write text) :=
  always_update fun _ => ⟨rfl, rfl, rfl, rfl⟩

end Machine

namespace Holding

variable {part : Holding}

theorem always_same {α : Type} {act : Exec α} (h : Always Unmoved act) : Always part.Same act :=
  h.imp fun _ _ hm => hm.same part

/-- Plain operations without the effect on a part leave it alone. -/
theorem same_plain {E : Effect → Prop} (hE : ∀ e, part.effect? = some e → ¬ E e) {α : Type}
    {act : Exec α} (h : Plain E act) : Always part.Same act := by
  induction h with
  | pure a => exact always_pure a
  | raise cause => exact always_raise cause
  | bind _ _ ih ihnext => exact .bind ih ihnext
  | push c => exact always_same (unmoved_push c)
  | pop => exact always_same unmoved_pop
  | popMany n =>
    apply always_same
    intro m
    unfold Machine.popMany
    split
    · exact ⟨rfl, rfl, rfl, rfl⟩
    · exact unmoved_refl m
  | top =>
    apply always_same
    intro m
    unfold Machine.top
    split <;> exact unmoved_refl m
  | depth | listing | listingReturn | radix | words => exact always_read _
  | clear => exact always_same (always_update fun _ => ⟨rfl, rfl, rfl, rfl⟩)
  | pushReturn c h =>
    intro m
    cases part with
    | returns => exact absurd h (hE _ rfl)
    | _ => rfl
  | popReturn h =>
    intro m
    unfold Machine.popReturn
    split
    · cases part with
      | returns => exact absurd h (hE _ rfl)
      | _ => rfl
    · exact (unmoved_refl m).same part
  | topReturn =>
    apply always_same
    intro m
    unfold Machine.topReturn
    split <;> exact unmoved_refl m
  | clearReturn h =>
    intro m
    cases part with
    | returns => exact absurd h (hE _ rfl)
    | _ => rfl
  | setRadix r h =>
    intro m
    unfold Machine.setRadix
    split
    · cases part with
      | radix => exact absurd h (hE _ rfl)
      | _ => rfl
    · exact (unmoved_refl m).same part
  | write text => exact always_same (unmoved_write text)
  | store address value h =>
    intro m
    cases part with
    | memory => exact absurd h (hE _ rfl)
    | _ => rfl
  | fetch address =>
    apply always_same
    intro m
    unfold Machine.fetch
    split <;> exact unmoved_refl m

/-- A primitive with the effect on a part is among those that change it. -/
theorem changedBy_of_effect {p : Primitive} {e : Effect} (he : part.effect? = some e)
    (hp : e ∈ p.effects) : part.changedBy p = true := by
  unfold Primitive.effects at hp
  split at hp <;> simp only [List.mem_cons, List.not_mem_nil, or_false] at hp
  all_goals
    cases part <;> cases he <;> first | rfl | simp at hp

/-- A primitive that runs no token list and is not one of those that change a part leaves it
alone. -/
theorem same_primitive {p : Primitive} (hp : part.changedBy p = false)
    (hflow : ∀ word, p ≠ .flow word) (runner : Runner) (steps : Nat) :
    Always part.Same (p.run runner steps) := by
  by_cases hread : p.readsTokens = false
  · apply same_plain _ (p.plain hread runner steps)
    intro e he hmem
    rw [changedBy_of_effect he hmem] at hp
    cases hp
  · have hname : Always part.Same nextName := always_same unmoved_nextName
    cases p with
    | flow word => exact absurd rfl (hflow word)
    | storage word =>
      cases word with
      | declare =>
        apply Always.bind hname
        rintro ⟨name, location⟩
        refine .bind (fun m => ?_) fun _ => always_pure _
        cases part with
        | memory => cases hp
        | _ => rfl
      | constant =>
        apply Always.bind hname
        rintro ⟨name, location⟩
        refine .bind (always_same unmoved_pop) fun value => always_update fun m => ?_
        cases part with
        | dictionary => cases hp
        | _ => rfl
      | store | fetch => exact absurd rfl hread
    | listing word =>
      cases word with
      | forget =>
        apply Always.bind hname
        rintro ⟨name, location⟩ m
        simp only [forgetWord]
        split
        · cases part with
          | dictionary => cases hp
          | _ => rfl
        · exact (unmoved_refl m).same part
      | see =>
        apply Always.bind hname
        rintro ⟨name, location⟩
        refine .bind (fun m => ?_) fun w => always_same (unmoved_write _)
        unfold findWord
        split <;> exact (unmoved_refl m).same part
      | words => exact absurd rfl hread
    | control word =>
      cases word with
      | abort =>
        refine .bind (always_same unmoved_popFlag) fun flag =>
          .bind (always_same unmoved_nextMessage) fun message => ?_
        split
        · exact always_raise _
        · exact always_pure _
      | _ => exact absurd rfl hread
    | report =>
      exact .bind (always_same unmoved_stream) fun s => .bind always_state fun m =>
        always_same (unmoved_write _)
    | _ => exact absurd rfl hread

/-- The primitives that change a part have the names of its changers in the catalog. -/
theorem changedBy_of_allows {p : Primitive} (h : Catalog.Allows part.changers p) :
    part.changedBy p = false := by
  have hall : (!part.changedBy p) = true := by
    apply h.of_all (fun p => !part.changedBy p)
    · cases part <;> exact fun _ => rfl
    · cases part <;> decide +kernel
  simpa using hall

end Holding

namespace Machine

/-- The dictionary and the running stream keep to some names, and so to allowed primitives. -/
structure Confined (names : String → Prop) (allowed : Primitive → Prop) (m : Machine) : Prop where
  within : m.dictionary.Within names allowed
  stream : ∀ s ∈ m.streams.head?, TokensWithin names s.rest

/-- From a confined machine on, the machine stays confined and the relation holds. -/
def Lasts (names : String → Prop) (allowed : Primitive → Prop) (R : Machine → Machine → Prop)
    (m m' : Machine) : Prop :=
  m.Confined names allowed → m'.Confined names allowed ∧ R m m'

/-- A relation that the allowed primitives keep, with all that the engine does besides. -/
structure Footprint (allowed : Primitive → Prop) (R : Machine → Machine → Prop) : Prop where
  constant : ∀ value, allowed (.literal value)
  unmoved : ∀ {m m'}, Unmoved m m' → R m m'
  primitive : ∀ {p}, allowed p → (∀ word, p ≠ .flow word) → ∀ (runner : Runner) steps,
    Always R (p.run runner steps)
  /-- The return stack is as deep as before, or it does not matter to empty it. -/
  balanced : ∀ {m m'}, R m m' → m'.returns.depth = m.returns.depth ∨
    R m' { m' with returns := m'.returns.clear }

section Confined

variable {names : String → Prop} {allowed : Primitive → Prop} {R : Machine → Machine → Prop}
  {F : List (List Cell) → List (List Cell) → Prop}

/-- The bookkeeping keeps a machine confined: the stream only moves forward, and the dictionary only
gains constants. -/
theorem Confined.keeps {m m' : Machine} (h : m.Confined names allowed)
    (hconstant : ∀ value, allowed (.literal value)) (hm : Keeps F m m') :
    m'.Confined names allowed := by
  refine ⟨h.within.of_words hconstant hm.words, fun s' hs' t ht => ?_⟩
  have hstreams := hm.streams
  cases hm' : m'.streams with
  | nil => simp [hm'] at hs'
  | cons first outer =>
    rw [hm'] at hs' hstreams
    cases hs'
    cases hs : m.streams with
    | nil => rw [hs] at hstreams; exact hstreams.elim
    | cons s outer' =>
      rw [hs] at hstreams
      exact h.stream s (by rw [hs]; rfl) t (hstreams.1.subset ht)

instance [IsPreorder Machine R] : IsPreorder Machine (Lasts names allowed R) where
  refl m hm := ⟨hm, Std.Refl.refl m⟩
  trans a b c hab hbc ha :=
    ⟨(hbc (hab ha).1).1, IsTrans.trans a b c (hab ha).2 (hbc (hab ha).1).2⟩

theorem always_lasts {α : Type} {act : Exec α}
    (h : ∀ m, m.Confined names allowed → (act m).All fun m' => m'.Confined names allowed ∧ R m m') :
    Always (Lasts names allowed R) act := by
  intro m
  by_cases hm : m.Confined names allowed
  · exact (h m hm).imp fun _ hm' _ => hm'
  · cases act m with
    | done a m' => exact fun h => absurd h hm
    | failed f m' => exact fun h => absurd h hm
    | unfinished => trivial

/-- What keeps the bookkeeping and the relation lasts. -/
theorem lasts_of_keeps {α : Type} {act : Exec α} (hconstant : ∀ value, allowed (.literal value))
    (hkeeps : Always (Keeps F) act) (hR : Always R act) : Always (Lasts names allowed R) act := by
  apply always_lasts
  intro m hm
  apply ((hkeeps m).and (hR m)).imp
  rintro m' ⟨hkept, hrel⟩
  exact ⟨hm.keeps hconstant hkept, hrel⟩

/-- An action that leaves the four parts alone lasts. -/
theorem Footprint.lasts {α : Type} {act : Exec α} (hR : Footprint allowed R)
    (hkeeps : Always Later act) (h : Always Unmoved act) : Always (Lasts names allowed R) act :=
  lasts_of_keeps hR.constant hkeeps (h.imp fun _ _ => hR.unmoved)

theorem Footprint.lasts_change {m m' : Machine} (hR : Footprint allowed R) (h : Unmoved m m')
    (hstreams : m'.streams = m.streams) : Lasts names allowed R m m' := by
  intro hm
  refine ⟨⟨?_, ?_⟩, hR.unmoved h⟩
  · rw [h.dictionary]
    exact hm.within
  · rw [hstreams]
    exact hm.stream

theorem Footprint.lasts_update {change : Machine → Machine} (hR : Footprint allowed R)
    (h : ∀ m, Unmoved m (change m)) (hstreams : ∀ m, (change m).streams = m.streams) :
    Always (Lasts names allowed R) (update change) :=
  always_update fun m => hR.lasts_change (h m) (hstreams m)

end Confined

section Run

variable {names : String → Prop} {allowed : Primitive → Prop} {R : Machine → Machine → Prop}
  [IsPreorder Machine R]

/-- An action between two changes that leave the four parts and the streams alone. -/
theorem Footprint.bracket {act : Exec Unit} {enter leave : Machine → Machine}
    (hR : Footprint allowed R) (h : Always (Lasts names allowed R) act)
    (henter : ∀ m, Unmoved m (enter m)) (hleave : ∀ m, Unmoved m (leave m))
    (hentered : ∀ m, (enter m).streams = m.streams) (hleft : ∀ m, (leave m).streams = m.streams) :
    Always (Lasts names allowed R) (update enter >>= fun _ => act.after leave) := by
  apply h.bracket
  intro m m' hm
  have hfirst : Lasts names allowed R m (enter m) := hR.lasts_change (henter m) (hentered m)
  have hlast : Lasts names allowed R m' (leave m') := hR.lasts_change (hleave m') (hleft m')
  exact IsTrans.trans _ _ _ (IsTrans.trans _ _ _ hfirst hm) hlast

/-- A block that is taken from the stream has segments within the same names. -/
theorem Footprint.lasts_takeBlock (hR : Footprint allowed R) (v : Vocabulary)
    {next : Block → Exec Unit} (hnext : ∀ block : Block,
      (∀ segment ∈ block.segments, TokensWithin names segment) →
        Always (Lasts names allowed R) (next block)) :
    Always (Lasts names allowed R) (Flow.takeBlock v >>= next) := by
  have htake : Always (Lasts names allowed R) (Flow.takeBlock v) :=
    hR.lasts (takeBlock_keeps v) (unmoved_takeBlock v)
  apply always_lasts
  intro m hm
  have hfirst := htake m
  rcases hs : m.streams with _ | ⟨s, outer⟩
  · simp only [Bind.bind, takeBlock_nil v hs] at hfirst ⊢
    exact hfirst hm
  · cases hscan : v.scan s.rest with
    | none =>
      simp only [Bind.bind, takeBlock_none hs hscan] at hfirst ⊢
      exact hfirst hm
    | some found =>
      obtain ⟨block, rest⟩ := found
      have hsegments (segment : List Token) (h : segment ∈ block.segments) :
          TokensWithin names segment := by
        intro t ht
        apply hm.stream s (by rw [hs]; rfl) t
        rw [(v.scanFrom_eq_some hscan).1]
        exact List.mem_append_left _ ((Block.segment_part h).subset ht)
      rw [bind_of_done (takeBlock_some hs hscan)]
      rw [takeBlock_some hs hscan] at hfirst
      exact (hnext block hsegments _).imp fun m' hm' => IsTrans.trans _ _ _ hfirst hm' hm

/-- A token that is taken from the stream is within the same names. -/
theorem Footprint.lasts_nextToken? (hR : Footprint allowed R) {next : Option Token → Exec Unit}
    (hnone : Always (Lasts names allowed R) (next none)) (hsome : ∀ t : Token,
      (∀ name, t.name? = some name → names name) → Always (Lasts names allowed R) (next (some t))) :
    Always (Lasts names allowed R) (nextToken? >>= next) := by
  have htake : Always (Lasts names allowed R) nextToken? :=
    hR.lasts nextToken?_keeps unmoved_nextToken?
  apply always_lasts
  intro m hm
  have hfirst := htake m
  rcases hs : m.streams with _ | ⟨⟨_ | ⟨t, rest⟩⟩, outer⟩
  · rw [bind_of_done (nextToken?_nil hs)]
    exact (hnone m).imp fun _ h => h hm
  · rw [bind_of_done (nextToken?_done hs)]
    exact (hnone m).imp fun _ h => h hm
  · have ht : ∀ name, t.name? = some name → names name :=
      hm.stream ⟨t :: rest⟩ (by rw [hs]; rfl) t List.mem_cons_self
    rw [bind_of_done (nextToken?_cons hs)]
    rw [nextToken?_cons hs] at hfirst
    exact (hsome t ht _).imp fun m' hm' => IsTrans.trans _ _ _ hfirst hm' hm

def Footprint.blockWalk (hR : Footprint allowed R) (names : String → Prop) :
    BlockWalk Exec Exec where
  toPairing := alwaysPairing (Lasts names allowed R)
  pass x _ := Always (Lasts names allowed R) x
  token := Eq
  tokens ts us := ts = us ∧ TokensWithin names ts
  lexeme := congrArg Token.lexeme
  substituted h indices := ⟨by rw [h.1], h.2.substitute indices⟩
  raise _ _ := always_raise _
  pop := hR.lasts pop_keeps unmoved_pop
  popFlag := hR.lasts popFlag_keeps unmoved_popFlag
  takeBlock v _ _ h := hR.lasts_takeBlock v fun b hb => h b b (.of_segments hb)
  catchLeave := .catchLeave
  passed h := h
  passing := .bind
  updated index _ _ h := by
    refine .bind (hR.lasts_update ?_ ?_) fun _ => .bind always_state fun _ => h _
    all_goals intro m; rw [loopUpdated_eq]
    exact ⟨rfl, rfl, rfl, rfl⟩
  looped start _ _ h := by
    refine .catchLeave (hR.bracket h ?_ ?_ ?_ ?_)
    all_goals intro m; first | rw [loopEntered_eq] | rw [loopExited_eq]
    all_goals exact ⟨rfl, rfl, rfl, rfl⟩

def Footprint.streamWalk (hR : Footprint allowed R) (names : String → Prop) :
    StreamWalk Exec Exec where
  toPairing := alwaysPairing (Lasts names allowed R)
  token t u := t = u ∧ ∀ name, t.name? = some name → names name
  lexeme h := by rw [h.1]
  next hnone hsome := hR.lasts_nextToken? hnone fun t ht => hsome t t ⟨rfl, ht⟩
  located _ _ _ h := .bind (hR.lasts_update (fun _ => ⟨rfl, rfl, rfl, rfl⟩) fun _ => rfl) fun _ => h
  stray _ _ := .bind (hR.lasts_update (fun _ => ⟨rfl, rfl, rfl, rfl⟩) fun _ => rfl) fun _ =>
    always_raise _
  push c := hR.lasts (push_keeps c) (unmoved_push c)
  write text := hR.lasts (write_keeps text) (unmoved_write text)

section Runner

variable {runner : Runner} (hR : Footprint allowed R)
  (hr : ∀ {tokens}, TokensWithin names tokens → Always (Lasts names allowed R) (runner tokens))

include hR hr

theorem lasts_primitive {p : Primitive} (hp : allowed p) (steps : Nat) :
    Always (Lasts names allowed R) (p.run runner steps) := by
  cases p with
  | flow word =>
    by_cases hword : word = .leave
    · rw [hword]
      exact always_raise _
    · have hrun : (hR.blockWalk names).rel (word.run runner steps) (word.run runner steps) :=
        (hR.blockWalk names).run (fun h => hr h.2) (.refl steps) hword
      exact hrun
  | _ =>
    exact lasts_of_keeps hR.constant (F := LoopFrames.Same)
      (primitive_keeps (fun _ h => by cases h) runner steps)
      (hR.primitive hp (fun _ h => by cases h) runner steps)

omit hr in
/-- The check after a defined word empties the return stack only where that does not matter. -/
theorem all_checkReturns {m m₁ : Machine} (hm₁ : m₁.Confined names allowed) (h : R m m₁)
    (name : String) : (checkReturns name m.returns.depth m₁).All fun m' =>
      m'.Confined names allowed ∧ R m m' := by
  change ((if m₁.returns.depth = m.returns.depth then pure () else _ : Exec Unit) m₁).All _
  by_cases hdepth : m₁.returns.depth = m.returns.depth
  · rw [if_pos hdepth]
    exact ⟨hm₁, h⟩
  · rw [if_neg hdepth]
    have hclear := (hR.balanced h).resolve_left hdepth
    exact ⟨⟨hm₁.within, hm₁.stream⟩, IsTrans.trans _ _ _ h hclear⟩

theorem lasts_runBody (name : String) {body : List Token} (hbody : TokensWithin names body) :
    Always (Lasts names allowed R) (runBody runner name body) := by
  have henclosed : Always (Lasts names allowed R) (enclosed runner body) :=
    hR.bracket (hr hbody) (fun _ => ⟨rfl, rfl, rfl, rfl⟩) (fun _ => ⟨rfl, rfl, rfl, rfl⟩)
      (fun _ => rfl) fun _ => rfl
  apply always_lasts
  intro m hm
  rcases Nat.lt_or_ge m.depth m.config.callLimit with hlimit | hlimit
  · have hcall := henclosed m
    rw [runBody_shallow hlimit]
    simp only [Bind.bind]
    cases henclosed : enclosed runner body m with
    | done a m₁ =>
      rw [henclosed] at hcall
      obtain ⟨hm₁, h⟩ := hcall hm
      exact all_checkReturns hR hm₁ h name
    | failed f m₁ =>
      rw [henclosed] at hcall
      exact hcall hm
    | unfinished => trivial
  · rw [runBody_deep hlimit]
    exact ⟨hm, Std.Refl.refl m⟩

theorem lasts_runWord (steps : Nat) (location : Location) {w : Word}
    (hprimitive : ∀ p, w.action = .primitive p → allowed p)
    (hbody : ∀ body, w.action = .body body → TokensWithin names body) :
    Always (Lasts names allowed R) (runWord runner steps location w) := by
  have haction : Always (Lasts names allowed R) (runAction runner steps w) := by
    unfold runAction
    split
    · next p hp => exact lasts_primitive hR hr (hprimitive p hp) steps
    · next tokens htokens => exact lasts_runBody hR hr w.name (hbody tokens htokens)
  exact hR.bracket haction (fun _ => ⟨rfl, rfl, rfl, rfl⟩) (fun _ => ⟨rfl, rfl, rfl, rfl⟩)
    (fun _ => rfl) fun _ => rfl

/-- A name within the names means a word that is within reach, or no word. -/
theorem lasts_meaning (steps : Nat) (location : Location) {name : String} (hname : names name)
    {rest : Exec Unit} (hrest : Always (Lasts names allowed R) rest) :
    Always (Lasts names allowed R) (state >>= fun m =>
      runMeaning (Invocation.run runner) steps location name rest (m.meaning name)) := by
  have hpush (c : Cell) : Always (Lasts names allowed R) (push c >>= fun _ => rest) :=
    .bind (hR.lasts (push_keeps c) (unmoved_push c)) fun _ => hrest
  apply always_lasts
  intro m hm
  change (runMeaning (Invocation.run runner) steps location name rest (m.meaning name) m).All _
  cases hmeaning : m.meaning name with
  | address value => exact (hpush value m).imp fun _ h => h hm
  | number value => exact (hpush value m).imp fun _ h => h hm
  | unknown => exact (hR.lasts (write_keeps _) (unmoved_write _) m).imp fun _ h => h hm
  | word w =>
    obtain ⟨hmem, hw⟩ := Dictionary.get?_eq_some (meaning_eq_word hmeaning)
    obtain ⟨hprimitive, hbody⟩ := hm.within w hmem (hw ▸ hname)
    have hword := lasts_runWord hR hr steps location hprimitive hbody
    exact (Always.bind hword (fun _ => hrest) m).imp fun _ h => h hm

theorem lasts_runStream (steps : Nat) :
    Always (Lasts names allowed R) (runStream runner steps) := by
  have hrun : (hR.streamWalk names).rel (runStream runner steps) (runStream runner steps) := by
    refine (hR.streamWalk names).run ?_ (.refl steps)
    intro n k t u name rest rest' _ ht hlexeme hrest
    exact lasts_meaning hR hr n t.location (ht.2 name (by rw [Token.name?, hlexeme])) hrest
  exact hrun

end Runner

/-- A relation that the primitives within reach keep holds between the machines before and after a
run, by induction on the steps. -/
theorem Footprint.all_runTokens (hR : Footprint allowed R) (n : Nat) {tokens : List Token}
    (htokens : TokensWithin names tokens) {m : Machine}
    (hm : m.dictionary.Within names allowed) : (runTokens n tokens m).All (R m) := by
  induction n generalizing tokens m with
  | zero => trivial
  | succ n ih =>
    have hr {tokens : List Token} (htokens : TokensWithin names tokens) :
        Always (Lasts names allowed R) (runTokens n tokens) := by
      apply always_lasts
      intro m hm
      apply ((runTokens_restored n tokens m).and (ih htokens hm.within)).imp
      rintro m' ⟨hkept, hrel⟩
      exact ⟨hm.keeps hR.constant hkept.toKeeps, hrel⟩
    have hentered : (streamEntered tokens m).Confined names allowed := by
      refine ⟨hm, ?_⟩
      intro s hs
      cases hs
      exact htokens
    have hstream :
        ((runStream (runTokens n) n).after streamExited (streamEntered tokens m)).All (R m) := by
      rw [all_after]
      refine (lasts_runStream hR hr n (streamEntered tokens m)).imp fun m' hm' => ?_
      have hfirst : R m (streamEntered tokens m) := hR.unmoved ⟨rfl, rfl, rfl, rfl⟩
      have hlast : R m' (streamExited m') := hR.unmoved ⟨rfl, rfl, rfl, rfl⟩
      exact IsTrans.trans _ _ _ (IsTrans.trans _ _ _ hfirst (hm' hentered).2) hlast
    change (((runStream (runTokens n) n).after streamExited).onFault (fun f => !f.isLeave) cleared
      (streamEntered tokens m)).All (R m)
    apply all_onFault hstream
    intro m' hm'
    have hcleared : R m' (cleared m') := hR.unmoved ⟨rfl, rfl, rfl, rfl⟩
    exact IsTrans.trans _ _ _ hm' hcleared

end Run

end Machine

namespace Holding

theorem footprint (part : Holding) : Footprint (fun p => part.changedBy p = false) part.Same where
  constant value := by cases part <;> rfl
  unmoved h := h.same part
  primitive hp hflow runner steps := same_primitive hp hflow runner steps
  balanced {m m'} h := by
    cases part with
    | returns =>
      have hreturns : m'.returns = m.returns := h
      exact .inl (congrArg Stack.depth hreturns)
    | _ => exact .inr rfl

/-- A run that reaches none of the words that change a part leaves the part as it was. -/
theorem same_of_leaves (part : Holding) {m m' : Machine} {tokens : List Token} {n : Nat}
    (hstandard : m.dictionary.Standard) (hend : (runTokens n tokens m).Leaves m')
    (hnames : ∀ name ∈ part.changers, ¬ m.dictionary.Reaches tokens name) : part.Same m m' := by
  have hwithin := (hstandard.within hnames).imp fun _ => changedBy_of_allows
  have hall := part.footprint.all_runTokens n (m.dictionary.tokensWithin_reaches tokens) hwithin
  exact hall.of_leaves hend

end Holding

/-- Each of the four parts of a machine is changed only by words that are meant to change it: a run
that reaches none of them leaves the part as it was, however it ends. -/
theorem Machine.runTokens_changes_only_named {m m' : Machine} {tokens : List Token} {n : Nat}
    (hstandard : m.dictionary.Standard) (hend : (runTokens n tokens m).Leaves m') :
    ((∀ name ∈ ["CONSTANT", "FORGET"], ¬ m.dictionary.Reaches tokens name) →
      m'.dictionary = m.dictionary) ∧
    ((∀ name ∈ ["VARIABLE", "!"], ¬ m.dictionary.Reaches tokens name) → m'.memory = m.memory) ∧
    ((∀ name ∈ ["HEX", "OCTAL", "DECIMAL", "BINARY"], ¬ m.dictionary.Reaches tokens name) →
      m'.radix = m.radix) ∧
    ((∀ name ∈ [">R", "R>", "CLEAR"], ¬ m.dictionary.Reaches tokens name) →
      m'.returns = m.returns) :=
  ⟨Holding.dictionary.same_of_leaves hstandard hend, Holding.memory.same_of_leaves hstandard hend,
    Holding.radix.same_of_leaves hstandard hend, Holding.returns.same_of_leaves hstandard hend⟩

/-- A word that loops and then divides by zero, on a machine with a variable, another radix and a
cell on the return stack. -/
theorem Machine.runTokens_changes_only_named_division :
    let w : Word := ⟨"W", .body [⟨.number 3, {}⟩, ⟨.number 0, {}⟩, ⟨.word "DO", {}⟩,
      ⟨.word "I", {}⟩, ⟨.word "LOOP", {}⟩, ⟨.number 0, {}⟩, ⟨.word "/", {}⟩], none, "", ""⟩
    let m : Machine := { bare {} with
      dictionary := (bare {}).dictionary.add w
      memory := ((Variables.empty 1000).allocate "V").2
      radix := 16
      returns := ⟨[7], 0⟩ }
    ∃ m', (runTokens 20 [⟨.word "W", {}⟩] m).Leaves m' ∧ m'.dictionary = m.dictionary ∧
      m'.memory = m.memory ∧ m'.radix = m.radix ∧ m'.returns = m.returns := by
  intro w m
  have hends : runTokens 20 [⟨.word "W", {}⟩] m ≠ .unfinished := by decide +kernel
  obtain ⟨m', hend⟩ := Outcome.exists_leaves hends
  have hstandard : m.dictionary.Standard := by
    intro v hv p hp
    rcases List.mem_cons.mp hv with rfl | hv
    · cases hp
    · exact bare_standard {} v hv p hp
  have hreach {name : String} (h : m.dictionary.Reaches [⟨.word "W", {}⟩] name) :
      name ∈ ["W", "DO", "I", "LOOP", "/"] := by
    apply h.of_closed (· ∈ ["W", "DO", "I", "LOOP", "/"])
    · decide
    · intro v hv _ body hbody
      rcases List.mem_cons.mp hv with rfl | hv
      · cases hbody
        decide
      · exact absurd hbody (bare_ne_body hv body)
  have hother (names : List String)
      (hnames : ∀ name ∈ names, name ∉ ["W", "DO", "I", "LOOP", "/"]) :
      ∀ name ∈ names, ¬ m.dictionary.Reaches [⟨.word "W", {}⟩] name :=
    fun name hname h => hnames name hname (hreach h)
  obtain ⟨hdictionary, hmemory, hradix, hreturns⟩ := runTokens_changes_only_named hstandard hend
  exact ⟨m', hend, hdictionary (hother _ (by decide)), hmemory (hother _ (by decide)),
    hradix (hother _ (by decide)), hreturns (hother _ (by decide))⟩

end TokenForth

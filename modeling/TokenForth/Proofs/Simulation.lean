import TokenForth.Proofs.Bookkeeping

/-!
# Runs that keep step

When two machines are related, and each operation of the engine keeps them related, then two runs
of the engine on them keep step. An `Accord` names the relation on machines, on tokens and on
faults, with what each operation owes; what loops and calls do is shown from it here. In a
`Simulation` the streams are read token by token, and the induction over token lists is here as well.
-/
namespace TokenForth

open Exec Machine

/-- A scan finds the same block in tokens that play the same roles. -/
theorem Vocabulary.scanFrom_sameRoles (v : Vocabulary) {token : Token → Token → Prop}
    (hrole : ∀ {t u}, token t u → v.role t = v.role u) (depth : Nat) {ts us : List Token}
    (h : List.Forall₂ token ts us) :
    Option.Rel (fun p q => p.1.Related token (List.Forall₂ token) q.1 ∧ List.Forall₂ token p.2 q.2)
      (v.scanFrom depth ts) (v.scanFrom depth us) := by
  let R := Block.Related token (List.Forall₂ token)
  let found (p q : Block × List Token) := R p.1 q.1 ∧ List.Forall₂ token p.2 q.2
  have hmap {f g : Block → Block} (hfg : ∀ b b', R b b' → R (f b) (g b'))
      {o o' : Option (Block × List Token)} (ho : Option.Rel found o o') :
      Option.Rel found (o.map fun p => (f p.1, p.2)) (o'.map fun p => (g p.1, p.2)) := by
    cases ho with
    | none => exact .none
    | some hb => exact .some ⟨hfg _ _ hb.1, hb.2⟩
  have hprepend {t u : Token} (htu : token t u) (b b' : Block) (hb : R b b') :
      R (b.prepend t) (b'.prepend u) := ⟨.cons htu hb.first, hb.parts, hb.closer⟩
  have hsplit {t u : Token} (htu : token t u) (b b' : Block) (hb : R b b') :
      R (b.split t) (b'.split u) := ⟨.nil, .cons ⟨htu, hb.first⟩ hb.parts, hb.closer⟩
  induction h generalizing depth with
  | nil => exact .none
  | @cons t u ts us htu hrest ih =>
    unfold scanFrom
    rw [hrole htu]
    cases v.role u with
    | opens => exact hmap (hprepend htu) (ih (depth + 1))
    | plain => exact hmap (hprepend htu) (ih depth)
    | closes =>
      cases depth with
      | zero => exact .some ⟨⟨.nil, .nil, htu⟩, hrest⟩
      | succ depth => exact hmap (hprepend htu) (ih depth)
    | separates =>
      cases depth with
      | zero => exact hmap (hsplit htu) (ih 0)
      | succ depth => exact hmap (hprepend htu) (ih (depth + 1))

section Tokens

variable {token : Token → Token → Prop} (hlexeme : ∀ {t u}, token t u → t.lexeme = u.lexeme)

include hlexeme

theorem name?_related {t u : Token} (h : token t u) : t.name? = u.name? := by
  simp only [Token.name?, hlexeme h]

theorem Vocabulary.role_related (v : Vocabulary) {t u : Token} (h : token t u) :
    v.role t = v.role u := by
  simp only [Vocabulary.role, name?_related hlexeme h]

theorem Vocabulary.scanFrom_related (v : Vocabulary) (depth : Nat) {ts us : List Token}
    (h : List.Forall₂ token ts us) :
    Option.Rel (fun p q => p.1.Related token (List.Forall₂ token) q.1 ∧ List.Forall₂ token p.2 q.2)
      (v.scanFrom depth ts) (v.scanFrom depth us) :=
  v.scanFrom_sameRoles (v.role_related hlexeme) depth h

theorem withIndex_related
    (hnumber : ∀ {t u}, token t u → ∀ c, token ⟨.number c, t.location⟩ ⟨.number c, u.location⟩)
    (indices : List Cell) {t u : Token} (h : token t u) :
    token (t.withIndex indices) (u.withIndex indices) := by
  unfold Token.withIndex
  rw [name?_related hlexeme h]
  cases u.name?.bind (loopIndex? indices) with
  | none => exact h
  | some index => exact hnumber h index

theorem substituteFrom_related
    (hnumber : ∀ {t u}, token t u → ∀ c, token ⟨.number c, t.location⟩ ⟨.number c, u.location⟩)
    (indices : List Cell) (depth : Nat) {ts us : List Token} (h : List.Forall₂ token ts us) :
    List.Forall₂ token (substituteFrom indices depth ts) (substituteFrom indices depth us) := by
  induction h generalizing depth with
  | nil => exact .nil
  | @cons t u ts us htu hrest ih =>
    have hleaf : token (if depth = 0 then t.withIndex indices else t)
        (if depth = 0 then u.withIndex indices else u) := by
      by_cases hd : depth = 0
      · simpa only [hd, if_true] using withIndex_related hlexeme hnumber indices htu
      · simpa only [hd, if_false] using htu
    unfold substituteFrom
    rw [Vocabulary.role_related hlexeme _ htu]
    cases Vocabulary.counted.role u with
    | opens => exact .cons htu (ih _)
    | closes => exact .cons htu (ih _)
    | separates | plain => exact .cons hleaf (ih _)

end Tokens

/-- Meanings that correspond: related words share their name, and their actions are the same
primitive or bodies that correspond. -/
inductive Machine.Meaning.Related (tokens : List Token → List Token → Prop)
    (primitive : Primitive → Prop) : Meaning → Meaning → Prop
  | address (value : Cell) : Related tokens primitive (.address value) (.address value)
  | number (value : Cell) : Related tokens primitive (.number value) (.number value)
  | unknown : Related tokens primitive .unknown .unknown
  | primitive {w w' : Word} {p : Primitive} (hname : w.name = w'.name)
    (hw : w.action = .primitive p) (hw' : w'.action = .primitive p) (hp : primitive p) :
    Related tokens primitive (.word w) (.word w')
  | body {w w' : Word} {ts us : List Token} (hname : w.name = w'.name) (hw : w.action = .body ts)
    (hw' : w'.action = .body us) (h : tokens ts us) : Related tokens primitive (.word w) (.word w')

/-- A relation between machines, with the tokens, token lists, faults and lists of streams that
correspond. After a fault that is `lost` nothing more is asked of the second machine. -/
structure Coupling where
  rel : Machine → Machine → Prop
  token : Token → Token → Prop
  tokens : List Token → List Token → Prop
  fault : Fault → Fault → Prop
  lost : Fault → Prop
  nested : List TokenStream → List TokenStream → Prop
  lexeme : ∀ {t u}, token t u → t.lexeme = u.lexeme
  raised : ∀ {m m'}, rel m m' → ∀ c, fault (m.fault c) (m'.fault c)
  streams : ∀ {m m'}, rel m m' → nested m.streams m'.streams
  streamed : ∀ {rest rest' ss ss'}, tokens rest rest' → nested ss ss' →
    nested (⟨rest⟩ :: ss) (⟨rest'⟩ :: ss')
  restreamed : ∀ {m m' ss ss'}, rel m m' → nested ss ss' →
    rel { m with streams := ss } { m' with streams := ss' }
  exhausted : tokens [] []
  scanned : ∀ (v : Vocabulary) {ts us}, tokens ts us →
    Option.Rel (fun p q => p.1.Related token tokens q.1 ∧ tokens p.2 q.2) (v.scan ts) (v.scan us)

namespace Coupling

theorem nested_of_eq {rest rest' : List Token} {ss ss' : List TokenStream}
    (hrest : List.Forall₂ Eq rest rest') (hss : ss = ss') : ⟨rest⟩ :: ss = ⟨rest'⟩ :: ss' := by
  rw [List.forall₂_eq_eq_eq] at hrest
  rw [hrest, hss]

theorem exhausted_of_eq : List.Forall₂ (@Eq Token) [] [] := .nil

theorem scanned_of_eq (v : Vocabulary) {ts us : List Token} (h : List.Forall₂ Eq ts us) :
    Option.Rel (fun p q => p.1.Related Eq (List.Forall₂ Eq) q.1 ∧ List.Forall₂ Eq p.2 q.2)
      (v.scan ts) (v.scan us) := v.scanFrom_related (congrArg Token.lexeme) 0 h

/-- Related machines whose innermost streams hold corresponding tokens, while nothing but the order
of nesting is known of the streams further out. -/
def At (C : Coupling) (outer outer' : List TokenStream) (m m' : Machine) : Prop :=
  C.rel m m' ∧ C.nested outer outer' ∧ ∃ rest rest', m.streams = ⟨rest⟩ :: outer ∧
    m'.streams = ⟨rest'⟩ :: outer' ∧ C.tokens rest rest'

/-- Token lists that are both over or start with corresponding tokens. -/
inductive Front (C : Coupling) : List Token → List Token → Prop
  | nil : Front C [] []
  | cons {t u : Token} {ts us : List Token} (ht : C.token t u) (hts : C.tokens ts us) :
    Front C (t :: ts) (u :: us)

def AtFront (C : Coupling) (outer outer' : List TokenStream) (m m' : Machine) : Prop :=
  C.At outer outer' m m' ∧ ∃ rest rest', m.streams = ⟨rest⟩ :: outer ∧
    m'.streams = ⟨rest'⟩ :: outer' ∧ C.Front rest rest'

/-- Lists that correspond token by token. -/
theorem Front.of_forall₂ {C : Coupling} {ts us : List Token}
    (htokens : ∀ {ts us}, List.Forall₂ C.token ts us → C.tokens ts us)
    (h : List.Forall₂ C.token ts us) : C.Front ts us := by
  cases h with
  | nil => exact .nil
  | cons ht hts => exact .cons ht (htokens hts)

variable (C : Coupling)

/-- Two actions that keep related machines related and end in the same way. -/
def InStep {α β : Type} (value : α → β → Prop) (act : Exec α) (act' : Exec β) : Prop :=
  ∀ outer outer', Relates C.lost (C.At outer outer') (fun a m b m' => value a b ∧ C.At outer outer' m m')
    (fun f m g m' => C.fault f g ∧ C.At outer outer' m m') act act'

abbrev Follows (act act' : Exec Unit) : Prop := C.InStep (fun _ _ => True) act act'

/-- `InStep` for actions that are carried out where corresponding tokens are read next. -/
def FrontStep {α β : Type} (value : α → β → Prop) (act : Exec α) (act' : Exec β) : Prop :=
  ∀ outer outer', Relates C.lost (C.AtFront outer outer')
    (fun a m b m' => value a b ∧ C.At outer outer' m m')
    (fun f m g m' => C.fault f g ∧ C.At outer outer' m m') act act'

variable {C} {α β γ δ : Type} {value : α → β → Prop} {value' : γ → δ → Prop}

theorem inStep_unfinished {act' : Exec β} : C.InStep value (unfinished : Exec α) act' :=
  fun _ _ => relates_unfinished

theorem inStep_pure {a : α} {b : β} (h : value a b) : C.InStep value (pure a) (pure b) :=
  fun _ _ => relates_pure fun _ _ hm => ⟨h, hm⟩

theorem inStep_raise (cause : Fault.Cause) : C.InStep value (raise cause) (raise cause) :=
  fun _ _ => relates_raise fun _ _ hm => ⟨C.raised hm.1 cause, hm⟩

theorem At.update {outer outer' : List TokenStream} {m m' : Machine} (hm : C.At outer outer' m m')
    {change change' : Machine → Machine} (h : ∀ m m', C.rel m m' → C.rel (change m) (change' m'))
    (hstreams : ∀ m, (change m).streams = m.streams)
    (hstreams' : ∀ m, (change' m).streams = m.streams) :
    C.At outer outer' (change m) (change' m') := by
  obtain ⟨hrel, houter, rest, rest', hs, hs', hrest⟩ := hm
  exact ⟨h m m' hrel, houter, rest, rest', (hstreams m).trans hs, (hstreams' m').trans hs', hrest⟩

theorem follows_update {change change' : Machine → Machine}
    (h : ∀ m m', C.rel m m' → C.rel (change m) (change' m'))
    (hstreams : ∀ m, (change m).streams = m.streams)
    (hstreams' : ∀ m, (change' m).streams = m.streams) :
    C.Follows (update change) (update change') :=
  fun _ _ => relates_update fun _ _ hm => ⟨trivial, hm.update h hstreams hstreams'⟩

theorem InStep.imp {value' : α → β → Prop} {act : Exec α} {act' : Exec β}
    (h : C.InStep value act act') (hvalue : ∀ a b, value a b → value' a b) :
    C.InStep value' act act' :=
  fun outer outer' => (h outer outer').imp fun a _ b _ hab => ⟨hvalue a b hab.1, hab.2⟩

theorem InStep.bind {act : Exec α} {act' : Exec β} {next : α → Exec γ} {next' : β → Exec δ}
    (h : C.InStep value act act')
    (hnext : ∀ a b, value a b → C.InStep value' (next a) (next' b)) :
    C.InStep value' (act >>= next) (act' >>= next') :=
  fun outer outer' => Relates.bind (h outer outer') fun a b m m' hm =>
    hnext a b hm.1 outer outer' m m' hm.2

theorem InStep.after {act : Exec α} {act' : Exec β} {leave leave' : Machine → Machine}
    (h : C.InStep value act act') (hleave : ∀ m m', C.rel m m' → C.rel (leave m) (leave' m'))
    (hstreams : ∀ m, (leave m).streams = m.streams)
    (hstreams' : ∀ m, (leave' m).streams = m.streams) :
    C.InStep value (act.after leave) (act'.after leave') := by
  intro outer outer'
  have hat {m m' : Machine} (hm : C.At outer outer' m m') := hm.update hleave hstreams hstreams'
  exact (h outer outer').after (fun _ _ _ _ h => ⟨h.1, hat h.2⟩) fun _ _ _ _ h => ⟨h.1, hat h.2⟩

theorem InStep.state {next : Machine → Exec α} {next' : Machine → Exec β}
    (h : ∀ m m', C.rel m m' → C.InStep value (next m) (next' m')) :
    C.InStep value (Exec.state >>= next) (Exec.state >>= next') :=
  fun outer outer' m m' hm => h m m' hm.1 outer outer' m m' hm

theorem At.withRest {outer outer' : List TokenStream} {m m' : Machine} (hm : C.At outer outer' m m')
    {rest rest' : List Token} (h : C.tokens rest rest') :
    C.At outer outer' (m.withRest rest) (m'.withRest rest') := by
  obtain ⟨hrel, houter, _, _, hs, hs', _⟩ := hm
  refine ⟨C.restreamed hrel (C.streamed h ?_), houter, rest, rest', streams_withRest hs rest,
    streams_withRest hs' rest', h⟩
  rwa [hs, hs']

theorem FrontStep.bind {act : Exec α} {act' : Exec β} {next : α → Exec γ} {next' : β → Exec δ}
    (h : C.FrontStep value act act')
    (hnext : ∀ a b, value a b → C.InStep value' (next a) (next' b)) :
    C.FrontStep value' (act >>= next) (act' >>= next') :=
  fun outer outer' => Relates.bind (h outer outer') fun a b m m' hm =>
    hnext a b hm.1 outer outer' m m' hm.2

theorem FrontStep.after {act : Exec α} {act' : Exec β} {leave leave' : Machine → Machine}
    (h : C.FrontStep value act act') (hleave : ∀ m m', C.rel m m' → C.rel (leave m) (leave' m'))
    (hstreams : ∀ m, (leave m).streams = m.streams)
    (hstreams' : ∀ m, (leave' m).streams = m.streams) :
    C.FrontStep value (act.after leave) (act'.after leave') := by
  intro outer outer'
  have hat {m m' : Machine} (hm : C.At outer outer' m m') := hm.update hleave hstreams hstreams'
  exact (h outer outer').after (fun _ _ _ _ h => ⟨h.1, hat h.2⟩) fun _ _ _ _ h => ⟨h.1, hat h.2⟩

/-- An action that reads no token leaves corresponding tokens to be read next. -/
theorem InStep.bind_front {act : Exec α} {act' : Exec β} {next : α → Exec γ} {next' : β → Exec δ}
    (h : C.InStep value act act') (hkeep : ∀ {m a m₁}, act m = .done a m₁ → m₁.streams = m.streams)
    (hkeep' : ∀ {m b m₁}, act' m = .done b m₁ → m₁.streams = m.streams)
    (hnext : ∀ a b, value a b → C.FrontStep value' (next a) (next' b)) :
    C.FrontStep value' (act >>= next) (act' >>= next') := by
  rintro outer outer' m m' ⟨hm, rest, rest', hs, hs', hfront⟩
  have ho := h outer outer' m m' hm
  simp only [Bind.bind]
  generalize hact : act m = o, hact' : act' m' = o' at ho ⊢
  cases ho with
  | done hab =>
    apply hnext _ _ hab.1 outer outer'
    exact ⟨hab.2, rest, rest', (hkeep hact).trans hs, (hkeep' hact').trans hs', hfront⟩
  | failed hf => exact .failed hf
  | lost hf => exact .lost hf
  | unfinished => exact .unfinished

/-- Where corresponding tokens are always read next, nothing special is asked. -/
theorem FrontStep.inStep {act : Exec α} {act' : Exec β} (h : C.FrontStep value act act')
    (hfront : ∀ {ts us}, C.tokens ts us → C.Front ts us) : C.InStep value act act' := by
  intro outer outer' m m' hm
  apply h outer outer' m m'
  obtain ⟨-, -, rest, rest', hs, hs', hrest⟩ := id hm
  exact ⟨hm, rest, rest', hs, hs', hfront hrest⟩

theorem frontStep_nextToken? : C.FrontStep (Option.Rel C.token) nextToken? nextToken? := by
  rintro outer outer' m m' ⟨hm, rest, rest', hs, hs', hfront⟩
  cases hfront with
  | nil =>
    rw [nextToken?_done hs, nextToken?_done hs']
    exact .done ⟨.none, hm⟩
  | cons ht hrest =>
    rw [nextToken?_cons hs, nextToken?_cons hs']
    exact .done ⟨.some ht, hm.withRest hrest⟩

theorem inStep_takeBlock (v : Vocabulary) :
    C.InStep (Block.Related C.token C.tokens) (Flow.takeBlock v) (Flow.takeBlock v) := by
  intro outer outer' m m' hm
  obtain ⟨hrel, -, rest, rest', hs, hs', hrest⟩ := id hm
  have hscan := C.scanned v hrest
  cases hb : v.scan rest <;> cases hb' : v.scan rest' <;> rw [hb, hb'] at hscan <;> cases hscan
  · rw [takeBlock_none hs hb, takeBlock_none hs' hb']
    exact .failed ⟨C.raised hrel _, hm.withRest C.exhausted⟩
  · next hblock =>
    rw [takeBlock_some hs hb, takeBlock_some hs' hb']
    exact .done ⟨hblock.1, hm.withRest hblock.2⟩

def Named (token : Token → Token → Prop) (p q : String × Location) : Prop :=
  ∃ name t u, token t u ∧ t.lexeme = .word name ∧ p = (name, t.location) ∧ q = (name, u.location)

theorem frontStep_nextName : C.FrontStep (Named C.token) nextName nextName := by
  have hnext : C.FrontStep C.token nextToken nextToken := by
    refine .bind frontStep_nextToken? fun o o' ho => ?_
    cases ho with
    | none => exact inStep_raise _
    | some ht => exact inStep_pure ht
  refine .bind hnext fun t u ht => ?_
  rw [← C.lexeme ht]
  split
  · next name hname => exact inStep_pure ⟨name, t, u, ht, hname, rfl, rfl⟩
  · exact inStep_raise _

theorem frontStep_nextMessage : C.FrontStep Eq nextMessage nextMessage := by
  rintro outer outer' m m' ⟨hm, rest, rest', hs, hs', hfront⟩
  cases hfront with
  | nil =>
    rw [nextMessage_other hs (by simp), nextMessage_other hs' (by simp)]
    exact .done ⟨rfl, hm⟩
  | @cons t u rest rest' ht hrest =>
    have hlexeme := C.lexeme ht
    obtain ⟨lexeme, location⟩ := t
    obtain ⟨lexeme', location'⟩ := u
    cases hlexeme
    by_cases hquote : ∃ text, lexeme = .quote text
    · obtain ⟨text, rfl⟩ := hquote
      rw [nextMessage_quote hs, nextMessage_quote hs']
      exact .done ⟨rfl, hm.withRest hrest⟩
    · have hother : ∀ text, lexeme ≠ .quote text := fun text h => hquote ⟨text, h⟩
      rw [nextMessage_other hs (by simp [hother]), nextMessage_other hs' (by simp [hother])]
      exact .done ⟨rfl, hm⟩

theorem frontStep_declare (h : ∀ {m m' : Machine} (name : String), C.rel m m' →
      C.rel { m with memory := (m.memory.allocate name).2 }
        { m' with memory := (m'.memory.allocate name).2 }) :
    C.FrontStep (fun _ _ => True) (Storage.run .declare) (Storage.run .declare) := by
  refine .bind frontStep_nextName fun _ _ hname => ?_
  obtain ⟨name, t, u, -, -, rfl, rfl⟩ := hname
  have hallocate : C.InStep (fun _ _ => True) (allocate name) (allocate name) :=
    fun _ _ _ _ hm => .done ⟨trivial, h name hm.1, hm.2⟩
  exact .bind hallocate fun _ _ _ => inStep_pure trivial

theorem frontStep_constant (hpop : C.InStep Eq pop pop)
    (h : ∀ {t u name}, C.token t u → t.lexeme = .word name → ∀ value,
      C.Follows (addWord ⟨name, .primitive (.literal value), some t.location, "Constant value.", " -- value"⟩)
        (addWord ⟨name, .primitive (.literal value), some u.location, "Constant value.", " -- value"⟩)) :
    C.FrontStep (fun _ _ => True) (Storage.run .constant) (Storage.run .constant) := by
  refine .bind frontStep_nextName fun _ _ hname => ?_
  obtain ⟨name, t, u, ht, hname, rfl, rfl⟩ := hname
  refine .bind hpop fun value _ hvalue => ?_
  subst hvalue
  exact h ht hname value

theorem frontStep_forget (h : ∀ name, C.Follows (forgetWord name) (forgetWord name)) :
    C.FrontStep (fun _ _ => True) (Listing.run .forget) (Listing.run .forget) := by
  refine .bind frontStep_nextName fun _ _ hname => ?_
  obtain ⟨name, t, u, -, -, rfl, rfl⟩ := hname
  exact h name

theorem frontStep_see (hwrite : ∀ text, C.Follows (write text) (write text))
    (h : ∀ name, C.InStep (fun w w' => w.render = w'.render) (findWord name) (findWord name)) :
    C.FrontStep (fun _ _ => True) (Listing.run .see) (Listing.run .see) := by
  refine .bind frontStep_nextName fun _ _ hname => ?_
  obtain ⟨name, t, u, -, -, rfl, rfl⟩ := hname
  refine .bind (h name) fun w w' hw => ?_
  rw [hw]
  exact hwrite _

theorem inStep_popFlag (hpop : C.InStep Eq pop pop) : C.InStep Eq popFlag popFlag :=
  .bind hpop fun _ _ h => inStep_pure (by rw [h])

theorem streams_of_popFlag {m m₁ : Machine} {flag : Bool} (h : popFlag m = .done flag m₁) :
    m₁.streams = m.streams := by
  simp only [popFlag, pop, Bind.bind] at h
  cases hpop : m.data.pop? with
  | none =>
    rw [hpop] at h
    cases h
  | some popped =>
    rw [hpop] at h
    cases h
    rfl

theorem frontStep_abort (hpop : C.InStep Eq pop pop) :
    C.FrontStep (fun _ _ => True) (Control.run .abort) (Control.run .abort) := by
  refine (inStep_popFlag hpop).bind_front streams_of_popFlag streams_of_popFlag fun flag _ h =>
    .bind frontStep_nextMessage fun message _ h' => ?_
  subst h h'
  split
  · exact inStep_raise _
  · exact inStep_pure trivial

end Coupling

/-- A coupling that all operations of the engine keep. -/
structure Accord extends Coupling where
  primitive : Primitive → Prop
  substituted : ∀ {ts us}, tokens ts us → ∀ indices,
    tokens (substitute indices ts) (substitute indices us)
  leave : ∀ {f g}, fault f g → f.isLeave = g.isLeave
  lost_leave : ∀ f, lost f → f.isLeave = false
  frames : ∀ {m m'}, rel m m' → m.frames = m'.frames
  returns : ∀ {m m'}, rel m m' → m.returns.depth = m'.returns.depth
  shallow : ∀ {m m'}, rel m m' → m.depth < m.config.callLimit → m'.depth < m'.config.callLimit
  tooDeep : ∀ {m m'}, rel m m' → m.config.callLimit ≤ m.depth → ∀ name,
    lost (m.fault (.tooDeep m.config.callLimit name)) ∨
      m'.config.callLimit ≤ m'.depth ∧ m'.config.callLimit = m.config.callLimit
  located : ∀ {m m' t u}, rel m m' → token t u →
    rel { m with location := some t.location } { m' with location := some u.location }
  looped : ∀ {m m' frames}, rel m m' → (m.frames ≠ [] → frames.length = m.frames.length) →
    rel { m with frames := frames } { m' with frames := frames }
  called : ∀ {m m' t u}, rel m m' → token t u → ∀ name,
    rel (callEntered ⟨name, t.location⟩ m) (callEntered ⟨name, u.location⟩ m')
  uncalled : ∀ {m m'}, rel m m' → rel (callExited m) (callExited m')
  entered : ∀ {m m'}, rel m m' → m.depth < m.config.callLimit →
    rel (wordEntered m) (wordEntered m')
  exited : ∀ {m m'}, rel m m' → 0 < m.depth → rel (wordExited m) (wordExited m')
  pushed : ∀ {m m'}, rel m m' → ∀ c, rel (Machine.pushed c m) (Machine.pushed c m')
  written : ∀ {m m'}, rel m m' → ∀ text,
    rel { m with output := m.output ++ text } { m' with output := m'.output ++ text }
  cleared : ∀ {m m' f}, rel m m' → f.isLeave = false →
    lost f ∨ rel (Machine.cleared m) (Machine.cleared m')
  returnsCleared : ∀ {m m'}, rel m m' →
    rel { m with returns := m.returns.clear } { m' with returns := m'.returns.clear }
  popped : toCoupling.InStep Eq pop pop
  run : ∀ {p}, primitive p → (∀ word, p ≠ .flow word) → ∀ (r r' : Runner) (n n' : Nat),
    toCoupling.Follows (p.run r n) (p.run r' n')

namespace Accord

open Coupling

variable {S : Accord}

theorem inStep_catchLeave {act act' : Exec Unit} (h : S.InStep Eq act act') :
    S.InStep Eq act.catchLeave act'.catchLeave := fun outer outer' =>
  (h outer outer').catchLeave S.lost_leave (fun _ _ _ _ hf => S.leave hf.1)
    fun _ _ _ _ hf _ => ⟨rfl, hf.2⟩

theorem follows_push (c : Cell) : S.Follows (push c) (push c) :=
  follows_update (fun _ _ hm => S.pushed hm c) (fun _ => rfl) fun _ => rfl

theorem follows_write (text : String) : S.Follows (write text) (write text) :=
  follows_update (fun _ _ hm => S.written hm text) (fun _ => rfl) fun _ => rfl

theorem follows_callEntered {t u : Token} (ht : S.token t u) {name name' : String}
    (hname : name = name') :
    S.Follows (update (callEntered ⟨name, t.location⟩)) (update (callEntered ⟨name', u.location⟩)) := by
  subst hname
  exact follows_update (fun _ _ hm => S.called hm ht name) (fun _ => rfl) fun _ => rfl

/-- A word whose action reads the next token is called where corresponding tokens are read next. -/
theorem frontStep_runWord {r r' : Runner} {n k : Nat} {t u : Token} (ht : S.token t u) {w w' : Word}
    (hname : w.name = w'.name)
    (h : S.FrontStep (fun _ _ => True) (runAction r n w) (runAction r' k w')) :
    S.FrontStep (fun _ _ => True) (runWord r n t.location w) (runWord r' k u.location w') := by
  refine (follows_callEntered ht hname).bind_front ?_ ?_ fun _ _ _ =>
    h.after (fun _ _ => S.uncalled) (fun _ => rfl) fun _ => rfl
  all_goals
    intro m a m₁ hdone
    cases hdone
    rfl

theorem follows_loopUpdated (index : Cell) : S.Follows (updateLoop index) (updateLoop index) := by
  refine follows_update (fun m m' hm => ?_) ?_ ?_
  · rw [loopUpdated_eq, loopUpdated_eq, ← S.frames hm]
    exact S.looped hm fun _ => List.length_modifyHead
  all_goals exact fun m => by rw [loopUpdated_eq]

theorem follows_loopEntered (index : Cell) : S.Follows (enterLoop index) (enterLoop index) := by
  refine follows_update (fun m m' hm => ?_) ?_ ?_
  · rw [loopEntered_eq, loopEntered_eq, indices, indices, ← S.frames hm]
    refine S.looped hm fun hne => ?_
    obtain ⟨frame, outer, hf⟩ := List.exists_cons_of_ne_nil hne
    simp [hf]
  all_goals exact fun m => by rw [loopEntered_eq]

theorem streams_loopExited (m : Machine) : (loopExited m).streams = m.streams := by
  rw [loopExited_eq]

theorem loopExited_related {m m' : Machine} (hm : S.rel m m') :
    S.rel (loopExited m) (loopExited m') := by
  rw [loopExited_eq, loopExited_eq, ← S.frames hm]
  exact S.looped hm fun _ => List.length_modifyHead

def pairing (S : Accord) : Pairing Exec Exec where
  rel := S.InStep Eq
  patient := True
  patience _ _ := inStep_unfinished
  unfinished := inStep_unfinished
  pure _ := inStep_pure rfl
  bind h hnext := .bind h fun a _ hab => hab ▸ hnext a

def blockWalk (S : Accord) : BlockWalk Exec Exec where
  toPairing := S.pairing
  pass := S.InStep Eq
  token := S.token
  tokens := S.tokens
  lexeme := S.lexeme
  substituted := S.substituted
  raise _ _ := inStep_raise _
  pop := S.popped
  popFlag := inStep_popFlag S.popped
  takeBlock v _ _ h := .bind (inStep_takeBlock v) h
  catchLeave := inStep_catchLeave
  passed h := h
  passing := S.pairing.bind
  updated index _ _ h := .bind (follows_loopUpdated index) fun _ _ _ => .state fun m m' hm => by
    rw [indices, indices, S.frames hm]
    exact h _
  looped start _ _ h := .bind (follows_loopEntered start) fun _ _ _ => inStep_catchLeave <|
    h.after (fun _ _ => loopExited_related) streams_loopExited streams_loopExited

section Runner

variable {r r' : Runner}
  (hr : ∀ {ts us}, S.tokens ts us → S.Follows (r ts) (r' us))

include hr

theorem follows_primitive {p : Primitive} (hp : S.primitive p) {n k : Nat} (hn : n ≤ k) :
    S.Follows (p.run r n) (p.run r' k) := by
  cases p with
  | flow word =>
    by_cases hword : word = .leave
    · rw [hword]
      exact inStep_raise _
    · have hrun : S.InStep Eq (word.run r n) (word.run r' k) :=
        S.blockWalk.run (fun h => (hr h).imp fun _ _ _ => rfl) (.of_le trivial hn) hword
      exact hrun.imp fun _ _ _ => trivial
  | _ => exact S.run hp (fun _ h => by cases h) r r' n k

variable (hrestored : ∀ tokens, Always Restored (r tokens))

include hrestored

theorem matches_enclosed {body body' : List Token} (hbody : S.tokens body body')
    {outer outer' : List TokenStream} {m m' : Machine} (hm : S.At outer outer' m m')
    (hdepth : m.depth < m.config.callLimit) :
    Outcome.Matches S.lost (fun _ m _ m' => S.At outer outer' m m')
      (fun f m g m' => S.fault f g ∧ S.At outer outer' m m') (enclosed r body m)
      (enclosed r' body' m') := by
  have hentered : S.At outer outer' (wordEntered m) (wordEntered m') := ⟨S.entered hm.1 hdepth, hm.2⟩
  have hrun := hr hbody outer outer' _ _ hentered
  have hkeep := hrestored body (wordEntered m)
  have hexited {m₁ m₁' : Machine} (h : S.At outer outer' m₁ m₁') (hm₁ : Restored (wordEntered m) m₁) :
      S.At outer outer' (wordExited m₁) (wordExited m₁') := by
    refine ⟨S.exited h.1 ?_, h.2⟩
    rw [hm₁.depth]
    exact Nat.succ_pos _
  simp only [enclosed_apply, Exec.after]
  generalize r body (wordEntered m) = o, r' body' (wordEntered m') = o' at hrun hkeep ⊢
  cases hrun with
  | done h => exact .done (hexited h.2 hkeep)
  | failed h => exact .failed ⟨h.1, hexited h.2 hkeep⟩
  | lost h => exact .lost h
  | unfinished => exact .unfinished

theorem follows_runBody (name : String) {body body' : List Token}
    (hbody : S.tokens body body') :
    S.Follows (runBody r name body) (runBody r' name body') := by
  have hclear : S.Follows clearReturn clearReturn :=
    follows_update (fun _ _ => S.returnsCleared) (fun _ => rfl) fun _ => rfl
  have hcheck (before : Nat) : S.Follows (checkReturns name before) (checkReturns name before) := by
    refine .state fun m m' hm => ?_
    rw [S.returns hm]
    split
    · exact inStep_pure trivial
    · exact .bind hclear fun _ _ _ => inStep_raise _
  intro outer outer' m m' hm
  rcases Nat.lt_or_ge m.depth m.config.callLimit with h | h
  · rw [runBody_shallow h, runBody_shallow (S.shallow hm.1 h), S.returns hm.1]
    have hcall := matches_enclosed hr hrestored hbody hm h
    simp only [Bind.bind]
    generalize enclosed r body m = o, enclosed r' body' m' = o' at hcall ⊢
    cases hcall with
    | done h => exact hcheck _ outer outer' _ _ h
    | failed h => exact .failed h
    | lost h => exact .lost h
    | unfinished => exact .unfinished
  · rw [runBody_deep h]
    rcases S.tooDeep hm.1 h name with hlost | ⟨h', hlimit⟩
    · exact .lost hlost
    · rw [runBody_deep h', hlimit]
      exact .failed ⟨S.raised hm.1 _, hm⟩

theorem follows_runWord {n k : Nat} (hn : n ≤ k) {t u : Token} (ht : S.token t u) {w w' : Word}
    (hw : Meaning.Related S.tokens S.primitive (.word w) (.word w')) :
    S.Follows (runWord r n t.location w) (runWord r' k u.location w') := by
  have hname : w.name = w'.name := by cases hw <;> assumption
  have haction : S.Follows (runAction r n w) (runAction r' k w') := by
    unfold runAction
    cases hw with
    | primitive _ hw hw' hp => rw [hw, hw']; exact follows_primitive hr hp hn
    | body _ hw hw' h => rw [hw, hw', hname]; exact follows_runBody hr hrestored w'.name h
  exact .bind (follows_callEntered ht hname) fun _ _ _ =>
    haction.after (fun _ _ => S.uncalled) (fun _ => rfl) fun _ => rfl

end Runner

abbrev Runs (S : Accord) (act act' : Exec Unit) : Prop :=
  Relates S.lost S.rel (fun _ m _ m' => S.rel m m') (fun f m g m' => S.fault f g ∧ S.rel m m') act act'

/-- A run within a stream leaves that stream where it was, so the streams still correspond. -/
theorem Runs.follows {act act' : Exec Unit} (h : S.Runs act act') (hact : Always Restored act)
    (hact' : Always Restored act') : S.Follows act act' := by
  rintro outer outer' m m' ⟨hrel, houter, rest, rest', hs, hs', hrest⟩
  have hrun := h m m' hrel
  have hleft := hact m
  have hright := hact' m'
  generalize act m = o, act' m' = o' at hrun hleft hright ⊢
  cases hrun with
  | done h =>
    exact .done ⟨trivial, h, houter, rest, rest', hleft.position.trans hs, hright.position.trans hs', hrest⟩
  | failed h =>
    exact .failed ⟨h.1, h.2, houter, rest, rest', hleft.position.trans hs, hright.position.trans hs', hrest⟩
  | lost h => exact .lost h
  | unfinished => exact .unfinished

/-- Token lists keep step if their streams do. -/
theorem runs_streams {ts us : List Token} (hts : S.tokens ts us) {act act' : Exec Unit}
    (h : ∀ {m m' : Machine}, S.At m.streams m'.streams (streamEntered ts m) (streamEntered us m') →
      Outcome.Matches S.lost (fun _ m₁ _ m₁' => True ∧ S.At m.streams m'.streams m₁ m₁')
        (fun f m₁ g m₁' => S.fault f g ∧ S.At m.streams m'.streams m₁ m₁')
        (act (streamEntered ts m)) (act' (streamEntered us m'))) :
    S.Runs
      (update (streamEntered ts) >>= fun _ =>
        (act.after streamExited).onFault (fun f => !f.isLeave) Machine.cleared)
      (update (streamEntered us) >>= fun _ =>
        (act'.after streamExited).onFault (fun f => !f.isLeave) Machine.cleared) := by
  have hlist : S.Runs (update (streamEntered ts) >>= fun _ => act.after streamExited)
      (update (streamEntered us) >>= fun _ => act'.after streamExited) := by
    intro m m' hm
    have houter := S.streams hm
    have hrun := h ⟨S.restreamed hm (S.streamed hts houter), houter, ts, us, rfl, rfl, hts⟩
    have hexited {m₁ m₁' : Machine} (h : S.At m.streams m'.streams m₁ m₁') :
        S.rel (streamExited m₁) (streamExited m₁') := by
      obtain ⟨hrel, -, rest, rest', hs, hs', -⟩ := h
      refine S.restreamed hrel ?_
      rwa [hs, hs']
    simp only [Bind.bind, update, Exec.after]
    generalize act (streamEntered ts m) = o, act' (streamEntered us m') = o' at hrun ⊢
    cases hrun with
    | done h => exact .done (hexited h.2)
    | failed h => exact .failed ⟨h.1, hexited h.2⟩
    | lost h => exact .lost h
    | unfinished => exact .unfinished
  apply Relates.onFault hlist
  · intro f m g m' hf
    rw [S.leave hf.1]
  · intro f m g m' hf htest
    have hleave : f.isLeave = false := by simpa using htest
    exact (S.cleared hf.2 hleave).imp_right fun h => ⟨hf.1, h⟩

end Accord

/-- An accord under which the streams are read token by token. -/
structure Simulation extends Accord where
  front : ∀ {ts us}, tokens ts us → toCoupling.Front ts us
  meaning : ∀ {m m' t u name}, rel m m' → token t u → t.lexeme = .word name →
    Meaning.Related tokens primitive (m.meaning name) (m'.meaning name)

namespace Simulation

open Coupling Accord

variable {S : Simulation}

theorem follows_located {t u : Token} (ht : S.token t u) :
    S.Follows (update (located t.location)) (update (located u.location)) :=
  follows_update (fun _ _ hm => S.located hm ht) (fun _ => rfl) fun _ => rfl

def streamWalk (S : Simulation) : StreamWalk Exec Exec where
  toPairing := S.pairing
  token := S.token
  lexeme := S.lexeme
  next hnone hsome := .bind (frontStep_nextToken?.inStep S.front) fun o o' ho => by
    cases ho with
    | none => exact hnone
    | some ht => exact hsome _ _ ht
  located ht _ _ h := .bind (follows_located ht) fun _ _ _ => h
  stray ht _ := .bind (follows_located ht) fun _ _ _ => inStep_raise _
  push c := (follows_push c).imp fun _ _ _ => rfl
  write text := (follows_write text).imp fun _ _ _ => rfl

theorem follows_runStreamVia {invoke invoke' : Invocation → Exec Unit}
    (hinvoke : ∀ {n k t u w w'}, n ≤ k → S.token t u →
      Meaning.Related S.tokens S.primitive (.word w) (.word w') →
      S.Follows (invoke ⟨n, t.location, w⟩) (invoke' ⟨k, u.location, w'⟩)) {n k : Nat} (hn : n ≤ k) :
    S.Follows (runStreamVia invoke n) (runStreamVia invoke' k) := by
  have hrun : S.InStep Eq (runStreamVia invoke n) (runStreamVia invoke' k) := by
    refine S.streamWalk.run ?_ (.of_le trivial hn)
    intro n k t u name rest rest' hn ht hname hrest
    refine .state fun m m' hm => ?_
    have hmeaning := S.meaning hm ht hname
    generalize m.meaning name = a, m'.meaning name = a' at hmeaning ⊢
    cases hmeaning with
    | address | number => exact .bind (follows_push _) fun _ _ _ => hrest
    | unknown => exact (follows_write _).imp fun _ _ _ => rfl
    | primitive hname hw hw' hp =>
      exact .bind (hinvoke hn.le ht (.primitive hname hw hw' hp)) fun _ _ _ => hrest
    | body hname hw hw' h =>
      exact .bind (hinvoke hn.le ht (.body hname hw hw' h)) fun _ _ _ => hrest
  exact hrun.imp fun _ _ _ => trivial

/-- Runs on related machines keep step, if what is done before each word does. -/
theorem runs_runWatched {watch watch' : Exec Unit} (hwatch : S.Follows watch watch')
    (hlater : Always Later watch) (hlater' : Always Later watch') {n k : Nat} (hn : n ≤ k)
    {ts us : List Token} (hts : S.tokens ts us) :
    S.Runs (runWatched watch n ts) (runWatched watch' k us) := by
  induction n generalizing k ts us with
  | zero => exact relates_unfinished
  | succ n ih =>
    obtain ⟨k, rfl⟩ : ∃ i, k = i + 1 := ⟨k - 1, by omega⟩
    have hk : n ≤ k := by omega
    have hrestored := runWatched_restored hlater n
    have hnested {ts us : List Token} (h : S.tokens ts us) :
        S.Follows (runWatched watch n ts) (runWatched watch' k us) :=
      (ih hk h).follows (hrestored ts) (runWatched_restored hlater' k us)
    have hinvoke {i j : Nat} {t u : Token} {w w' : Word} (hi : i ≤ j) (ht : S.token t u)
        (hw : Meaning.Related S.tokens S.primitive (.word w) (.word w')) :
        S.Follows (watch >>= fun _ => runWord (runWatched watch n) i t.location w)
          (watch' >>= fun _ => runWord (runWatched watch' k) j u.location w') :=
      .bind hwatch fun _ _ _ => follows_runWord hnested hrestored hi ht hw
    exact runs_streams hts fun hm => follows_runStreamVia hinvoke hk _ _ _ _ hm

/-- Runs on related machines keep step. -/
theorem runs_runTokens {n k : Nat} (hn : n ≤ k) {ts us : List Token}
    (hts : S.tokens ts us) : S.Runs (runTokens n ts) (runTokens k us) := by
  rw [← runWatched_pure]
  exact runs_runWatched (inStep_pure trivial) (always_pure ()) (always_pure ()) hn hts

end Simulation

/-- Sources keep step if their statements do. -/
theorem Machine.relates_runResults {lost : Fault → Prop} {rel : Machine → Machine → Prop}
    {fail : Fault → Machine → Fault → Machine → Prop} {n k : Nat}
    {rs rs' : List (Except Fault Statement)}
    (h : List.Forall₂ (fun r r' => Relates lost rel (fun a m b m' => a = b ∧ rel m m') fail
      (runResult n r) (runResult k r')) rs rs') :
    Relates lost rel (fun a m b m' => a = b ∧ rel m m') fail (runResults n rs) (runResults k rs') := by
  induction h with
  | nil => exact relates_pure fun m m' hm => ⟨rfl, hm⟩
  | cons hr _ ih =>
    refine Relates.bind hr fun output _ m m' hm => ?_
    obtain ⟨rfl, hm⟩ := hm
    refine Relates.bind ih (fun outputs _ => ?_) m m' hm
    exact relates_pure fun m m' hm => ⟨congrArg (output :: ·) hm.1, hm.2⟩

end TokenForth

import TokenForth.Proofs.Steps
import TokenForth.Proofs.Failure
import TokenForth.Proofs.Names

/-!
# Where faults come from

A token list fails at a token that no list may hold, or with a fault of a word that it calls, or
because such a word ran a token list that failed. What is known of the machine at which the inner
list was started is told here: the calls that were open, how deep it was in the bodies of words, and
where its tokens were taken from.
-/
namespace TokenForth

open Exec Machine

namespace LoopFrames

def Any (_ _ : List (List Cell)) : Prop := True

instance : IsPreorder (List (List Cell)) Any where
  refl _ := trivial
  trans _ _ _ _ _ := trivial

end LoopFrames

namespace Machine

/-- The bookkeeping is kept, up to tokens taken from the innermost stream and the open loops. -/
abbrev Underway : Machine → Machine → Prop := Keeps LoopFrames.Any

theorem Keeps.underway {F : List (List Cell) → List (List Cell) → Prop} {m m' : Machine}
    (h : Keeps F m m') : Underway m m' :=
  ⟨h.config, h.depth, h.calls, h.radix, h.words, h.streams, trivial⟩

theorem Underway.refl (m : Machine) : Underway m m := keeps_refl m

theorem Underway.trans {m m₁ m₂ : Machine} (h : Underway m m₁) (h' : Underway m₁ m₂) :
    Underway m m₂ := IsTrans.trans m m₁ m₂ h h'

theorem Underway.streams_ne_nil {m m' : Machine} (h : Underway m m') (hm : m.streams ≠ []) :
    m'.streams ≠ [] := by
  have hstreams := h.streams
  obtain ⟨s, outer, hs⟩ := List.exists_cons_of_ne_nil hm
  rw [hs] at hstreams
  obtain ⟨rest, hs', -⟩ := hstreams.exists_cons
  simp [hs']

def rest (m : Machine) : List Token :=
  match m.streams with
  | s :: _ => s.rest
  | [] => []

theorem Underway.rest_suffix {m m' : Machine} (h : Underway m m') : m'.rest <:+ m.rest := by
  have hstreams := h.streams
  unfold rest
  cases hm : m.streams <;> cases hm' : m'.streams <;> simp only [hm, hm', Advanced] at hstreams
  · exact List.suffix_refl _
  · exact hstreams.1

theorem tokens_of_takeBlock {v : Vocabulary} {m m₁ : Machine} {block : Block}
    (h : Flow.takeBlock v m = .done block m₁) : block.tokens ⊆ m.rest := by
  cases hm : m.streams with
  | nil =>
    rw [takeBlock_nil v hm] at h
    cases h
  | cons s outer =>
    cases hscan : v.scan s.rest with
    | none =>
      rw [takeBlock_none hm hscan] at h
      cases h
    | some found =>
      obtain ⟨found, rest⟩ := found
      rw [takeBlock_some hm hscan] at h
      cases h
      simp only [Machine.rest, hm, (v.scanFrom_eq_some hscan).1]
      exact List.subset_append_left _ _

theorem loopEntered_underway (index : Cell) (m : Machine) : Underway m (loopEntered index m) := by
  rw [loopEntered_eq]
  exact ⟨rfl, rfl, rfl, id, fun _ hw => .inl hw, .refl _, trivial⟩

theorem loopExited_underway (m : Machine) : Underway m (loopExited m) := by
  rw [loopExited_eq]
  exact ⟨rfl, rfl, rfl, id, fun _ hw => .inl hw, .refl _, trivial⟩

/-- The fault is raised while the calls of the machine are open, and it is not an internal one. -/
structure Fails (m : Machine) (f : Fault) : Prop where
  trace : f.trace = some m.calls
  kind : f.kind ≠ .internal

theorem Fails.of_underway {m m' : Machine} {f : Fault} (h : m'.Fails f) (hm : Underway m m') :
    m.Fails f := ⟨by rw [h.trace, hm.calls], h.kind⟩

end Machine

/-- While a stream is open, the action fails with faults of its own. -/
def Exec.Candid {α : Type} (act : Exec α) : Prop :=
  ∀ m m' f, act m = .failed f m' → m.streams ≠ [] → m.Fails f

section Candid

variable {α β : Type}

theorem candid_raise {cause : Fault.Cause} (h : cause.kind ≠ .internal) :
    Candid (raise cause : Exec α) := by
  intro m m' f hf _
  cases hf
  exact ⟨rfl, h⟩

theorem candid_pure (a : α) : Candid (pure a) := fun _ _ _ hf => by cases hf

theorem candid_update (change : Machine → Machine) : Candid (update change) :=
  fun _ _ _ hf => by cases hf

theorem Exec.Candid.bind {act : Exec α} {next : α → Exec β} (h : Candid act)
    (hact : Always Underway act) (hnext : ∀ a, Candid (next a)) : Candid (act >>= next) := by
  intro m m' f hf hm
  rcases bind_eq_failed hf with hfirst | ⟨a, m₁, hfirst, hf⟩
  · exact h m m' f hfirst hm
  · have hm₁ := hact m
    rw [hfirst] at hm₁
    exact (hnext a m₁ m' f hf (hm₁.streams_ne_nil hm)).of_underway hm₁

theorem candid_plain {E : Effect → Prop} {act : Exec α} (h : Plain E act) : Candid act := by
  induction h with
  | raise cause h => exact candid_raise h
  | bind hact _ ih ihnext => exact ih.bind (plain_keeps hact) ihnext
  | pop | popMany | top | popReturn | topReturn | setRadix | fetch =>
    intro m m' f hf _
    simp only [Machine.pop, Machine.popMany, Machine.top, Machine.popReturn, Machine.topReturn,
      Machine.setRadix, Machine.fetch] at hf
    split at hf <;> cases hf
    exact ⟨rfl, nofun⟩
  | _ => exact fun _ _ _ hf => by cases hf

theorem candid_pop : Candid pop := candid_plain (E := fun _ => True) .pop

theorem candid_popFlag : Candid popFlag := candid_plain (E := fun _ => True) .popFlag

theorem candid_stream : Candid stream := by
  intro m m' f hf hm
  obtain ⟨s, outer, hs⟩ := List.exists_cons_of_ne_nil hm
  simp [stream, hs] at hf

theorem stream_keeps : Always Underway stream := by
  intro m
  unfold stream
  split <;> exact keeps_refl m

theorem candid_takeBlock (v : Vocabulary) : Candid (Flow.takeBlock v) := by
  intro m m' f hf hm
  obtain ⟨s, outer, hs⟩ := List.exists_cons_of_ne_nil hm
  cases hscan : v.scan s.rest with
  | none =>
    rw [takeBlock_none hs hscan] at hf
    cases hf
    exact ⟨rfl, nofun⟩
  | some found =>
    rw [takeBlock_some hs hscan] at hf
    cases hf

theorem candid_nextName : Candid nextName := by
  refine .bind (.bind ?_ nextToken?_keeps fun t => ?_) (.bind nextToken?_keeps fun t => ?_) fun t => ?_
  · intro m m' f hf
    unfold nextToken? at hf
    split at hf <;> cases hf
  · cases t with
    | none => exact candid_raise nofun
    | some t => exact candid_pure t
  · cases t with
    | none => exact always_raise _
    | some t => exact always_pure t
  · split
    · exact candid_pure _
    · exact candid_raise nofun

theorem candid_nextMessage : Candid nextMessage := by
  intro m m' f hf hm
  obtain ⟨s, outer, hs⟩ := List.exists_cons_of_ne_nil hm
  by_cases hquote : ∃ text location rest, s.rest = ⟨.quote text, location⟩ :: rest
  · obtain ⟨text, location, rest, hrest⟩ := hquote
    obtain rfl : s = ⟨⟨.quote text, location⟩ :: rest⟩ := by rw [← hrest]
    rw [nextMessage_quote hs] at hf
    cases hf
  · rw [nextMessage_other hs fun text location rest h => hquote ⟨text, location, rest, h⟩] at hf
    cases hf

theorem candid_forgetWord (name : String) : Candid (forgetWord name) := by
  intro m m' f hf _
  unfold forgetWord at hf
  split at hf <;> cases hf
  exact ⟨rfl, nofun⟩

theorem candid_findWord (name : String) : Candid (findWord name) := by
  intro m m' f hf _
  unfold findWord at hf
  split at hf <;> cases hf
  exact ⟨rfl, nofun⟩

theorem candid_checkReturns (name : String) (before : Nat) : Candid (checkReturns name before) := by
  refine .bind (fun _ _ _ hf => by cases hf) always_state fun m => ?_
  split
  · exact candid_pure _
  · exact (candid_update _).bind clearReturn_keeps fun _ => candid_raise nofun

/-- A primitive that runs no token list raises its own faults. -/
theorem candid_primitive {p : Primitive} (hp : ∀ word, p ≠ .flow word) (r : Runner) (n : Nat) :
    Candid (p.run r n) := by
  by_cases hread : p.readsTokens = false
  · exact candid_plain (p.plain hread r n)
  · cases p with
    | flow word => exact absurd rfl (hp word)
    | storage word =>
      cases word with
      | declare =>
        refine candid_nextName.bind nextName_keeps fun _ => ?_
        exact fun _ _ _ hf => by cases hf
      | constant =>
        exact candid_nextName.bind nextName_keeps fun _ => candid_pop.bind pop_keeps fun _ =>
          candid_update _
      | store | fetch => exact absurd rfl hread
    | listing word =>
      cases word with
      | forget => exact candid_nextName.bind nextName_keeps fun _ => candid_forgetWord _
      | see =>
        refine candid_nextName.bind nextName_keeps fun _ => (candid_findWord _).bind ?_ fun _ =>
          candid_update _
        intro m
        unfold findWord
        split <;> exact keeps_refl m
      | words => exact absurd rfl hread
    | control word =>
      cases word with
      | abort =>
        refine candid_popFlag.bind popFlag_keeps fun flag =>
          candid_nextMessage.bind nextMessage_keeps fun message => ?_
        split
        · exact candid_raise nofun
        · exact candid_pure _
      | _ => exact absurd rfl hread
    | report =>
      exact candid_stream.bind stream_keeps fun _ => fun _ _ _ hf => by cases hf
    | _ => exact absurd rfl hread

end Candid

/-- If the action fails, then with an own fault or because a run that it depends on failed: it does
not come to an end if that run does not. -/
def Traces {α : Type} (own : Fault → Prop) (nested : List Token → Machine → Prop)
    (act : Runner → Exec α) (r : Runner) (m : Machine) : Prop :=
  ∀ f m', act r m = .failed f m' → own f ∨ ∃ body start left, nested body start ∧
    r body start = .failed f left ∧ act (answering r body start .unfinished) m = .unfinished

section Rules

variable {α β : Type} {own : Fault → Prop} {nested : List Token → Machine → Prop} {r : Runner}
  {m : Machine}

theorem traces_const {act : Exec α} (h : ∀ f m', act m = .failed f m' → own f) :
    Traces own nested (fun _ => act) r m := fun f m' hf => .inl (h f m' hf)

theorem traces_run {body : List Token} (h : nested body m) :
    Traces own nested (fun r => r body) r m := by
  intro f m' hf
  exact .inr ⟨body, m, m', h, hf, by simp [answering]⟩

theorem answering_below {ι : Type} [DecidableEq ι] (runs : ι → Exec Unit) (i : ι) (start : Machine)
    (j : ι) : Exec.Below (answering runs i start .unfinished j) (runs j) := by
  intro m
  by_cases h : j = i ∧ m = start
  · simp [answering, h]
  · simp [answering, h]

theorem Traces.bind (act : Runner → Exec α) {next : Runner → α → Exec β}
    (hwaits : ∀ body start, act (answering r body start .unfinished) m = .unfinished ∨
      act (answering r body start .unfinished) m = act r m)
    (h : Traces own nested act r m)
    (hnext : ∀ a m₁, act r m = .done a m₁ → Traces own nested (fun r => next r a) r m₁) :
    Traces own nested (fun r => act r >>= next r) r m := by
  intro f m' hf
  rcases bind_eq_failed hf with hfirst | ⟨a, m₁, hfirst, hf⟩
  · rcases h f m' hfirst with hown | ⟨body, start, left, hinner, hrun, hwait⟩
    · exact .inl hown
    · exact .inr ⟨body, start, left, hinner, hrun, by simp only [Bind.bind, hwait]⟩
  · rcases hnext a m₁ hfirst f m' hf with hown | ⟨body, start, left, hinner, hrun, hwait⟩
    · exact .inl hown
    · refine .inr ⟨body, start, left, hinner, hrun, ?_⟩
      -- either the first action waits for the run already, or it ends as before
      rcases hwaits body start with hfirst' | hfirst'
      · simp only [Bind.bind, hfirst']
      · simp only [Bind.bind, hfirst', hfirst, hwait]

theorem Traces.imp {own' : Fault → Prop} {nested' : List Token → Machine → Prop}
    {act : Runner → Exec α} (h : Traces own nested act r m) (hown : ∀ f, own f → own' f)
    (hnested : ∀ body start, nested body start → nested' body start) :
    Traces own' nested' act r m := by
  intro f m' hf
  rcases h f m' hf with hfault | ⟨body, start, left, hinner, hrun⟩
  · exact .inl (hown f hfault)
  · exact .inr ⟨body, start, left, hnested body start hinner, hrun⟩

/-- An action that does what another one does at another machine. -/
theorem Traces.of_apply {act act' : Runner → Exec α} {m₁ : Machine} (h : Traces own nested act r m₁)
    (heq : ∀ r, act' r m = act r m₁) : Traces own nested act' r m := by
  intro f m' hf
  rw [heq] at hf
  rcases h f m' hf with hown | ⟨body, start, left, hinner, hrun, hwait⟩
  · exact .inl hown
  · exact .inr ⟨body, start, left, hinner, hrun, (heq _).trans hwait⟩

theorem Traces.wrap {act : Runner → Exec α} (h : Traces own nested act r m) (wrap : Exec α → Exec α)
    (hfailed : ∀ {act : Exec α} {m m' f}, wrap act m = .failed f m' → ∃ m₁, act m = .failed f m₁)
    (hwait : ∀ {act : Exec α} {m}, act m = .unfinished → wrap act m = .unfinished) :
    Traces own nested (fun r => wrap (act r)) r m := by
  intro f m' hf
  obtain ⟨m₁, hact⟩ := hfailed hf
  rcases h f m₁ hact with hown | ⟨body, start, left, hinner, hrun, hw⟩
  · exact .inl hown
  · exact .inr ⟨body, start, left, hinner, hrun, hwait hw⟩

theorem Traces.after {act : Runner → Exec α} (h : Traces own nested act r m)
    (change : Machine → Machine) : Traces own nested (fun r => (act r).after change) r m := by
  apply h.wrap (Exec.after · change)
  · intro act m m' f hf
    obtain ⟨m₁, hact, -⟩ := after_eq_failed hf
    exact ⟨m₁, hact⟩
  · intro act m hw
    simp only [Exec.after, hw]

theorem Traces.onFault {act : Runner → Exec α} (h : Traces own nested act r m)
    (test : Fault → Bool) (change : Machine → Machine) :
    Traces own nested (fun r => (act r).onFault test change) r m := by
  apply h.wrap (Exec.onFault · test change)
  · intro act m m' f hf
    obtain ⟨m₁, hact, -⟩ := onFault_eq_failed hf
    exact ⟨m₁, hact⟩
  · intro act m hw
    simp only [Exec.onFault, hw]

theorem Traces.catchLeave {act : Runner → Exec Unit} (h : Traces own nested act r m) :
    Traces own nested (fun r => (act r).catchLeave) r m := by
  apply h.wrap Exec.catchLeave
  · intro act m m' f hf
    exact ⟨m', (catchLeave_eq_failed hf).1⟩
  · intro act m hw
    simp only [Exec.catchLeave, hw]

end Rules

/-- The tokens are taken from a list, apart from numbers that stand for loop indices. -/
def Stems (tokens body : List Token) : Prop :=
  ∀ t ∈ body, t ∈ tokens ∨ ∃ value, t.lexeme = .number value

theorem Stems.of_subset {tokens body : List Token} (h : body ⊆ tokens) : Stems tokens body :=
  fun _ ht => .inl (h ht)

theorem Stems.trans {tokens body inner : List Token} (h : Stems tokens body)
    (h' : Stems body inner) : Stems tokens inner :=
  fun t ht => (h' t ht).elim (h t) .inr

theorem Stems.segment {b : Block} {segment : List Token} (h : segment ∈ b.segments) :
    Stems b.tokens segment := .of_subset (Block.segment_part h).subset

theorem Token.stems_withIndex (indices : List Cell) (t : Token) :
    t.withIndex indices = t ∨ ∃ value, (t.withIndex indices).lexeme = .number value := by
  unfold Token.withIndex
  split
  · exact .inr ⟨_, rfl⟩
  · exact .inl rfl

theorem stems_substituteFrom (indices : List Cell) (depth : Nat) (tokens : List Token) :
    Stems tokens (substituteFrom indices depth tokens) := by
  induction tokens generalizing depth with
  | nil => exact fun t ht => .inl ht
  | cons t tokens ih =>
    have hcons {u : Token} (hu : u = t ∨ ∃ value, u.lexeme = .number value) (depth : Nat) :
        Stems (t :: tokens) (u :: substituteFrom indices depth tokens) := by
      refine List.forall_mem_cons.mpr ⟨hu.imp_left fun h => by simp [h], fun v hv => ?_⟩
      exact (ih depth v hv).imp_left (List.mem_cons_of_mem t)
    unfold substituteFrom
    cases Vocabulary.counted.role t with
    | opens => exact hcons (.inl rfl) _
    | closes => exact hcons (.inl rfl) _
    | separates | plain =>
      by_cases hdepth : depth = 0
      · simp only [hdepth, if_true]
        exact hcons (t.stems_withIndex indices) _
      · simp only [hdepth, if_false]
        exact hcons (.inl rfl) _

def Varied (κ α : Type) : Type := κ → Exec α

namespace Varied

variable {κ : Type}

instance : Monad (Varied κ) where
  pure a := fun _ => pure a
  bind x next := fun k => x k >>= fun a => next a k

instance : Setting (Varied κ) where
  act a := fun _ => a
  after x change := fun k => (x k).after change
  onFault x test change := fun k => (x k).onFault test change
  catchLeave x := fun k => (x k).catchLeave

/-- What an action is for one value of that on which it depends. -/
def atCongruence (k : κ) : Congruence (Varied κ) Exec where
  rel x y := x k = y
  patient := False
  patience := nofun
  unfinished := rfl
  pure _ := rfl
  bind := by
    rintro α β x _ f g rfl hnext
    exact congrArg (x k >>= ·) (funext hnext)
  act _ := rfl
  after _ h := by rw [← h]; rfl
  onFault _ h := by rw [← h]; rfl
  catchLeave h := by rw [← h]; rfl

theorem flow_eq (word : Flow) (n : Nat) :
    (word.run (fun tokens r => r tokens) n : Varied Runner Unit) = fun r => word.run r n :=
  funext fun r => (atCongruence r).flow (fun _ => rfl) (.refl n) word

theorem results_eq (results : List (Except Fault Statement)) :
    (runResultsVia (fun tokens r => r tokens) results : Varied Runner (List String)) =
      fun r => runResultsVia r results :=
  funext fun r => (atCongruence r).results (fun _ => rfl) results

theorem runStream_eq (n : Nat) :
    (runStreamVia (fun i r => i.run r) n : Varied Runner Unit) = fun r => runStream r n := by
  refine funext fun r => (atCongruence r).stream (fun hn _ _ => ?_) (.refl n)
  rw [hn.eq id]
  rfl

end Varied

/-- An action that traces its failures at a machine, waits there for the runs that it depends on, and
leads to machines in some relation to another one. -/
structure TracedAt (own : Fault → Prop) (nested : List Token → Machine → Prop)
    (R : Machine → Machine → Prop) (r : Runner) (m₀ : Machine) {α : Type} (act : Varied Runner α)
    (m : Machine) : Prop where
  keeps : (act r m).All (R m₀)
  waits : ∀ body start, act (answering r body start .unfinished) m = .unfinished ∨
    act (answering r body start .unfinished) m = act r m
  traces : Traces own nested act r m

section Traced

variable {α β : Type} {own : Fault → Prop} {nested : List Token → Machine → Prop}
  {R : Machine → Machine → Prop} {r : Runner} {m₀ m : Machine}

theorem TracedAt.bind {act : Varied Runner α} {next : α → Varied Runner β}
    (h : TracedAt own nested R r m₀ act m)
    (hnext : ∀ a m₁, act r m = .done a m₁ → R m₀ m₁ → TracedAt own nested R r m₀ (next a) m₁) :
    TracedAt own nested R r m₀ (act >>= next) m := by
  have hdone {a : α} {m₁ : Machine} (hact : act r m = .done a m₁) :
      TracedAt own nested R r m₀ (next a) m₁ := by
    have hm₁ := h.keeps
    rw [hact] at hm₁
    exact hnext a m₁ hact hm₁
  refine ⟨?_, fun body start => ?_, .bind act h.waits h.traces fun a m₁ hact => (hdone hact).traces⟩
  · have hfirst := h.keeps
    simp only [Bind.bind]
    cases hact : act r m with
    | done a m₁ => exact (hdone hact).keeps
    | failed f m₁ => rw [hact] at hfirst; exact hfirst
    | unfinished => trivial
  · simp only [Bind.bind]
    rcases h.waits body start with hwait | hsame
    · rw [hwait]
      exact .inl rfl
    · rw [hsame]
      cases hact : act r m with
      | done a m₁ => exact (hdone hact).waits body start
      | failed f m₁ => exact .inr rfl
      | unfinished => exact .inr rfl

theorem TracedAt.of_apply {act act' : Varied Runner α} {m₁ : Machine}
    (h : TracedAt own nested R r m₀ act m₁) (heq : ∀ r, act' r m = act r m₁) :
    TracedAt own nested R r m₀ act' m where
  keeps := by rw [heq]; exact h.keeps
  waits body start := by rw [heq, heq]; exact h.waits body start
  traces := h.traces.of_apply heq

theorem TracedAt.wrap {act : Varied Runner Unit} (h : TracedAt own nested R r m₀ act m)
    (wrap : Exec Unit → Exec Unit) (hkeeps : (wrap (act r) m).All (R m₀))
    (hwrap : ∀ {x : Exec Unit}, x m = act r m → wrap x m = wrap (act r) m)
    (hwait : ∀ {x : Exec Unit}, x m = .unfinished → wrap x m = .unfinished)
    (htraces : Traces own nested (fun r => wrap (act r)) r m) :
    TracedAt own nested R r m₀ (fun r => wrap (act r)) m :=
  ⟨hkeeps, fun body start => (h.waits body start).imp hwait hwrap, htraces⟩

theorem TracedAt.catchLeave {act : Varied Runner Unit} (h : TracedAt own nested R r m₀ act m) :
    TracedAt own nested R r m₀ (fun r => (act r).catchLeave) m := by
  refine h.wrap Exec.catchLeave (all_catchLeave h.keeps) ?_ ?_ h.traces.catchLeave
  · exact fun hx => by simp only [Exec.catchLeave, hx]
  · exact fun hx => by simp only [Exec.catchLeave, hx]

/-- An action that traces its failures at all machines in the relation to one. -/
def Traced (own : Fault → Prop) (nested : List Token → Machine → Prop)
    (R : Machine → Machine → Prop) (r : Runner) (m₀ : Machine) {α : Type} (act : Varied Runner α) :
    Prop := ∀ m, R m₀ m → TracedAt own nested R r m₀ act m

theorem Traced.bind {act : Varied Runner α} {next : α → Varied Runner β}
    (h : Traced own nested R r m₀ act) (hnext : ∀ a, Traced own nested R r m₀ (next a)) :
    Traced own nested R r m₀ (act >>= next) :=
  fun m hm => (h m hm).bind fun a m₁ _ => hnext a m₁

theorem Traced.catchLeave {act : Varied Runner Unit} (h : Traced own nested R r m₀ act) :
    Traced own nested R r m₀ fun r => (act r).catchLeave := fun m hm => (h m hm).catchLeave

variable [IsPreorder Machine R]

theorem tracedAt_const {act : Exec α} (hact : Always R act) (hm : R m₀ m)
    (h : ∀ f m', act m = .failed f m' → own f) : TracedAt own nested R r m₀ (fun _ => act) m where
  keeps := (hact m).imp fun _ hm' => IsTrans.trans _ _ _ hm hm'
  waits _ _ := .inr rfl
  traces := traces_const h

theorem tracedAt_run {body : List Token} (hr : Always R (r body)) (hm : R m₀ m) (h : nested body m) :
    TracedAt own nested R r m₀ (fun r => r body) m where
  keeps := (hr m).imp fun _ hm' => IsTrans.trans _ _ _ hm hm'
  waits inner start := answering_below r inner start body m
  traces := traces_run h

theorem TracedAt.after {act : Varied Runner Unit} (h : TracedAt own nested R r m₀ act m)
    {change : Machine → Machine} (hchange : ∀ m, R m (change m)) :
    TracedAt own nested R r m₀ (fun r => (act r).after change) m := by
  refine h.wrap (Exec.after · change) ?_ ?_ ?_ (h.traces.after change)
  · exact all_after.mpr (h.keeps.imp fun m' hm' => IsTrans.trans _ _ _ hm' (hchange m'))
  · exact fun hx => by simp only [Exec.after, hx]
  · exact fun hx => by simp only [Exec.after, hx]

theorem TracedAt.onFault {act : Varied Runner Unit} (h : TracedAt own nested R r m₀ act m)
    (test : Fault → Bool) {change : Machine → Machine} (hchange : ∀ m, R m (change m)) :
    TracedAt own nested R r m₀ (fun r => (act r).onFault test change) m := by
  refine h.wrap (Exec.onFault · test change) ?_ ?_ ?_ (h.traces.onFault test change)
  · exact all_onFault h.keeps fun m' hm' => IsTrans.trans _ _ _ hm' (hchange m')
  · exact fun hx => by simp only [Exec.onFault, hx]
  · exact fun hx => by simp only [Exec.onFault, hx]

/-- An action that cannot fail. -/
theorem traced_safe {act : Exec α} (hact : Always R act) (h : ∀ m, (act m).fault? = none) :
    Traced own nested R r m₀ fun _ => act :=
  fun m hm => tracedAt_const hact hm (failsWith_safe h m)

def tracing (own : Fault → Prop) (nested : List Token → Machine → Prop)
    (R : Machine → Machine → Prop) [IsPreorder Machine R] (r : Runner) (m₀ : Machine) :
    Pairing (Varied Runner) (Varied Runner) where
  rel x _ := Traced own nested R r m₀ x
  patient := True
  patience _ _ := traced_safe always_unfinished fun _ => rfl
  unfinished := traced_safe always_unfinished fun _ => rfl
  pure a := traced_safe (always_pure a) fun _ => rfl
  bind := .bind

end Traced

section Blocks

variable {r : Runner} {tokens : List Token} {m₀ : Machine} (hm₀ : m₀.streams ≠ [])

/-- What the parts of a word that was called at a machine do: they fail with a fault of the word, or
with one of a run of tokens from a list. -/
abbrev Carries (m₀ : Machine) (tokens : List Token) (r : Runner) {α : Type} (act : Varied Runner α) :
    Prop :=
  Traced m₀.Fails (fun body start => Stems tokens body ∧ Underway m₀ start) Underway r m₀ act

include hm₀

theorem carries_candid {α : Type} {act : Exec α} (h : Candid act) (hact : Always Underway act) :
    Carries m₀ tokens r fun _ => act :=
  fun m hm => tracedAt_const hact hm fun f m' hf =>
    (h m m' f hf (hm.streams_ne_nil hm₀)).of_underway hm

/-- The block is cut out of the tokens that the stream holds. -/
theorem carries_takeBlock (htokens : m₀.rest ⊆ tokens) (v : Vocabulary)
    {next : Block → Varied Runner Unit}
    (hnext : ∀ block : Block, (∀ segment ∈ block.segments, Stems tokens segment) →
      Carries m₀ tokens r (next block)) :
    Carries m₀ tokens r (Setting.act (Flow.takeBlock v) >>= next) := by
  intro m hm
  refine (carries_candid hm₀ (candid_takeBlock v) (takeBlock_keeps v) m hm).bind ?_
  intro block m₁ hdone hm₁
  refine hnext block (fun segment hsegment => ?_) m₁ hm₁
  refine .trans (.of_subset fun t ht => ?_) (Stems.segment hsegment)
  exact htokens (hm.rest_suffix.subset (tokens_of_takeBlock hdone ht))

def carryingBlocks (r : Runner) (htokens : m₀.rest ⊆ tokens) :
    BlockWalk (Varied Runner) (Varied Runner) where
  toPairing :=
    tracing m₀.Fails (fun body start => Stems tokens body ∧ Underway m₀ start) Underway r m₀
  pass x _ := Carries m₀ tokens r x
  token := Eq
  tokens ts us := ts = us ∧ Stems tokens ts
  lexeme := congrArg Token.lexeme
  substituted h indices := ⟨by rw [h.1], h.2.trans (stems_substituteFrom indices 0 _)⟩
  raise _ h := carries_candid hm₀ (candid_raise h) (always_raise _)
  pop := carries_candid hm₀ candid_pop pop_keeps
  popFlag := carries_candid hm₀ candid_popFlag popFlag_keeps
  takeBlock v _ _ h := carries_takeBlock hm₀ htokens v fun b hb => h b b (.of_segments hb)
  catchLeave := .catchLeave
  passed h := h
  passing := .bind
  updated index _ _ h := by
    have hupdate : Always Underway (updateLoop index) :=
      (updateLoop_keeps index).imp fun _ _ hm => hm.underway
    exact .bind (traced_safe hupdate fun _ => rfl) fun _ =>
      .bind (traced_safe always_state fun _ => rfl) fun _ => h _
  looped start _ _ h := by
    have henter : Always Underway (enterLoop start) := always_update (loopEntered_underway start)
    refine .bind (traced_safe henter fun _ => rfl) fun _ => .catchLeave fun m hm => ?_
    exact (h m hm).after loopExited_underway

/-- A control word fails with a fault of its own, or because tokens that follow it fail. -/
theorem carries_flow (hr : ∀ tokens, Always Restored (r tokens)) (htokens : m₀.rest ⊆ tokens)
    (n : Nat) {word : Flow} (hword : word ≠ .leave) : Carries m₀ tokens r fun r => word.run r n := by
  have hrun : (carryingBlocks hm₀ r htokens).rel
      (word.run (fun tokens r => r tokens) n : Varied Runner Unit)
      (word.run (fun tokens r => r tokens) n : Varied Runner Unit) :=
    (carryingBlocks hm₀ r htokens).run
      (fun h m hm => tracedAt_run ((hr _).imp fun _ _ hm' => hm'.underway) hm ⟨h.2, hm⟩) (.refl n)
      hword
  rw [Varied.flow_eq] at hrun
  exact hrun

end Blocks

/-- A word that is called at the machine runs the token list at the other machine. -/
inductive Word.Opens (w : Word) (m : Machine) (body : List Token) : Machine → Prop
  | body (hw : w.action = .body body) : Opens w m body (wordEntered m)
  | block {word : Flow} {start : Machine} (hw : w.action = .primitive (.flow word))
    (hword : word ≠ .leave) (hbody : Stems m.rest body) (hstart : Underway m start) :
    Opens w m body start

theorem traces_candid {α : Type} {nested : List Token → Machine → Prop} {act : Exec α} {r : Runner}
    {m₀ m : Machine} (hm₀ : m₀.streams ≠ []) (h : Candid act) (hm : Underway m₀ m) :
    Traces m₀.Fails nested (fun _ => act) r m :=
  traces_const fun f m' hf => (h m m' f hf (hm.streams_ne_nil hm₀)).of_underway hm

section Words

variable {r : Runner} (hr : ∀ tokens, Always Restored (r tokens)) {m : Machine}
  (hm : m.streams ≠ [])

include hr hm

theorem traces_runBody (w : Word) {body : List Token} (hw : w.action = .body body) :
    Traces m.Fails (w.Opens m) (fun r => runBody r w.name body) r m := by
  rcases Nat.lt_or_ge m.depth m.config.callLimit with hlimit | hlimit
  · have hbody : Traces m.Fails (w.Opens m) (fun r => enclosed r body) r m := by
      have hrun : Traces m.Fails (w.Opens m) (fun r => r body) r (wordEntered m) :=
        traces_run (.body hw)
      exact (hrun.after wordExited).of_apply fun _ => rfl
    have hcall : Traces m.Fails (w.Opens m)
        (fun r => enclosed r body >>= fun _ => checkReturns w.name m.returns.depth) r m := by
      refine hbody.bind (fun r => enclosed r body) (fun inner start => ?_) fun _ m₁ hdone => ?_
      · exact (answering_below r inner start body).after wordExited (wordEntered m)
      · have hm₁ := enclosed_restored hr body m
        rw [hdone] at hm₁
        exact traces_candid hm (candid_checkReturns _ _) hm₁.underway
    exact hcall.of_apply fun r => runBody_shallow hlimit
  · have hraise : Traces m.Fails (w.Opens m)
        (fun _ => (raise (.tooDeep m.config.callLimit w.name) : Exec Unit)) r m :=
      traces_candid hm (candid_raise nofun) (.refl m)
    exact hraise.of_apply fun r => runBody_deep hlimit

theorem traces_primitive (n : Nat) (w : Word) {p : Primitive} (hw : w.action = .primitive p) :
    Traces m.Fails (w.Opens m) (fun r => p.run r n) r m := by
  by_cases hp : ∀ word, p ≠ .flow word
  · have hrun : Traces m.Fails (w.Opens m) (fun _ => p.run r n) r m :=
      traces_candid hm (candid_primitive hp r n) (.refl m)
    exact hrun.of_apply fun s => by rw [p.run_eq hp s r n n]
  · obtain ⟨word, rfl⟩ : ∃ word, p = .flow word := by simpa using hp
    by_cases hword : word = .leave
    · rw [hword]
      exact traces_candid hm (candid_raise nofun) (.refl m)
    · have hrun := (carries_flow hm hr (List.Subset.refl m.rest) n hword m (.refl m)).traces
      exact hrun.imp (fun _ hf => hf) fun _ _ hinner => .block hw hword hinner.1 hinner.2

/-- What a word does once it is called. -/
theorem traces_runWord (n : Nat) (location : Location) (w : Word) :
    Traces (callEntered ⟨w.name, location⟩ m).Fails (w.Opens (callEntered ⟨w.name, location⟩ m))
      (fun r => runWord r n location w) r m := by
  have haction {m : Machine} (hm : m.streams ≠ []) :
      Traces m.Fails (w.Opens m) (fun r => runAction r n w) r m := by
    unfold runAction
    cases hw : w.action with
    | body tokens => exact traces_runBody hr hm w hw
    | primitive p => exact traces_primitive hr hm n w hw
  apply ((haction (m := callEntered ⟨w.name, location⟩ m) hm).after callExited).of_apply
  exact fun r => runWord_apply r n location w m

end Words

/-- The word is called at a token of the list, as a machine that runs the list comes to know it. -/
structure Machine.Calls (m : Machine) (tokens : List Token) (t : Token) (w : Word) : Prop where
  token : t ∈ tokens
  name : t.lexeme = .word w.name
  word : w ∈ m.dictionary.words ∨ w.IsConstant

/-- The list calls the word, which runs a token list at a machine: its own body, one level deeper, or
tokens of the list on the same level. -/
structure Machine.Enters (m : Machine) (tokens : List Token) (t : Token) (w : Word)
    (body : List Token) (start : Machine) : Prop extends m.Calls tokens t w where
  calls : start.calls = ⟨w.name, t.location⟩ :: m.calls
  words : ∀ v ∈ start.dictionary.words, v ∈ m.dictionary.words ∨ v.IsConstant
  level : (w.action = .body body ∧ w ∈ start.dictionary.words ∧ start.depth = m.depth + 1) ∨
    ∃ word, word ≠ Flow.leave ∧ w.action = .primitive (.flow word) ∧ Stems tokens body ∧
      start.depth = m.depth

/-- The fault is met in the token list itself, at a token that cannot be executed or in a word that
it calls. -/
inductive Machine.Meets (m : Machine) (tokens : List Token) (f : Fault) : Prop
  | stray {t : Token} (ht : t ∈ tokens) (hlexeme : t.lexeme = .colon ∨ t.lexeme = .semicolon)
    (hf : f = ⟨.strayLexeme t.lexeme, some t.location, some m.calls⟩)
  | word {t : Token} {w : Word} (hcall : m.Calls tokens t w)
    (htrace : f.trace = some (⟨w.name, t.location⟩ :: m.calls)) (hkind : f.kind ≠ .internal)

section Lists

variable {r : Runner} (hr : ∀ tokens, Always Restored (r tokens)) {tokens : List Token}
  {m₀ m : Machine} (hm₀ : m₀.streams ≠ [])

theorem Machine.Underway.calls_of_meaning (hm : Underway m₀ m) {t : Token} {name : String} {w : Word}
    (ht : t ∈ tokens) (hname : t.lexeme = .word name) (hw : m.meaning name = .word w) :
    m₀.Calls tokens t w := by
  obtain ⟨hmem, rfl⟩ := Dictionary.get?_eq_some (meaning_eq_word hw)
  exact ⟨ht, hname, hm.words w hmem⟩

/-- What a word opens, as the list that called it sees it. -/
theorem Word.Opens.enters {w : Word} {t : Token} {body : List Token} {start : Machine}
    (h : w.Opens (callEntered ⟨w.name, t.location⟩ m) body start) (hcall : m₀.Calls tokens t w)
    (hmem : w ∈ m.dictionary.words) (hm : Underway m₀ m) (hrest : m₀.rest ⊆ tokens) :
    m₀.Enters tokens t w body start := by
  cases h with
  | body hw =>
    refine ⟨hcall, ?_, hm.words, .inl ⟨hw, hmem, ?_⟩⟩
    · rw [← hm.calls]
      rfl
    · rw [← hm.depth]
      rfl
  | @block word _ hw hword hbody hstart =>
    refine ⟨hcall, ?_, fun v hv => ?_, .inr ⟨word, hword, hw, ?_, ?_⟩⟩
    · rw [hstart.calls, ← hm.calls]
      rfl
    · exact (hstart.words v hv).elim (hm.words v) .inr
    · exact .trans (.of_subset fun u hu => hrest (hm.rest_suffix.subset hu)) hbody
    · rw [hstart.depth, ← hm.depth]
      rfl

/-- What a token list hands on: what it meets itself, and what the lists of its words fail with. -/
abbrev Machine.Hands (m₀ : Machine) (tokens : List Token) (r : Runner) {α : Type}
    (act : Varied Runner α) : Prop :=
  Traced (m₀.Meets tokens) (fun body start => ∃ t w, m₀.Enters tokens t w body start) Underway r m₀
    act

theorem hands_stray {t : Token} (ht : t ∈ tokens)
    (hlexeme : t.lexeme = .colon ∨ t.lexeme = .semicolon) :
    m₀.Hands tokens r fun _ =>
      update (located t.location) >>= fun _ => (raise (.strayLexeme t.lexeme) : Exec Unit) := by
  intro m hm
  refine tracedAt_const ?_ hm fun f m' hf => .stray ht hlexeme ?_
  · exact .bind (always_update fun m => keeps_location m _) fun _ => always_raise _
  · cases hf
    rw [← hm.calls]
    rfl

/-- The token is taken from those that the stream holds. -/
theorem hands_nextToken? (hrest : m₀.rest ⊆ tokens) {next : Option Token → Varied Runner Unit}
    (hnone : m₀.Hands tokens r (next none))
    (hsome : ∀ t ∈ tokens, m₀.Hands tokens r (next (some t))) :
    m₀.Hands tokens r (Setting.act nextToken? >>= next) := by
  intro m hm
  rcases hs : m.streams with _ | ⟨⟨_ | ⟨t, rest⟩⟩, outer⟩
  · exact (hnone m hm).of_apply fun _ => bind_of_done (nextToken?_nil hs)
  · exact (hnone m hm).of_apply fun _ => bind_of_done (nextToken?_done hs)
  · have ht : t ∈ m.rest := by simp [Machine.rest, hs]
    have hm₁ := hm.trans (keeps_withRest hs (List.suffix_cons t rest))
    exact (hsome t (hrest (hm.rest_suffix.subset ht)) _ hm₁).of_apply fun _ =>
      bind_of_done (nextToken?_cons hs)

def handingStreams (r : Runner) (hrest : m₀.rest ⊆ tokens) :
    StreamWalk (Varied Runner) (Varied Runner) where
  toPairing := tracing (m₀.Meets tokens) (fun body start => ∃ t w, m₀.Enters tokens t w body start)
    Underway r m₀
  token t u := t = u ∧ t ∈ tokens
  lexeme h := by rw [h.1]
  next hnone hsome := hands_nextToken? hrest hnone fun t ht => hsome t t ⟨rfl, ht⟩
  located _ _ _ h :=
    .bind (traced_safe (always_update fun m => keeps_location m _) fun _ => rfl) fun _ => h
  stray ht hlexeme := hands_stray ht.2 hlexeme
  push c := traced_safe (push_keeps c) fun _ => rfl
  write text := traced_safe (write_keeps text) fun _ => rfl

include hr hm₀

theorem hands_runWord (hrest : m₀.rest ⊆ tokens) (n : Nat) {t : Token} {name : String}
    (ht : t ∈ tokens) (hname : t.lexeme = .word name) (hm : Underway m₀ m) {w : Word}
    (hw : m.meaning name = .word w) :
    TracedAt (m₀.Meets tokens) (fun body start => ∃ t w, m₀.Enters tokens t w body start) Underway r
      m₀ (fun r => runWord r n t.location w) m := by
  have hcall := hm.calls_of_meaning ht hname hw
  have hmem := (Dictionary.get?_eq_some (meaning_eq_word hw)).1
  refine ⟨?_, fun body start => ?_, ?_⟩
  · exact (runWord_later hr n t.location w m).imp fun _ hm' => hm.trans hm'.underway
  · exact runWord_below (answering_below r body start) (Nat.le_refl n) t.location w m
  · apply (traces_runWord hr (hm.streams_ne_nil hm₀) n t.location w).imp
    · intro f hf
      refine .word hcall ?_ hf.kind
      rw [hf.trace, ← hm.calls]
      rfl
    · exact fun body start hopens => ⟨t, w, hopens.enters hcall hmem hm hrest⟩

theorem hands_runStream (hrest : m₀.rest ⊆ tokens) (n : Nat) :
    m₀.Hands tokens r fun r => runStream r n := by
  have hrun : (handingStreams r hrest).rel
      (runStreamVia (fun i r => i.run r) n : Varied Runner Unit)
      (runStreamVia (fun i r => i.run r) n : Varied Runner Unit) := by
    refine (handingStreams r hrest).run ?_ (.refl n)
    intro n k t u name after after' _ ht hname hafter m hm
    have hpush (c : Cell) : m₀.Hands tokens r (Setting.act (push c) >>= fun _ => after) :=
      .bind (traced_safe (push_keeps c) fun _ => rfl) fun _ => hafter
    have hmeaning : TracedAt (m₀.Meets tokens)
        (fun body start => ∃ t w, m₀.Enters tokens t w body start) Underway r m₀
        (runMeaning (fun i r => i.run r) n t.location name after (m.meaning name)) m := by
      cases hmeaning : m.meaning name with
      | address value => exact hpush value m hm
      | number value => exact hpush value m hm
      | unknown => exact traced_safe (write_keeps _) (fun _ => rfl) m hm
      | word w =>
        exact (hands_runWord hr hm₀ hrest n ht.2 hname hm hmeaning).bind fun _ m₁ _ => hafter m₁
    exact hmeaning.of_apply fun _ => rfl
  rw [Varied.runStream_eq] at hrun
  exact hrun

end Lists

/-- A token list that fails meets the fault itself or was handed it by the list of a word. -/
inductive Machine.Origin (n : Nat) (tokens : List Token) (m : Machine) (f : Fault) : Prop
  | here (h : m.Meets tokens f)
  | inner {t : Token} {w : Word} {body : List Token} {start left : Machine}
    (henters : m.Enters tokens t w body start)
    (hconsults : Consults (fun runner => runListVia (Invocation.run runner) n tokens) (runTokens n) m
      body start)
    (hrun : runTokens n body start = .failed f left)

theorem Machine.origin_of_failed {n : Nat} {tokens : List Token} {m m' : Machine} {f : Fault}
    (h : runTokens (n + 1) tokens m = .failed f m') : m.Origin n tokens f := by
  have hstream : (streamEntered tokens m).Hands tokens (runTokens n) fun r => runStream r n :=
    hands_runStream (runTokens_restored n) (List.cons_ne_nil _ _) (List.Subset.refl tokens) n
  have hlist := ((hstream _ (.refl _)).traces.after streamExited).onFault (fun f => !f.isLeave) cleared
  rcases hlist f m' h with hown | ⟨body, start, left, ⟨t, w, henters⟩, hrun, hwait⟩
  · cases hown with
    | stray ht hlexeme hf => exact .here (.stray ht hlexeme hf)
    | word hcall htrace hkind =>
      exact .here (.word ⟨hcall.token, hcall.name, hcall.word⟩ htrace hkind)
  · refine .inner ⟨⟨henters.token, henters.name, henters.word⟩, henters.calls, henters.words,
      henters.level⟩ (.of_unfinished hwait h) hrun

end TokenForth

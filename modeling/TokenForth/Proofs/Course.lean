import TokenForth.Proofs.Parsing
import TokenForth.Proofs.Quiet
import TokenForth.Proofs.Walk

/-!
# The words that a run invokes

The engine in a setting that keeps a record of every word it invokes and of the machine at which it
does so. Without the record it is the engine itself. A run is made of quiet actions, which keep the
variables and are not left, and of the words in its record, so a property of runs is shown by going
through the ways in which they are made.
-/
namespace TokenForth

open Exec Machine

/-- A word that is invoked, with the machine before the call. -/
structure Invoked where
  word : Word
  machine : Machine

/-- An action with the words it invokes, in the order it invokes them. -/
structure Course (α : Type) where
  act : Exec α
  invoked : Machine → List Invoked

namespace Course

variable {α β : Type}

def silent (act : Exec α) : Course α := ⟨act, fun _ => []⟩

def note (w : Word) : Course Unit := ⟨pure (), fun m => [⟨w, m⟩]⟩

/-- What an action that goes on with the outcome of another invokes. -/
def invokedBehind (next : α → Course β) : Outcome α → List Invoked
  | .done a m => (next a).invoked m
  | _ => []

instance : Monad Course where
  pure a := silent (pure a)
  bind x next :=
    ⟨x.act >>= fun a => (next a).act, fun m => x.invoked m ++ invokedBehind next (x.act m)⟩

instance : Setting Course where
  act := silent
  after x change := ⟨x.act.after change, x.invoked⟩
  onFault x test change := ⟨x.act.onFault test change, x.invoked⟩
  catchLeave x := ⟨x.act.catchLeave, x.invoked⟩

def runWord (runner : Runner Course) (steps : Nat) (location : Location) (w : Word) :
    Course Unit := do
  note w
  Machine.runWord runner steps location w

def runTokens : Nat → Runner Course :=
  runTokensVia fun runner i => runWord runner i.steps i.location i.word

def process (steps : Nat) (path text : String) : Course (List String) :=
  runResultsVia (runTokens steps) (Statement.results path text)

end Course

/-- A fault of a source text is not the signal of `LEAVE`. -/
theorem Statement.isLeave_of_mem_results {path text : String} {f : Fault}
    (h : .error f ∈ Statement.results path text) : f.isLeave = false := by
  have hsource := source_of_mem_results h
  rw [← Bool.not_eq_true]
  intro hleave
  have hcause : f.cause = .leave := of_decide_eq_true hleave
  simp [Fault.kind, hcause, Fault.Cause.kind, Fault.Kind.isLexical, Fault.Kind.isStructural]
    at hsource

def Word.isNested (w : Word) : Bool :=
  match w.action with
  | .body _ | .primitive (.flow .conditional) | .primitive (.flow .counted)
  | .primitive (.flow .repeated) => true
  | .primitive _ => false

structure Machine.Steady (m m' : Machine) : Prop where
  memory : m'.memory = m.memory
  returns : m'.returns = m.returns

/-- The ways in which a run from a machine to an outcome is made of the words it invokes. -/
inductive Made : Machine → List Invoked → Outcome Unit → Prop
  | quiet {m o} (h : o.Calm m) : Made m [] o
  | seq {m m₁ first second o} (h : Made m first (.done () m₁)) (h' : Made m₁ second o) :
    Made m (first ++ second) o
  | done {m m₁ m' invoked} (h : Made m invoked (.done () m₁)) (hm : Steady m₁ m') :
    Made m invoked (.done () m')
  | failed {m m₁ m' invoked f} (h : Made m invoked (.failed f m₁)) (hm : Steady m₁ m') :
    Made m invoked (.failed f m')
  /-- A loop that is left goes on behind its end. -/
  | caught {m m' invoked f} (h : Made m invoked (.failed f m')) : Made m invoked (.done () m')
  | nested {m invoked o w} (hw : w.isNested = true) (h : Made m invoked o) :
    Made m (⟨w, m⟩ :: invoked) o
  | primitive {w} (hw : w.isNested = false) (runner : Runner) (n : Nat) (location : Location)
    (m : Machine) : Made m [⟨w, m⟩] (runWord runner n location w m)

theorem Machine.Closing.steady {change : Machine → Machine} (h : Closing change) (m : Machine) :
    Steady m (change m) := by
  cases h with
  | loop =>
    unfold loopExited
    split <;> exact ⟨rfl, rfl⟩
  | word | call | stream => exact ⟨rfl, rfl⟩

/-- The course is that of the action, whose runs are made of the words in it. -/
structure Course.Records {α : Type} (x : Course α) (act : Exec α) : Prop where
  act_eq : x.act = act
  made : ∀ m, Made m (x.invoked m) ((act m).map fun _ => ())

theorem Outcome.map_unit (o : Outcome Unit) : (o.map fun _ => ()) = o := by
  cases o <;> rfl

namespace Course

variable {α β : Type}

theorem records_silent {act : Exec α} (h : Quiet act) : Records (silent act) act := by
  refine ⟨rfl, fun m => .quiet ?_⟩
  have hm := h m
  cases hact : act m <;> rw [hact] at hm <;> exact hm

theorem Records.bind {x : Course α} {act : Exec α} {next : α → Course β} {next' : α → Exec β}
    (h : Records x act) (hnext : ∀ a, Records (next a) (next' a)) :
    Records (x >>= next) (act >>= next') := by
  refine ⟨?_, fun m => ?_⟩
  · have hnext' : (fun a => (next a).act) = next' := funext fun a => (hnext a).act_eq
    rw [← h.act_eq, ← hnext']
    rfl
  · have hm := h.made m
    have hinvoked : (x >>= next).invoked m = x.invoked m ++ invokedBehind next (act m) := by
      rw [← h.act_eq]
      rfl
    rw [hinvoked]
    simp only [Bind.bind]
    cases hact : act m with
    | done a m₁ =>
      rw [hact] at hm
      exact .seq hm ((hnext a).made m₁)
    | failed f m₁ =>
      rw [hact] at hm
      exact (List.append_nil _).symm ▸ hm
    | unfinished =>
      rw [hact] at hm
      exact (List.append_nil _).symm ▸ hm

theorem Records.after {x : Course Unit} {act : Exec Unit} {change : Machine → Machine}
    (h : Records x act) (hchange : Closing change) :
    Records (Setting.after x change) (act.after change) := by
  refine ⟨congrArg (Exec.after · change) h.act_eq, fun m => ?_⟩
  have hm := h.made m
  simp only [Setting.after, Exec.after]
  cases hact : act m with
  | done a m₁ =>
    rw [hact] at hm
    exact .done hm (hchange.steady m₁)
  | failed f m₁ =>
    rw [hact] at hm
    exact .failed hm (hchange.steady m₁)
  | unfinished =>
    rw [hact] at hm
    exact hm

theorem Records.onFault {x : Course Unit} {act : Exec Unit} (h : Records x act)
    (test : Fault → Bool) :
    Records (Setting.onFault x test cleared) (act.onFault test cleared) := by
  refine ⟨congrArg (Exec.onFault · test cleared) h.act_eq, fun m => ?_⟩
  have hm := h.made m
  simp only [Setting.onFault, Exec.onFault]
  cases hact : act m with
  | done a m₁ => rw [hact] at hm; exact hm
  | failed f m₁ =>
    rw [hact] at hm
    cases hf : test f with
    | true =>
      simp only [hf, if_true]
      exact hm.failed ⟨rfl, rfl⟩
    | false =>
      simp only [hf, Bool.false_eq_true, if_false]
      exact hm
  | unfinished => rw [hact] at hm; exact hm

theorem Records.catchLeave {x : Course Unit} {act : Exec Unit} (h : Records x act) :
    Records (Setting.catchLeave x) act.catchLeave := by
  refine ⟨congrArg Exec.catchLeave h.act_eq, fun m => ?_⟩
  have hm := h.made m
  simp only [Setting.catchLeave, Exec.catchLeave]
  cases hact : act m with
  | done a m₁ => rw [hact] at hm; exact hm
  | failed f m₁ =>
    rw [hact] at hm
    cases hf : f.isLeave with
    | true =>
      simp only [hf, if_true]
      exact hm.caught
    | false =>
      simp only [hf, Bool.false_eq_true, if_false]
      exact hm
  | unfinished => rw [hact] at hm; exact hm

theorem memory_loopEntered (index : Cell) (m : Machine) :
    (loopEntered index m).memory = m.memory := by
  unfold loopEntered
  split <;> rfl

theorem memory_loopUpdated (index : Cell) (m : Machine) :
    (loopUpdated index m).memory = m.memory := by
  unfold loopUpdated
  split <;> rfl

theorem records_update {change : Machine → Machine} (h : ∀ m, (change m).memory = m.memory) :
    Records (silent (Exec.update change)) (Exec.update change) := records_silent (quiet_update h)

/-- A word that runs token lists is on record before the words it invokes. -/
theorem Records.nested {x : Course Unit} {act : Exec Unit} {w : Word} (h : Records x act)
    (hw : w.isNested = true) : Records (note w >>= fun _ => x) act := by
  refine ⟨h.act_eq, fun m => ?_⟩
  exact .nested hw (h.made m)

def recording : Pairing Course Exec where
  rel := Records
  patient := False
  patience := nofun
  unfinished := records_silent quiet_unfinished
  pure a := records_silent (quiet_pure a)
  bind := .bind

def recordedBlocks : BlockWalk Course Exec where
  toPairing := recording
  pass := Records
  token := Eq
  tokens := Eq
  lexeme := congrArg Token.lexeme
  substituted := substitute_of_eq
  raise h _ := records_silent (quiet_raise h)
  pop := records_silent quiet_pop
  popFlag := records_silent quiet_popFlag
  takeBlock v _ _ h := .bind (records_silent (quiet_takeBlock v)) fun b => h b b (.refl b)
  catchLeave := .catchLeave
  passed h := h
  passing := .bind
  updated index _ _ h := .bind (records_update (memory_loopUpdated index)) fun _ =>
    .bind (records_silent quiet_state) fun _ => h _
  looped start _ _ h := .bind (records_update (memory_loopEntered start)) fun _ =>
    (h.after .loop).catchLeave

def recordedStreams : StreamWalk Course Exec where
  toPairing := recording
  token := Eq
  lexeme := congrArg Token.lexeme
  next hnone hsome := .bind (records_silent quiet_nextToken?) <| by
    rintro (_ | t)
    · exact hnone
    · exact hsome t t rfl
  located h _ _ hx := by rw [h]; exact .bind (records_update fun _ => rfl) fun _ => hx
  stray h _ := by
    rw [h]
    exact .bind (records_update fun _ => rfl) fun _ => records_silent (quiet_raise nofun)
  push c := records_silent (quiet_push c)
  write text := records_silent (quiet_write text)

/-- A word that runs no token list is the only one on record. -/
theorem records_primitive {runner : Runner Course} {r : Runner} {p : Primitive} {w : Word}
    (hw : w.action = .primitive p) (hp : ∀ word, p = .flow word → word = .leave) (steps : Nat)
    (location : Location) :
    Records (runWord runner steps location w) (Machine.runWord r steps location w) := by
  have hnested : w.isNested = false := by
    rw [Word.isNested, hw]
    cases p with
    | flow word =>
      cases hp word rfl
      rfl
    | _ => rfl
  have hsilent : runAction runner steps w = silent (p.run r steps) := by
    rw [runAction, hw]
    exact p.run_eq_act hp runner steps r steps
  have haction : runAction r steps w = p.run r steps := by rw [runAction, hw]
  refine ⟨?_, fun m => ?_⟩
  · simp only [runWord, Machine.runWord, hsilent, haction]
    rfl
  · rw [Outcome.map_unit]
    have hinvoked : (runWord runner steps location w).invoked m = [⟨w, m⟩] := by
      simp only [runWord, Machine.runWord, hsilent]
      rfl
    rw [hinvoked]
    exact .primitive hnested r steps location m

section Runner

variable {runner : Runner Course} {r : Runner} (hr : ∀ tokens, Records (runner tokens) (r tokens))

include hr

theorem records_runBody (name : String) (body : List Token) :
    Records (Machine.runBody runner name body) (Machine.runBody r name body) := by
  have hcheck (before : Nat) : Quiet (checkReturns name before) := by
    refine .bind quiet_state fun m => .ite (quiet_pure _) ?_
    exact .bind (quiet_update fun _ => rfl) fun _ => quiet_raise nofun
  refine .bind (records_silent quiet_state) fun m => ?_
  split
  · exact records_silent (quiet_raise nofun)
  · refine .bind (.bind (records_update fun _ => rfl) fun _ => (hr body).after .word) fun _ => ?_
    exact records_silent (hcheck _)

theorem records_runWord (steps : Nat) (location : Location) (w : Word) :
    Records (runWord runner steps location w) (Machine.runWord r steps location w) := by
  have hcall (h : Records (runAction runner steps w) (runAction r steps w)) :
      Records (Machine.runWord runner steps location w) (Machine.runWord r steps location w) :=
    .bind (records_update fun _ => rfl) fun _ => h.after .call
  cases haction : w.action with
  | body tokens =>
    apply (hcall _).nested
    · rw [Word.isNested, haction]
    · rw [runAction, runAction, haction]
      exact records_runBody hr w.name tokens
  | primitive p =>
    by_cases hp : ∀ word, p = .flow word → word = .leave
    · exact records_primitive haction hp steps location
    · simp only [not_forall] at hp
      obtain ⟨word, rfl, hword⟩ := hp
      apply (hcall _).nested
      · cases word with
        | leave => exact absurd rfl hword
        | _ => rw [Word.isNested, haction]
      · rw [runAction, runAction, haction]
        exact recordedBlocks.run (fun h => h ▸ hr _) (.refl steps) hword

end Runner

theorem records_runTokens (steps : Nat) (tokens : List Token) :
    Records (runTokens steps tokens) (Machine.runTokens steps tokens) := by
  induction steps generalizing tokens with
  | zero => exact records_silent quiet_unfinished
  | succ steps ih =>
    refine .bind (records_update fun _ => rfl) fun _ => .onFault (.after ?_ .stream) _
    refine recordedStreams.run ?_ (.refl steps)
    intro n k t u name rest rest' hn ht _ hrest
    cases hn.eq id
    subst ht
    exact recordedStreams.meaning name hrest (records_silent quiet_state) fun w =>
      records_runWord ih n t.location w

def recordedSources (path text : String) : SourceWalk Course Exec where
  toPairing := recording
  occurs result := result ∈ Statement.results path text
  takeOutput := records_silent fun _ => rfl
  fault h := records_silent (.bind (quiet_update fun _ => rfl) fun _ =>
    quiet_fail (Statement.isLeave_of_mem_results h))
  define _ := records_silent (quiet_define _)

/-- The course of a source is the run of the source, made of the words that are invoked. -/
theorem records_process (steps : Nat) (path text : String) :
    Records (process steps path text) (Machine.process steps path text) :=
  (recordedSources path text).run (fun _ => (records_runTokens steps _).onFault _) fun _ h => h

end Course

end TokenForth

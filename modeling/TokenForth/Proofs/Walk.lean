import Mathlib.Data.List.Forall2
import TokenForth.Engine

/-!
# Going through the engine

What is shown of runs by going through the parts of the engine is shown of two runs at once, each in
a setting of its own. A relation between actions says what every operation owes, and with it the runs
of control words are related, or those of streams, or those of sources. A relation that is kept by
whatever actions have in common is a congruence, and relates whole runs.
-/
namespace TokenForth

open Machine Setting

/-- Blocks whose segments correspond, as token lists do, and with them the words between. -/
structure Block.Related (token : Token → Token → Prop) (tokens : List Token → List Token → Prop)
    (b b' : Block) : Prop where
  first : tokens b.first b'.first
  parts : List.Forall₂ (fun p p' => token p.1 p'.1 ∧ tokens p.2 p'.2) b.parts b'.parts
  closer : token b.closer b'.closer

theorem Block.Related.of_segments {P : List Token → Prop} {b : Block}
    (h : ∀ segment ∈ b.segments, P segment) :
    b.Related Eq (fun ts us => ts = us ∧ P ts) b := by
  refine ⟨⟨rfl, h _ List.mem_cons_self⟩, ?_, rfl⟩
  refine List.forall₂_same.mpr fun part hpart => ⟨rfl, rfl, h _ ?_⟩
  exact List.mem_cons_of_mem _ (List.mem_map_of_mem hpart)

theorem Block.Related.refl (b : Block) : b.Related Eq Eq b :=
  ⟨rfl, List.forall₂_same.mpr fun _ _ => ⟨rfl, rfl⟩, rfl⟩

theorem substitute_of_eq {ts us : List Token} (h : ts = us) (indices : List Cell) :
    substitute indices ts = substitute indices us := by
  rw [h]

variable {M N : Type → Type} [Setting M] [Setting N]

/-- A primitive that runs no token list is one action in every setting. -/
theorem Primitive.run_eq_act {p : Primitive} (h : ∀ word, p = .flow word → word = .leave)
    (runner : Runner M) (n : Nat) (r : Runner) (k : Nat) : p.run runner n = act (p.run r k) := by
  cases p with
  | flow word =>
    cases h word rfl
    rfl
  | _ => rfl

/-- A relation between actions of two settings that is kept when they are put one after another. -/
structure Pairing (M N : Type → Type) [Setting M] [Setting N] where
  rel : {α : Type} → M α → N α → Prop
  /-- Whether the second action may be given more steps. -/
  patient : Prop
  patience : patient → ∀ y : N Unit, rel (act Exec.unfinished) y
  unfinished : rel (act Exec.unfinished : M Unit) (act Exec.unfinished)
  pure : ∀ {α : Type} (a : α), rel (Pure.pure a) (Pure.pure a)
  bind : ∀ {α β : Type} {x : M α} {y : N α} {f : α → M β} {g : α → N β}, rel x y →
    (∀ a, rel (f a) (g a)) → rel (x >>= f) (y >>= g)

namespace Pairing

inductive Steps (P : Pairing M N) : Nat → Nat → Prop
  | zero : Steps P 0 0
  | early (h : P.patient) (k : Nat) : Steps P 0 k
  | succ {n k : Nat} (h : Steps P n k) : Steps P (n + 1) (k + 1)

variable {P : Pairing M N}

theorem Steps.refl (n : Nat) : P.Steps n n := by
  induction n with
  | zero => exact .zero
  | succ n ih => exact .succ ih

theorem Steps.of_le (h : P.patient) {n k : Nat} (hn : n ≤ k) : P.Steps n k := by
  induction n generalizing k with
  | zero => exact .early h k
  | succ n ih =>
    obtain ⟨k, rfl⟩ : ∃ j, k = j + 1 := ⟨k - 1, by omega⟩
    exact .succ (ih (by omega))

theorem Steps.eq {n k : Nat} (h : P.Steps n k) (hpatient : ¬ P.patient) : n = k := by
  induction h with
  | zero => rfl
  | early h => exact absurd h hpatient
  | succ _ ih => rw [ih]

theorem Steps.le {n k : Nat} (h : P.Steps n k) : n ≤ k := by
  induction h with
  | zero => exact Nat.le_refl 0
  | early _ k => exact Nat.zero_le k
  | succ _ ih => exact Nat.succ_le_succ ih

end Pairing

/-- A relation that the operations of control words keep. The passes of a counted loop, which move
its index, may be related in another way. -/
structure BlockWalk (M N : Type → Type) [Setting M] [Setting N] extends Pairing M N where
  pass : M Unit → N Unit → Prop
  token : Token → Token → Prop
  tokens : List Token → List Token → Prop
  lexeme : ∀ {t u}, token t u → t.lexeme = u.lexeme
  substituted : ∀ {ts us}, tokens ts us → ∀ indices,
    tokens (substitute indices ts) (substitute indices us)
  raise : ∀ {cause : Fault.Cause}, cause ≠ .leave → cause.kind ≠ .internal →
    rel (act (Exec.raise cause) : M Unit) (act (Exec.raise cause))
  pop : rel (act Machine.pop : M Cell) (act Machine.pop)
  popFlag : rel (act Machine.popFlag : M Bool) (act Machine.popFlag)
  takeBlock : ∀ (v : Vocabulary) {f : Block → M Unit} {g : Block → N Unit},
    (∀ b b', b.Related token tokens b' → rel (f b) (g b')) →
      rel (act (Flow.takeBlock v) >>= f) (act (Flow.takeBlock v) >>= g)
  catchLeave : ∀ {x : M Unit} {y : N Unit}, rel x y → rel (Setting.catchLeave x) (Setting.catchLeave y)
  passed : ∀ {x : M Unit} {y : N Unit}, rel x y → pass x y
  passing : ∀ {α : Type} {x : M α} {y : N α} {f : α → M Unit} {g : α → N Unit}, rel x y →
    (∀ a, pass (f a) (g a)) → pass (x >>= f) (y >>= g)
  updated : ∀ (index : Cell) {f : List Cell → M Unit} {g : List Cell → N Unit},
    (∀ indices, pass (f indices) (g indices)) →
      pass (act (updateLoop index) >>= fun _ => act Exec.state >>= fun m => f m.indices)
        (act (updateLoop index) >>= fun _ => act Exec.state >>= fun m => g m.indices)
  looped : ∀ (start : Cell) {x : M Unit} {y : N Unit}, pass x y →
    rel (act (enterLoop start) >>= fun _ => Setting.catchLeave (after x loopExited))
      (act (enterLoop start) >>= fun _ => Setting.catchLeave (after y loopExited))

namespace BlockWalk

variable {W : BlockWalk M N} {r : Runner M} {r' : Runner N}
  (hr : ∀ {ts us}, W.tokens ts us → W.rel (r ts) (r' us))

theorem closerName {b b' : Block} (h : b.Related W.token W.tokens b') :
    b.closerName = b'.closerName := by
  simp only [Block.closerName, Token.name?, W.lexeme h.closer]

theorem takeStep (stepped : Bool) :
    W.rel (Flow.takeStep stepped : M Cell) (Flow.takeStep stepped) := by
  cases stepped with
  | true => exact W.pop
  | false => exact W.pure 1

include hr

theorem runConditional : W.rel (Flow.runConditional r) (Flow.runConditional r') := by
  refine W.takeBlock _ fun b b' hb => ?_
  obtain ⟨first, parts, closer⟩ := b
  obtain ⟨first', parts', closer'⟩ := b'
  obtain ⟨hfirst, hparts, -⟩ := hb
  cases hparts with
  | nil =>
    refine W.bind W.popFlag fun flag => ?_
    cases flag with
    | true => exact hr hfirst
    | false => exact W.pure ()
  | cons hpart hrest =>
    cases hrest with
    | nil =>
      refine W.bind W.popFlag fun flag => ?_
      cases flag with
      | true => exact hr hfirst
      | false => exact hr hpart.2
    | cons _ _ => exact W.raise nofun nofun

theorem runPasses {body body' : List Token} (hbody : W.tokens body body') (limit : Cell)
    (stepped : Bool) {n k : Nat} (hn : W.Steps n k) (index : Cell) :
    W.pass (Flow.runPasses r body limit stepped n index)
      (Flow.runPasses r' body' limit stepped k index) := by
  induction hn generalizing index with
  | zero => exact W.passed W.unfinished
  | early h k => exact W.passed (W.patience h _)
  | succ _ ih =>
    refine W.updated index fun indices => W.passing (hr (W.substituted hbody indices)) fun _ =>
      W.passing (takeStep stepped) fun step => ?_
    unfold Flow.nextPass
    cases Cell.add? index step with
    | none => exact W.passed (W.pure ())
    | some index =>
      dsimp only
      split
      · exact W.passed (W.pure ())
      · exact ih index

theorem runCounted {n k : Nat} (hn : W.Steps n k) :
    W.rel (Flow.runCounted r n) (Flow.runCounted r' k) := by
  refine W.bind W.pop fun start => W.bind W.pop fun limit => W.takeBlock _ fun b b' hb => ?_
  rw [closerName hb]
  exact W.looped start (runPasses hr hb.first limit _ hn start)

theorem runUntil {body body' : List Token} (hbody : W.tokens body body') {n k : Nat}
    (hn : W.Steps n k) : W.rel (Flow.runUntil r body n) (Flow.runUntil r' body' k) := by
  induction hn with
  | zero => exact W.unfinished
  | early h k => exact W.patience h _
  | succ _ ih =>
    refine W.bind (hr hbody) fun _ => W.bind W.popFlag fun flag => ?_
    cases flag with
    | true => exact W.pure ()
    | false => exact ih

theorem runAgain {body body' : List Token} (hbody : W.tokens body body') {n k : Nat}
    (hn : W.Steps n k) : W.rel (Flow.runAgain r body n) (Flow.runAgain r' body' k) := by
  induction hn with
  | zero => exact W.unfinished
  | early h k => exact W.patience h _
  | succ _ ih => exact W.bind (hr hbody) fun _ => ih

theorem runWhile {test test' body body' : List Token} (htest : W.tokens test test')
    (hbody : W.tokens body body') {n k : Nat} (hn : W.Steps n k) :
    W.rel (Flow.runWhile r test body n) (Flow.runWhile r' test' body' k) := by
  induction hn with
  | zero => exact W.unfinished
  | early h k => exact W.patience h _
  | succ _ ih =>
    refine W.bind (hr htest) fun _ => W.bind W.popFlag fun flag => ?_
    cases flag with
    | true => exact W.bind (hr hbody) fun _ => ih
    | false => exact W.pure ()

theorem runRepeated {n k : Nat} (hn : W.Steps n k) :
    W.rel (Flow.runRepeated r n) (Flow.runRepeated r' k) := by
  refine W.takeBlock _ fun b b' hb => ?_
  rw [closerName hb]
  generalize b'.closerName = closer
  obtain ⟨first, parts, _⟩ := b
  obtain ⟨first', parts', _⟩ := b'
  obtain ⟨hfirst, hparts, -⟩ := hb
  cases hparts with
  | nil =>
    dsimp only
    split
    · exact W.catchLeave (runUntil hr hfirst hn)
    · exact W.catchLeave (runAgain hr hfirst hn)
    · exact W.raise nofun nofun
  | cons hpart hrest =>
    cases hrest with
    | nil =>
      dsimp only
      split
      · exact W.catchLeave (runWhile hr hfirst hpart.2 hn)
      · exact W.raise nofun nofun
    | cons _ _ => exact W.raise nofun nofun

/-- A control word that runs token lists is related to itself. -/
theorem run {n k : Nat} (hn : W.Steps n k) {word : Flow} (hword : word ≠ .leave) :
    W.rel (word.run r n) (word.run r' k) := by
  cases word with
  | conditional => exact runConditional hr
  | counted => exact runCounted hr hn
  | repeated => exact runRepeated hr hn
  | leave => exact absurd rfl hword

end BlockWalk

/-- A relation that the operations of streams keep. A token that no stream may hold is met where the
machine stands. -/
structure StreamWalk (M N : Type → Type) [Setting M] [Setting N] extends Pairing M N where
  token : Token → Token → Prop
  lexeme : ∀ {t u}, token t u → t.lexeme = u.lexeme
  next : ∀ {f : Option Token → M Unit} {g : Option Token → N Unit}, rel (f none) (g none) →
    (∀ t u, token t u → rel (f (some t)) (g (some u))) →
      rel (act nextToken? >>= f) (act nextToken? >>= g)
  located : ∀ {t u}, token t u → ∀ {x : M Unit} {y : N Unit}, rel x y →
    rel (act (Exec.update (Machine.located t.location)) >>= fun _ => x)
      (act (Exec.update (Machine.located u.location)) >>= fun _ => y)
  stray : ∀ {t u}, token t u → t.lexeme = .colon ∨ t.lexeme = .semicolon →
    rel (act (Exec.update (Machine.located t.location)) >>= fun _ =>
        (act (Exec.raise (.strayLexeme t.lexeme)) : M Unit))
      (act (Exec.update (Machine.located u.location)) >>= fun _ =>
        act (Exec.raise (.strayLexeme t.lexeme)))
  push : ∀ c, rel (act (Machine.push c) : M Unit) (act (Machine.push c))
  write : ∀ text, rel (act (Machine.write text) : M Unit) (act (Machine.write text))

namespace StreamWalk

variable {W : StreamWalk M N} {invoke : Invocation → M Unit} {invoke' : Invocation → N Unit}

/-- What a name means to one machine is related to itself if the words are. -/
theorem meaning {n k : Nat} {location : Location} (name : String) {rest : M Unit} {rest' : N Unit}
    (hrest : W.rel rest rest')
    (hstate : W.rel (act Exec.state : M Machine) (act Exec.state))
    (hinvoke : ∀ w, W.rel (invoke ⟨n, location, w⟩) (invoke' ⟨k, location, w⟩)) :
    W.rel (act Exec.state >>= fun m => runMeaning invoke n location name rest (m.meaning name))
      (act Exec.state >>= fun m => runMeaning invoke' k location name rest' (m.meaning name)) := by
  refine W.bind hstate fun m => ?_
  cases m.meaning name with
  | address value => exact W.bind (W.push value) fun _ => hrest
  | number value => exact W.bind (W.push value) fun _ => hrest
  | word w => exact W.bind (hinvoke w) fun _ => hrest
  | unknown => exact W.write _

variable (hword : ∀ {n k t u name} {rest : M Unit} {rest' : N Unit}, W.Steps n k → W.token t u →
  t.lexeme = .word name → W.rel rest rest' →
    W.rel (act Exec.state >>= fun m => runMeaning invoke n t.location name rest (m.meaning name))
      (act Exec.state >>= fun m => runMeaning invoke' k u.location name rest' (m.meaning name)))

include hword

/-- Streams are related if the words in them are. -/
theorem run {n k : Nat} (hn : W.Steps n k) :
    W.rel (runStreamVia invoke n) (runStreamVia invoke' k) := by
  induction hn with
  | zero => exact W.unfinished
  | early h k => exact W.patience h _
  | succ hk ih =>
    refine W.next (W.pure ()) fun t u ht => ?_
    have hstray := W.stray ht
    dsimp only [runToken]
    rw [← W.lexeme ht]
    cases hname : t.lexeme with
    | quote text => exact W.located ht (W.bind (W.write text) fun _ => ih)
    | comment text => exact W.located ht ih
    | number value => exact W.located ht (W.bind (W.push value) fun _ => ih)
    | word name => exact W.located ht (hword hk ht hname ih)
    | colon =>
      rw [hname] at hstray
      exact hstray (.inl rfl)
    | semicolon =>
      rw [hname] at hstray
      exact hstray (.inr rfl)

end StreamWalk

/-- A relation that the operations of sources keep, for the statements and faults that occur. -/
structure SourceWalk (M N : Type → Type) [Setting M] [Setting N] extends Pairing M N where
  occurs : Except Fault Statement → Prop
  takeOutput : rel (act Machine.takeOutput : M String) (act Machine.takeOutput)
  fault : ∀ {f}, occurs (.error f) →
    rel (act (clear >>= fun _ => Exec.fail f) : M String) (act (clear >>= fun _ => Exec.fail f))
  define : ∀ {tokens}, occurs (.ok (.declaration tokens)) →
    rel (act (Machine.define tokens) : M Unit) (act (Machine.define tokens))

namespace SourceWalk

variable {W : SourceWalk M N} {r : Runner M} {r' : Runner N}
  (hr : ∀ {tokens}, W.occurs (.ok (.expression tokens)) →
    W.rel (onFault (r tokens) Fault.isLeave cleared) (onFault (r' tokens) Fault.isLeave cleared))

include hr

theorem result {result : Except Fault Statement} (h : W.occurs result) :
    W.rel (runResultVia r result) (runResultVia r' result) := by
  cases result with
  | error f => exact W.fault h
  | ok s =>
    refine W.bind W.takeOutput fun _ => W.bind ?_ fun _ => W.takeOutput
    cases s with
    | declaration tokens => exact W.define h
    | expression tokens => exact hr h

/-- Sources are related if the expressions in them are. -/
theorem run {results : List (Except Fault Statement)} (h : ∀ result ∈ results, W.occurs result) :
    W.rel (runResultsVia r results) (runResultsVia r' results) := by
  induction results with
  | nil => exact W.pure []
  | cons first rest ih =>
    obtain ⟨hfirst, hrest⟩ := List.forall_mem_cons.mp h
    exact W.bind (result hr hfirst) fun _ => W.bind (ih hrest) fun _ => W.pure _

end SourceWalk

/-- The changes by which the engine closes what it has opened. -/
inductive Machine.Closing : (Machine → Machine) → Prop
  | loop : Closing loopExited
  | word : Closing wordExited
  | call : Closing callExited
  | stream : Closing streamExited

/-- A relation under which every action is related to itself. -/
structure Congruence (M N : Type → Type) [Setting M] [Setting N] extends Pairing M N where
  act : ∀ {α : Type} (a : Exec α), rel (Setting.act a : M α) (Setting.act a)
  after : ∀ {x : M Unit} {y : N Unit} {change : Machine → Machine}, Closing change → rel x y →
    rel (Setting.after x change) (Setting.after y change)
  onFault : ∀ {x : M Unit} {y : N Unit} (test : Fault → Bool), rel x y →
    rel (Setting.onFault x test cleared) (Setting.onFault y test cleared)
  catchLeave : ∀ {x : M Unit} {y : N Unit}, rel x y →
    rel (Setting.catchLeave x) (Setting.catchLeave y)

namespace Congruence

variable (C : Congruence M N)

def blockWalk : BlockWalk M N where
  toPairing := C.toPairing
  pass := C.rel
  token := Eq
  tokens := Eq
  lexeme := congrArg Token.lexeme
  substituted := substitute_of_eq
  raise _ _ := C.act _
  pop := C.act _
  popFlag := C.act _
  takeBlock _ _ _ h := C.bind (C.act _) fun b => h b b (.refl b)
  catchLeave := C.catchLeave
  passed h := h
  passing := C.bind
  updated _ _ _ h := C.bind (C.act _) fun _ => C.bind (C.act _) fun _ => h _
  looped _ _ _ h := C.bind (C.act _) fun _ => C.catchLeave (C.after .loop h)

def streamWalk : StreamWalk M N where
  toPairing := C.toPairing
  token := Eq
  lexeme := congrArg Token.lexeme
  next hnone hsome := C.bind (C.act _) <| by
    rintro (_ | t)
    · exact hnone
    · exact hsome t t rfl
  located h _ _ hx := by rw [h]; exact C.bind (C.act _) fun _ => hx
  stray h _ := by rw [h]; exact C.bind (C.act _) fun _ => C.act _
  push _ := C.act _
  write _ := C.act _

def sourceWalk : SourceWalk M N where
  toPairing := C.toPairing
  occurs _ := True
  takeOutput := C.act _
  fault _ := C.act _
  define _ := C.act _

variable {C}

section Runner

variable {r : Runner M} {r' : Runner N} (hr : ∀ tokens, C.rel (r tokens) (r' tokens))

include hr

theorem flow {n k : Nat} (hn : C.Steps n k) (word : Flow) : C.rel (word.run r n) (word.run r' k) := by
  by_cases hword : word = .leave
  · subst hword
    exact C.act _
  · exact C.blockWalk.run (fun h => h ▸ hr _) hn hword

theorem body (name : String) (tokens : List Token) :
    C.rel (runBody r name tokens) (runBody r' name tokens) := by
  refine C.bind (C.act _) fun m => ?_
  split
  · exact C.act _
  · exact C.bind (C.bind (C.act _) fun _ => C.after .word (hr tokens)) fun _ => C.act _

theorem word {n k : Nat} (hn : C.Steps n k) (location : Location) (w : Word) :
    C.rel (runWord r n location w) (runWord r' k location w) := by
  refine C.bind (C.act _) fun _ => C.after .call ?_
  unfold runAction
  split
  · next p _ =>
    cases p with
    | flow word => exact flow hr hn word
    | _ => exact C.act _
  · exact body hr _ _

end Runner

section Lists

variable {invoke : Invocation → M Unit} {invoke' : Invocation → N Unit}
  (h : ∀ {n k}, C.Steps n k → ∀ location w, C.rel (invoke ⟨n, location, w⟩) (invoke' ⟨k, location, w⟩))

include h

theorem stream {n k : Nat} (hn : C.Steps n k) :
    C.rel (runStreamVia invoke n) (runStreamVia invoke' k) := by
  apply C.streamWalk.run _ hn
  intro n k t u name rest rest' hn ht _ hrest
  subst ht
  exact C.streamWalk.meaning name hrest (C.act _) (h hn t.location)

theorem list {n k : Nat} (hn : C.Steps n k) (tokens : List Token) :
    C.rel (runListVia invoke n tokens) (runListVia invoke' k tokens) :=
  C.bind (C.act _) fun _ => C.onFault _ (C.after .stream (stream h hn))

end Lists

theorem tokens {hook : Runner M → Invocation → M Unit} {hook' : Runner N → Invocation → N Unit}
    (h : ∀ {r r'}, (∀ tokens, C.rel (r tokens) (r' tokens)) → ∀ {n k}, C.Steps n k →
      ∀ location w, C.rel (hook r ⟨n, location, w⟩) (hook' r' ⟨k, location, w⟩))
    {n k : Nat} (hn : C.Steps n k) (tokens : List Token) :
    C.rel (runTokensVia hook n tokens) (runTokensVia hook' k tokens) := by
  induction hn generalizing tokens with
  | zero => exact C.unfinished
  | early h k => exact C.patience h _
  | succ hn ih => exact list (h ih) hn tokens

theorem results {r : Runner M} {r' : Runner N} (hr : ∀ tokens, C.rel (r tokens) (r' tokens))
    (results : List (Except Fault Statement)) :
    C.rel (runResultsVia r results) (runResultsVia r' results) :=
  C.sourceWalk.run (fun _ => C.onFault _ (hr _)) fun _ _ => trivial

end Congruence

end TokenForth

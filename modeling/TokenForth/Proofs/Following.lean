import TokenForth.Proofs.Evaluation
import TokenForth.Proofs.Sources

/-!
# An evaluation that follows a run

A machine that runs tokens and a machine that evaluates a tree agree if they differ in their
bookkeeping only. `Follows` says that an action of the second keeps step with one of the first, while
the streams and the loop frames of the first change. There is one rule for each way to put actions
together, and the operations that need no token are followed by themselves.
-/
namespace TokenForth

open Exec Machine

theorem Variables.address?_allocate_of_ne (v : Variables) {name other : String}
    (h : other ≠ name) : (v.allocate name).2.address? other = v.address? other := by
  unfold allocate
  split
  · rfl
  · change List.lookup other ((name, _) :: v.addresses) = _
    rw [List.lookup_cons, beq_false_of_ne h]
    rfl

namespace Machine

/-- The machine without its bookkeeping: where it stands, the open calls, streams and loops. -/
def core (m : Machine) : Machine :=
  { m with location := none, calls := [], streams := [], frames := [] }

theorem eq_of_core_eq {m s : Machine} (h : m.core = s.core) :
    s = { m with
      location := s.location, calls := s.calls, streams := s.streams, frames := s.frames } := by
  obtain ⟨config, data, returns, radix, dictionary, memory⟩ := m
  obtain ⟨config', data', returns', radix', dictionary', memory'⟩ := s
  simp_all [core]

/-- What a structured program needs of the machine: `trees` gives the programs of the defined words,
the opening words of blocks are not redefined, the primitives that read tokens have the names of the
catalog, and no variable has the name of a keyword. -/
structure Fits (trees : List Token → Program) (m : Machine) : Prop where
  bodies : ∀ w ∈ m.dictionary.words, ∀ body, w.action = .body body →
    (trees body).tokens = body ∧ (trees body).isWellFormed = true
  openers : ∀ entry ∈ [("IF", Flow.conditional), ("DO", .counted), ("BEGIN", .repeated)],
    (m.dictionary.get? entry.1).map Word.action = some (.primitive (.flow entry.2))
  readers : ∀ w ∈ m.dictionary.words, ∀ p, w.action = .primitive p → p.readsTokens = true →
    ∃ e ∈ Catalog.words, e.name = w.name ∧ e.action = .primitive p
  addresses : ∀ name ∈ Program.keywords, m.memory.address? name = none

/-- Only the words and the names of the variables matter. -/
theorem Fits.of_eq {trees : List Token → Program} {m m' : Machine} (h : m.Fits trees)
    (hwords : m'.dictionary = m.dictionary)
    (hnames : m'.memory.addresses = m.memory.addresses) : m'.Fits trees := by
  refine ⟨?_, ?_, ?_, ?_⟩
  · rw [hwords]
    exact h.bodies
  · rw [hwords]
    exact h.openers
  · rw [hwords]
    exact h.readers
  · intro name hname
    rw [Variables.address?, hnames]
    exact h.addresses name hname

/-- A machine that source texts lead to has no other primitives than the catalog and constants. -/
theorem Reachable.fits {config : Config} {trees : List Token → Program} {m : Machine}
    (h : Reachable config m)
    (hbodies : ∀ w ∈ m.dictionary.words, ∀ body, w.action = .body body →
      (trees body).tokens = body ∧ (trees body).isWellFormed = true)
    (hopeners : ∀ entry ∈ [("IF", Flow.conditional), ("DO", .counted), ("BEGIN", .repeated)],
      (m.dictionary.get? entry.1).map Word.action = some (.primitive (.flow entry.2)))
    (haddresses : ∀ name ∈ Program.keywords, m.memory.address? name = none) : m.Fits trees where
  bodies := hbodies
  openers := hopeners
  readers := by
    intro w hw p hp hreads
    rcases h.kept.2.2 w hw p hp with ⟨value, hvalue⟩ | hcatalog
    · rw [hp] at hvalue
      cases hvalue
      cases hreads
    · exact hcatalog
  addresses := haddresses

end Machine

namespace Structured

structure At (streams : List TokenStream) (frames : List (List Cell)) (m : Machine) : Prop where
  streams : m.streams = streams
  frames : m.frames = frames

def Inside (outer : List TokenStream) (frames : List (List Cell)) (m : Machine) : Prop :=
  ∃ rest, At (⟨rest⟩ :: outer) frames m

variable {trees : List Token → Program}

/-- The machine that runs tokens and the one that evaluates differ in their bookkeeping only. -/
structure Agree (trees : List Token → Program) (m s : Machine) : Prop where
  core : m.core = s.core
  fits : m.Fits trees

/-- Failures agree if the causes do, and the machines once their data stacks are emptied. The
machines that `LEAVE` left have to agree as they are, since a loop goes on with them. -/
structure Failures (trees : List Token → Program) (left : Machine → Prop) (f : Fault) (m : Machine)
    (g : Fault) (s : Machine) : Prop where
  cause : f.cause = g.cause
  leave : f.isLeave = true → Agree trees m s ∧ left m
  cleared : m.cleared.core = s.cleared.core

/-- The second action follows the first from machines that agree. `pre`, `post` and `left` speak of
the bookkeeping of the first machine: before, after, and when a loop is left. -/
def Follows (trees : List Token → Program) {α : Type} (pre : Machine → Prop)
    (post : α → Machine → Prop) (left : Machine → Prop) (act act' : Exec α) : Prop :=
  Relates (fun _ => False) (fun m s => Agree trees m s ∧ pre m)
    (fun a m b s => a = b ∧ Agree trees m s ∧ post a m) (Failures trees left) act act'

/-- Bookkeeping on the first machine does not matter. -/
theorem Agree.of_core {m m' s : Machine} (h : Agree trees m s) (hcore : m'.core = m.core) :
    Agree trees m' s := by
  refine ⟨hcore.trans h.core, ?_⟩
  rw [eq_of_core_eq hcore.symm]
  exact h.fits.of_eq rfl rfl

/-- An action that is followed leaves the streams and the loop frames as they are. -/
abbrev Stays (trees : List Token → Program) (S : List TokenStream) (F : List (List Cell)) {α : Type}
    (act act' : Exec α) : Prop :=
  Follows trees (At S F) (fun _ => At S F) (At S F) act act'

/-- An action that is followed moves the running stream on from some tokens to others. -/
abbrev Consumes (trees : List Token → Program) (outer : List TokenStream) (F : List (List Cell))
    (tokens rest : List Token) (act act' : Exec Unit) : Prop :=
  Follows trees (At (⟨tokens⟩ :: outer) F) (fun _ => At (⟨rest⟩ :: outer) F) (Inside outer F) act act'

section Rules

variable {α β : Type} {pre mid left left' : Machine → Prop} {post : α → Machine → Prop}
  {last : β → Machine → Prop} {act act' : Exec α} {S : List TokenStream} {F : List (List Cell)}

theorem Agree.failures {m s : Machine} (h : Agree trees m s) (hleft : left m)
    (cause : Fault.Cause) : Failures trees left (m.fault cause) m (s.fault cause) s := by
  refine ⟨rfl, fun _ => ⟨h, hleft⟩, ?_⟩
  rw [eq_of_core_eq h.core]
  rfl

theorem Follows.mono (h : Follows trees pre post left act act') {pre' : Machine → Prop}
    {post' : α → Machine → Prop} (hpre : ∀ m, pre' m → pre m)
    (hpost : ∀ a m, post a m → post' a m) (hleft : ∀ m, left m → left' m) :
    Follows trees pre' post' left' act act' := by
  intro m s hm
  have ho := h m s ⟨hm.1, hpre m hm.2⟩
  generalize act m = o, act' s = o' at ho ⊢
  cases ho with
  | done hab => exact .done ⟨hab.1, hab.2.1, hpost _ _ hab.2.2⟩
  | failed hf =>
    exact .failed ⟨hf.cause, fun h => ⟨(hf.leave h).1, hleft _ (hf.leave h).2⟩, hf.cleared⟩
  | lost hf => exact hf.elim
  | unfinished => exact .unfinished

theorem follows_pure (a : α) (h : ∀ m, pre m → post a m) :
    Follows trees pre post left (pure a) (pure a) :=
  relates_pure fun m _ hm => ⟨rfl, hm.1, h m hm.2⟩

theorem follows_raise (cause : Fault.Cause) (h : ∀ m, pre m → left m) :
    Follows trees pre post left (raise cause) (raise cause) :=
  relates_raise fun m _ hm => hm.1.failures (h m hm.2) cause

theorem Follows.bind {next next' : α → Exec β} (h : Follows trees pre post left act act')
    (hnext : ∀ a, Follows trees (post a) last left (next a) (next' a)) :
    Follows trees pre last left (act >>= next) (act' >>= next') := by
  refine Relates.bind h fun a b => ?_
  rintro m s ⟨rfl, hm⟩
  exact hnext a m s hm

theorem Follows.catchLeave {act act' : Exec Unit}
    (h : Follows trees pre (fun _ => mid) mid act act') :
    Follows trees pre (fun _ => mid) left act.catchLeave act'.catchLeave := by
  intro m s hm
  have ho := h m s hm
  unfold Exec.catchLeave
  generalize act m = o, act' s = o' at ho ⊢
  cases ho with
  | done hab => exact .done hab
  | @failed f m g s hf =>
    have hsame : g.isLeave = f.isLeave := by simp only [Fault.isLeave, hf.cause]
    dsimp only
    rw [hsame]
    by_cases hleave : f.isLeave = true
    · rw [if_pos hleave, if_pos hleave]
      exact .done ⟨rfl, hf.leave hleave⟩
    · rw [if_neg hleave, if_neg hleave]
      exact .failed ⟨hf.cause, fun h => absurd h hleave, hf.cleared⟩
  | lost hf => exact hf.elim
  | unfinished => exact .unfinished

/-- Tokens are taken from the running stream, which the evaluation has no part in. -/
theorem Follows.take {γ : Type} {read : Exec γ} {c : γ} {tokens rest : List Token}
    {outer : List TokenStream} {next : γ → Exec α}
    (hread : ∀ m, m.streams = ⟨tokens⟩ :: outer → read m = .done c (m.withRest rest))
    (h : Follows trees (At (⟨rest⟩ :: outer) F) post left (next c) act') :
    Follows trees (At (⟨tokens⟩ :: outer) F) post left (read >>= next) act' := by
  rintro m s ⟨hagree, hat⟩
  rw [bind_of_done (hread m hat.streams)]
  refine h _ _ ⟨hagree.of_core rfl, ?_, hat.frames⟩
  rw [withRest, hat.streams]
  rfl

/-- The bookkeeping is changed before an action and after it, which the evaluation has no part in. -/
theorem Follows.bracket {enter leave : Machine → Machine} (h : Follows trees mid post left act act')
    {pre' left' : Machine → Prop} {post' : α → Machine → Prop}
    (henter : ∀ m, (enter m).core = m.core) (hleave : ∀ m, (leave m).core = m.core)
    (hpre : ∀ m, pre' m → mid (enter m)) (hpost : ∀ a m, post a m → post' a (leave m))
    (hleft : ∀ m, left m → left' (leave m)) :
    Follows trees pre' post' left' (update enter >>= fun _ => act.after leave) act' := by
  rintro m s ⟨hagree, hm⟩
  have ho := h (enter m) s ⟨hagree.of_core (henter m), hpre m hm⟩
  change ((act.after leave) (enter m)).Matches _ _ _ _
  unfold Exec.after
  generalize act (enter m) = o, act' s = o' at ho ⊢
  cases ho with
  | @done a m b s hab => exact .done ⟨hab.1, hab.2.1.of_core (hleave m), hpost _ _ hab.2.2⟩
  | @failed f m g s hf =>
    refine .failed ⟨hf.cause, fun h => ?_, ?_⟩
    · exact ⟨(hf.leave h).1.of_core (hleave m), hleft m (hf.leave h).2⟩
    · rw [← hf.cleared, eq_of_core_eq (hleave m).symm]
      rfl
  | lost hf => exact hf.elim
  | unfinished => exact .unfinished

/-- The data stack that a fault empties has to agree only once it is emptied. -/
theorem Follows.onFault (h : Follows trees pre post left act act') :
    Follows trees pre post left (act.onFault (fun f => !f.isLeave) cleared) act' := by
  intro m s hm
  have ho := h m s hm
  unfold Exec.onFault
  generalize act m = o, act' s = o' at ho ⊢
  cases ho with
  | done hab => exact .done hab
  | @failed f m g s hf =>
    by_cases hleave : f.isLeave = true
    · simp only [hleave, Bool.not_true]
      exact .failed hf
    · simp only [hleave, Bool.not_false, if_true]
      refine .failed ⟨hf.cause, fun h => absurd h hleave, ?_⟩
      rw [← hf.cleared]
      simp [core, cleared, Stack.clear, Stack.peak]
  | lost hf => exact hf.elim
  | unfinished => exact .unfinished

/-- An action that needs no token changes both machines alike. -/
theorem follows_plain {E : Effect → Prop} (h : Plain E act) :
    Stays trees S F act act := by
  induction h with
  | pure a => exact follows_pure a fun _ hm => hm
  | raise cause => exact follows_raise cause fun _ hm => hm
  | bind _ _ ih ihnext => exact ih.bind ihnext
  | push | clear | pushReturn | clearReturn | write | store | depth | listing | listingReturn | radix
  | words =>
    rintro m s ⟨⟨hcore, hfits⟩, hat⟩
    rw [eq_of_core_eq hcore]
    exact .done ⟨rfl, ⟨rfl, hfits.of_eq rfl rfl⟩, hat.streams, hat.frames⟩
  | setRadix r =>
    rintro m s ⟨⟨hcore, hfits⟩, hat⟩
    rw [eq_of_core_eq hcore]
    unfold Machine.setRadix
    by_cases hr : Numeral.isRadix r = true
    · rw [if_pos hr, if_pos hr]
      exact .done ⟨rfl, ⟨rfl, hfits.of_eq rfl rfl⟩, hat.streams, hat.frames⟩
    · rw [if_neg hr, if_neg hr]
      apply Outcome.Matches.failed
      apply Agree.failures ?_ hat
      exact ⟨rfl, hfits⟩
  | pop | popMany | top | popReturn | topReturn | fetch =>
    rintro m s ⟨⟨hcore, hfits⟩, hat⟩
    rw [eq_of_core_eq hcore]
    simp only [Machine.pop, Machine.popMany, Machine.top, Machine.popReturn, Machine.topReturn,
      Machine.fetch]
    split
    · exact .done ⟨rfl, ⟨rfl, hfits.of_eq rfl rfl⟩, hat.streams, hat.frames⟩
    · apply Outcome.Matches.failed
      apply Agree.failures ?_ hat
      exact ⟨rfl, hfits⟩

theorem follows_findWord (name : String) :
    Stays trees S F (findWord name) (findWord name) := by
  rintro m s ⟨⟨hcore, hfits⟩, hat⟩
  rw [eq_of_core_eq hcore]
  simp only [findWord]
  split
  · exact .done ⟨rfl, ⟨rfl, hfits⟩, hat⟩
  · apply Outcome.Matches.failed
    apply Agree.failures ?_ hat
    exact ⟨rfl, hfits⟩

/-- A variable with a name of its own leaves the keywords alone. -/
theorem follows_allocate {name : String} (hname : name ∉ Program.keywords) :
    Stays trees S F (allocate name) (allocate name) := by
  rintro m s ⟨⟨hcore, hfits⟩, hat⟩
  rw [eq_of_core_eq hcore]
  refine .done ⟨rfl, ⟨rfl, hfits.bodies, hfits.openers, hfits.readers, fun keyword hkeyword => ?_⟩,
    hat.streams, hat.frames⟩
  have hfree := hfits.addresses keyword hkeyword
  have hne : keyword ≠ name := fun h => hname (h ▸ hkeyword)
  exact (Variables.address?_allocate_of_ne m.memory hne).trans hfree

/-- A constant with a name of its own leaves the opening words of blocks alone. -/
theorem follows_addConstant {w : Word} (hw : w.IsConstant) (hname : w.name ∉ Program.keywords) :
    Stays trees S F (addWord w) (addWord w) := by
  obtain ⟨value, hvalue⟩ := hw
  rintro m s ⟨⟨hcore, hfits⟩, hat⟩
  rw [eq_of_core_eq hcore]
  refine .done ⟨rfl, ⟨rfl, ?_, ?_, ?_, hfits.addresses⟩, hat.streams, hat.frames⟩
  · intro v hv body hbody
    rcases List.mem_cons.mp hv with rfl | hv
    · rw [hvalue] at hbody
      cases hbody
    · exact hfits.bodies v hv body hbody
  · intro entry hentry
    have hne : w.name ≠ entry.1 := by
      rintro h
      simp only [List.mem_cons, List.not_mem_nil, or_false] at hentry
      rcases hentry with rfl | rfl | rfl <;> simp [h, Program.keywords] at hname
    simpa [Dictionary.get?, Dictionary.add, hne] using hfits.openers entry hentry
  · intro v hv p hp hreads
    rcases List.mem_cons.mp hv with rfl | hv
    · rw [hvalue] at hp
      cases hp
      cases hreads
    · exact hfits.readers v hv p hp hreads

end Rules

theorem Stays.consumes {outer : List TokenStream} {F : List (List Cell)} {rest : List Token}
    {act act' : Exec Unit} (h : Stays trees (⟨rest⟩ :: outer) F act act') :
    Consumes trees outer F rest rest act act' :=
  h.mono (fun _ hm => hm) (fun _ _ hm => hm) fun _ hm => ⟨rest, hm⟩

theorem stays_popFlag {S : List TokenStream} {F : List (List Cell)} :
    Stays trees S F popFlag popFlag := follows_plain (.popFlag (E := fun _ => False))

theorem stays_pop {S : List TokenStream} {F : List (List Cell)} : Stays trees S F pop pop :=
  follows_plain (.pop (E := fun _ => False))

end Structured

end TokenForth

import TokenForth.Proofs.Names
import TokenForth.Proofs.Simulation

/-!
# Between source texts

A machine that has carried out source texts, whether they succeeded or failed, waits for the next
one with nothing open. While it carries one out, each word is invoked at a sound machine: there is
one loop frame for each defined word being executed and one more, the calls are within the limit,
and the radix is usable.
-/
namespace TokenForth

open Exec

namespace Machine

/-- A machine at which a word may be invoked. -/
def Sound (m : Machine) : Prop :=
  m.frames.length = m.depth + 1 ∧ m.depth ≤ m.config.callLimit ∧ 2 ≤ m.radix ∧ m.radix ≤ 36

instance : DecidablePred Sound := fun m =>
  inferInstanceAs (Decidable (m.frames.length = m.depth + 1 ∧ m.depth ≤ m.config.callLimit ∧
    2 ≤ m.radix ∧ m.radix ≤ 36))

theorem Sound.later {m m' : Machine} (h : m.Sound) (hm : Later m m') : m'.Sound := by
  obtain ⟨hframes, hdepth, hradix⟩ := h
  have hne : m.frames ≠ [] := List.ne_nil_of_length_eq_add_one hframes
  refine ⟨?_, ?_, ?_⟩
  · rw [hm.frames hne, hm.depth, hframes]
  · rw [hm.depth, hm.config]
    exact hdepth
  · simpa [Numeral.isRadix] using hm.radix (by simpa [Numeral.isRadix] using hradix)

theorem Meaning.related_self (a : Meaning) :
    Meaning.Related (List.Forall₂ Eq) (fun _ => True) a a := by
  cases a with
  | address value => exact .address value
  | number value => exact .number value
  | unknown => exact .unknown
  | word w =>
    cases hw : w.action with
    | primitive p => exact .primitive rfl hw hw trivial
    | body tokens => exact .body rfl hw hw (List.forall₂_refl tokens)

def soundCoupling : Coupling where
  rel m m' := m = m' ∧ m.Sound
  token := Eq
  tokens := List.Forall₂ Eq
  fault := Eq
  lost _ := False
  nested := Eq
  lexeme := congrArg Token.lexeme
  raised h c := by rw [h.1]
  streams h := by rw [h.1]
  streamed := @Coupling.nested_of_eq
  restreamed h hss := ⟨by rw [h.1, hss], h.2⟩
  exhausted := Coupling.exhausted_of_eq
  scanned := @Coupling.scanned_of_eq

/-- An action that keeps the bookkeeping keeps step with itself on a sound machine. -/
theorem inStep_sound {α : Type} {act : Exec α} (h : Always Later act) :
    soundCoupling.InStep Eq act act := by
  rintro outer _ m _ ⟨⟨rfl, hm⟩, rfl, rest, _, hs, -, -⟩
  have hat {m' : Machine} (hm' : Later m m') : soundCoupling.At outer outer m' m' := by
    have hstreams := hm'.streams
    rw [hs] at hstreams
    obtain ⟨rest', hs', -⟩ := hstreams.exists_cons
    exact ⟨⟨rfl, hm.later hm'⟩, rfl, rest', rest', hs', hs', List.forall₂_same.mpr fun _ _ => rfl⟩
  have hlater := h m
  cases hact : act m with
  | done a m' => rw [hact] at hlater; exact .done ⟨rfl, hat hlater⟩
  | failed f m' => rw [hact] at hlater; exact .failed ⟨rfl, hat hlater⟩
  | unfinished => exact .unfinished

def soundness : Simulation where
  toCoupling := soundCoupling
  primitive _ := True
  substituted h indices := substituteFrom_related (congrArg Token.lexeme)
    (fun h _ => congrArg _ (congrArg Token.location h)) indices 0 h
  front h := .of_forall₂ id h
  leave h := congrArg Fault.isLeave h
  lost_leave _ h := h.elim
  frames h := by rw [h.1]
  returns h := by rw [h.1]
  meaning h _ _ := by
    rw [h.1]
    exact Meaning.related_self _
  shallow h hlimit := by rwa [← h.1]
  tooDeep h hlimit _ := by
    rw [← h.1]
    exact .inr ⟨hlimit, rfl⟩
  located := by
    rintro m _ t _ ⟨rfl, h⟩ rfl
    exact ⟨rfl, h⟩
  looped := by
    rintro m _ frames ⟨rfl, h⟩ hlength
    exact ⟨rfl, (hlength (List.ne_nil_of_length_eq_add_one h.1)).trans h.1, h.2⟩
  called := by
    rintro m _ t _ ⟨rfl, h⟩ rfl name
    exact ⟨rfl, h⟩
  uncalled h := ⟨congrArg callExited h.1, h.2⟩
  entered h hlimit := ⟨congrArg wordEntered h.1, congrArg (· + 1) h.2.1, hlimit, h.2.2.2⟩
  exited := by
    rintro m _ ⟨rfl, hframes, hdepth, hradix⟩ hpos
    refine ⟨rfl, ?_, Nat.le_trans (Nat.sub_le _ _) hdepth, hradix⟩
    simp only [wordExited, List.length_tail]
    omega
  pushed h c := ⟨congrArg (Machine.pushed c) h.1, h.2⟩
  written := by
    rintro m _ ⟨rfl, h⟩ text
    exact ⟨rfl, h⟩
  cleared h _ := .inr ⟨congrArg Machine.cleared h.1, h.2⟩
  returnsCleared := by
    rintro m _ ⟨rfl, h⟩
    exact ⟨rfl, h⟩
  popped := inStep_sound pop_keeps
  run := by
    intro p _ hflow r r' n n'
    rw [p.run_eq hflow r' r n' n]
    exact (inStep_sound (primitive_keeps hflow r n)).imp fun _ _ _ => trivial

/-- Lets a machine pass for which a condition holds, and fails with the alarm otherwise. -/
def check (P : Machine → Prop) [DecidablePred P] (alarm : Fault) : Exec Unit := fun m =>
  if P m then .done () m else .failed alarm m

theorem check_later (P : Machine → Prop) [DecidablePred P] (alarm : Fault) :
    Always Later (check P alarm) := by
  intro m
  unfold check
  split <;> exact keeps_refl m

/-- Outcomes that match each other exactly, both ways, are the same. -/
theorem eq_of_matches {o o' : Outcome Unit} {P : Machine → Prop}
    (h : o.Matches (fun _ => False) (fun _ m _ m' => m = m' ∧ P m)
      (fun f m g m' => f = g ∧ m = m' ∧ P m) o')
    (h' : o'.Matches (fun _ => False) (fun _ m _ m' => m = m' ∧ P m)
      (fun f m g m' => f = g ∧ m = m' ∧ P m) o) : o = o' := by
  cases h with
  | done h => rw [h.1]
  | failed h => rw [h.1, h.2.1]
  | lost h => exact h.elim
  | unfinished =>
    cases h' with
    | lost h => exact h.elim
    | unfinished => rfl

/-- The watch for sound machines raises no alarm in a run that starts at one. -/
theorem runWatched_sound {m : Machine} (hm : m.Sound) (alarm : Fault) (n : Nat)
    (tokens : List Token) : runWatched (check Sound alarm) n tokens m = runTokens n tokens m := by
  have hpass {m : Machine} (h : m.Sound) : check Sound alarm m = .done () m := if_pos h
  have hquiet : soundness.Follows (check Sound alarm) (pure ()) := by
    intro outer outer' m m' h
    rw [hpass h.1.2]
    exact .done ⟨trivial, h⟩
  have hloud : soundness.Follows (pure ()) (check Sound alarm) := by
    rintro outer outer' m _ ⟨⟨rfl, hsound⟩, h⟩
    rw [hpass hsound]
    exact .done ⟨trivial, ⟨rfl, hsound⟩, h⟩
  have hsame : soundness.tokens tokens tokens := List.forall₂_same.mpr fun _ _ => rfl
  have hlater := check_later Sound alarm
  rw [← runWatched_pure]
  exact eq_of_matches
    (Simulation.runs_runWatched hquiet hlater (always_pure ()) (Nat.le_refl n) hsame m m ⟨rfl, hm⟩)
    (Simulation.runs_runWatched hloud (always_pure ()) hlater (Nat.le_refl n) hsame m m ⟨rfl, hm⟩)

/-- A machine with nothing open that can print numbers. -/
def Idle (m : Machine) : Prop :=
  m.streams = [] ∧ m.calls = [] ∧ m.depth = 0 ∧ m.frames = [[]] ∧ Numeral.isRadix m.radix

theorem Idle.sound {m : Machine} (h : m.Idle) : m.Sound := by
  obtain ⟨-, -, hdepth, hframes, hradix⟩ := h
  refine ⟨by simp [hframes, hdepth], by simp [hdepth], ?_⟩
  simpa [Numeral.isRadix] using hradix

/-- The machine keeps its configuration, is idle if it was, and has a standard dictionary if it had
one. -/
structure Rests (m m' : Machine) : Prop where
  config : m'.config = m.config
  idle : m.Idle → m'.Idle
  standard : m.dictionary.Standard → m'.dictionary.Standard

instance : IsPreorder Machine Rests where
  refl _ := ⟨rfl, id, id⟩
  trans _ _ _ hab hbc :=
    ⟨hbc.config.trans hab.config, hbc.idle ∘ hab.idle, hbc.standard ∘ hab.standard⟩

theorem Restored.rests {m m' : Machine} (h : Restored m m') : Rests m m' where
  config := h.config
  idle := by
    rintro ⟨hstreams, hcalls, hdepth, hframes, hradix⟩
    have hne : m.frames ≠ [] := by simp [hframes]
    exact ⟨h.position.trans hstreams, h.calls.trans hcalls, h.depth.trans hdepth,
      (h.frames hne).trans hframes, h.radix hradix⟩
  standard hstandard w hw p hp := (h.words w hw).elim (fun hw => hstandard w hw p hp) .inl

theorem define_rests (tokens : List Token) : Always Rests (define tokens) := by
  cases tokens with
  | nil => exact always_raise _
  | cons t body =>
    obtain ⟨lexeme, location⟩ := t
    have hlocation : Always Rests (update fun m => { m with location := some location }) :=
      always_update fun _ => ⟨rfl, id, id⟩
    cases lexeme with
    | word name =>
      refine always_update fun m => ⟨rfl, id, fun hstandard w hw p hp => ?_⟩
      rcases List.mem_cons.mp hw with rfl | hw
      · cases hp
      · exact hstandard w hw p hp
    | _ => exact .bind hlocation fun _ => always_raise _

def restingSources : SourceWalk Exec Exec where
  toPairing := alwaysPairing Rests
  occurs _ := True
  takeOutput _ := ⟨rfl, id, id⟩
  fault _ := .bind (always_update fun _ => ⟨rfl, id, id⟩) fun _ => always_fail _
  define _ := define_rests _

theorem onFault_rests {act : Exec Unit} (h : Always Restored act) (test : Fault → Bool) :
    Always Rests (act.onFault test cleared) := by
  apply Always.onFault (h.imp fun _ _ h => h.rests)
  exact fun _ _ h => ⟨h.config, h.idle, h.standard⟩

theorem runResultsVia_rests {runner : Runner} (hr : ∀ tokens, Always Restored (runner tokens))
    (results : List (Except Fault Statement)) : Always Rests (runResultsVia runner results) := by
  have hrun : restingSources.rel (runResultsVia runner results) (runResultsVia runner results) :=
    restingSources.run (fun _ => onFault_rests (hr _) _) fun _ _ => trivial
  exact hrun

theorem process_rests (n : Nat) (path text : String) : Always Rests (process n path text) :=
  runResultsVia_rests (runTokens_restored n) _

/-- Actions that do the same at idle machines and leave them idle. -/
def Coincides {α : Type} (x y : Exec α) : Prop := ∀ m, m.Idle → x m = y m ∧ (y m).All Idle

theorem coincides_of_rests {α : Type} {x y : Exec α} (h : ∀ m, m.Idle → x m = y m)
    (hy : Always Rests y) : Coincides x y :=
  fun m hm => ⟨h m hm, (hy m).imp fun _ h => h.idle hm⟩

theorem Coincides.bind {α β : Type} {x y : Exec α} {f g : α → Exec β} (h : Coincides x y)
    (hnext : ∀ a, Coincides (f a) (g a)) : Coincides (x >>= f) (y >>= g) := by
  intro m hm
  obtain ⟨hsame, hidle⟩ := h m hm
  simp only [Bind.bind, hsame]
  cases hy : y m with
  | done a m' =>
    rw [hy] at hidle
    exact hnext a m' hidle
  | failed f m' =>
    rw [hy] at hidle
    exact ⟨rfl, hidle⟩
  | unfinished => exact ⟨rfl, trivial⟩

def coincidingSources : SourceWalk Exec Exec where
  rel := Coincides
  patient := False
  patience := nofun
  unfinished := coincides_of_rests (fun _ _ => rfl) always_unfinished
  pure a := coincides_of_rests (fun _ _ => rfl) (always_pure a)
  bind := .bind
  occurs _ := True
  takeOutput := coincides_of_rests (fun _ _ => rfl) restingSources.takeOutput
  fault h := coincides_of_rests (fun _ _ => rfl) (restingSources.fault h)
  define h := coincides_of_rests (fun _ _ => rfl) (restingSources.define h)

/-- No word is invoked at an unsound machine while the statements of a source are carried out. -/
theorem runResultsVia_sound {m : Machine} (hm : m.Idle) (alarm : Fault) (n : Nat)
    (results : List (Except Fault Statement)) :
    runResultsVia (runWatched (check Sound alarm) n) results m = runResults n results m := by
  have hrun : coincidingSources.rel (runResultsVia (runWatched (check Sound alarm) n) results)
      (runResults n results) := by
    refine coincidingSources.run (fun {tokens} _ => ?_) fun _ _ => trivial
    refine coincides_of_rests (fun m hm => ?_) (onFault_rests (runTokens_restored n tokens) _)
    simp only [Setting.onFault, Exec.onFault, runWatched_sound hm.sound alarm n tokens]
  exact (hrun m hm).1

/-- The machines that source texts lead to from a new machine, whether they succeed or fail. -/
inductive Reachable (config : Config) : Machine → Prop
  | new : Reachable config (Machine.new config)
  | next {m m' : Machine} (n : Nat) (path text : String) :
    Reachable config m → (process n path text m).Leaves m' → Reachable config m'

theorem bare_idle (config : Config) : (bare config).Idle := by
  refine ⟨rfl, rfl, rfl, rfl, ?_⟩
  change Numeral.isRadix (Numeral.writingRadix config.radix)
  unfold Numeral.writingRadix
  split
  · assumption
  · rfl

/-- Whether a statement of a source defines a word or is a comment by itself. -/
def isRemark : Except Fault Statement → Bool
  | .ok (.declaration (⟨.word _, _⟩ :: _)) | .ok (.expression [⟨.comment _, _⟩]) => true
  | _ => false

theorem runResult_remark {result : Except Fault Statement} (h : isRemark result = true)
    (m : Machine) : ∃ output m', runResult 8 result m = .done output m' ∧ m'.memory = m.memory := by
  unfold isRemark at h
  split at h
  · exact ⟨_, _, rfl, rfl⟩
  · exact ⟨_, _, rfl, rfl⟩
  · cases h

theorem runResults_remarks {results : List (Except Fault Statement)}
    (h : ∀ result ∈ results, isRemark result = true) (m : Machine) :
    ∃ outputs m', runResults 8 results m = .done outputs m' ∧ m'.memory = m.memory := by
  induction results generalizing m with
  | nil => exact ⟨[], m, rfl, rfl⟩
  | cons result rest ih =>
    obtain ⟨hresult, hrest⟩ := List.forall_mem_cons.mp h
    obtain ⟨output, m₁, hdone, hm₁⟩ := runResult_remark hresult m
    obtain ⟨outputs, m₂, hmore, hm₂⟩ := ih hrest m₁
    refine ⟨output :: outputs, m₂, ?_, hm₂.trans hm₁⟩
    rw [runResults, runResultsVia, bind_of_done hdone, bind_of_done hmore]
    rfl

/-- The prelude consists of definitions and comments. So a machine that knows the catalog only comes
to its end within the steps it is given, and is a new machine then, without variables. -/
theorem prelude_done (config : Config) :
    (∃ outputs, process 8 "<prelude>" Catalog.preludeText (bare config) =
      .done outputs (new config)) ∧
    (new config).memory = .empty config.variableBase := by
  have hremarks : (Statement.results "<prelude>" Catalog.preludeText).all isRemark = true := by
    decide +kernel
  obtain ⟨outputs, m', hdone, hmemory⟩ :=
    runResults_remarks (List.all_eq_true.mp hremarks) (bare config)
  have hrun : process 8 "<prelude>" Catalog.preludeText (bare config) = .done outputs m' := hdone
  have hnew : new config = m' := by rw [new, hrun]; rfl
  rw [hnew]
  exact ⟨⟨outputs, hrun⟩, hmemory⟩

theorem new_of_prelude {config : Config} {P : Machine → Prop}
    (h : (process 8 "<prelude>" Catalog.preludeText (bare config)).All P) : P (new config) := by
  obtain ⟨⟨outputs, hdone⟩, -⟩ := prelude_done config
  rwa [hdone] at h

theorem Reachable.kept {config : Config} {m : Machine} (h : Reachable config m) :
    m.config = config ∧ m.Idle ∧ m.dictionary.Standard := by
  induction h with
  | new =>
    apply new_of_prelude (P := fun m => m.config = config ∧ m.Idle ∧ m.dictionary.Standard)
    refine (process_rests _ _ _ _).imp fun m h => ?_
    exact ⟨h.config, h.idle (bare_idle config), h.standard (bare_standard config)⟩
  | next n path text _ hrun ih =>
    have hrests := (process_rests n path text _).of_leaves hrun
    exact ⟨hrests.config.trans ih.1, hrests.idle ih.2.1, hrests.standard ih.2.2⟩

/-- What a run pushes on the stacks of streams, calls and loop frames it takes off again, whatever
its outcome. So a machine is idle between source texts, and a watch over the words that are invoked
meanwhile never raises its alarm, whichever fault that is. -/
theorem bookkeeping_restored :
    (∀ (n : Nat) (tokens : List Token) (m m' : Machine), m.frames ≠ [] →
      (runTokens n tokens m).Leaves m' →
        m'.streams = m.streams ∧ m'.calls = m.calls ∧ m'.depth = m.depth ∧ m'.frames = m.frames) ∧
    (∀ (n : Nat) (location : Location) (w : Word) (m m' : Machine), m.frames ≠ [] →
      (execute n location w m).Leaves m' →
        (match w.action with
          | .primitive _ => Advanced m.streams m'.streams
          | .body _ => m'.streams = m.streams) ∧
        m'.calls = m.calls ∧ m'.depth = m.depth ∧ m'.frames = m.frames) ∧
    (∀ (config : Config) (m : Machine), Reachable config m →
      m.config = config ∧ m.streams = [] ∧ m.calls = [] ∧ m.depth = 0 ∧ m.frames = [[]]) ∧
    ∀ (config : Config) (m : Machine), Reachable config m →
      ∀ (n : Nat) (path text : String) (alarm : Fault),
        runResultsVia (runWatched (check Sound alarm) n) (Statement.results path text) m =
          process n path text m := by
  refine ⟨fun n tokens m m' hm hrun => ?_, fun n location w m m' hm hrun => ?_,
    fun config m h => ?_, fun config m h n path text alarm => ?_⟩
  · have h := (runTokens_restored n tokens m).of_leaves hrun
    exact ⟨h.position, h.calls, h.depth, h.frames hm⟩
  · cases hw : w.action with
    | primitive p =>
      have h := (runWord_later (runTokens_restored n) n location w m).of_leaves hrun
      exact ⟨h.streams, h.calls, h.depth, h.frames hm⟩
    | body tokens =>
      have h := (runWord_restored (runTokens_restored n) n location hw m).of_leaves hrun
      exact ⟨h.position, h.calls, h.depth, h.frames hm⟩
  · obtain ⟨hconfig, ⟨hstreams, hcalls, hdepth, hframes, -⟩, -⟩ := h.kept
    exact ⟨hconfig, hstreams, hcalls, hdepth, hframes⟩
  · exact runResultsVia_sound h.kept.2.1 alarm n _

/-- A loop that fails in its second pass, in which there is nothing left to drop. -/
theorem bookkeeping_restored_underflow :
    ∃ m', (runTokens 9 [⟨.number 5, {}⟩, ⟨.number 2, {}⟩, ⟨.number 0, {}⟩, ⟨.word "DO", {}⟩,
        ⟨.word "DROP", {}⟩, ⟨.word "LOOP", {}⟩] (bare {})).Leaves m' ∧
      (bare {}).frames ≠ [] ∧ Reachable {} (new {}) ∧
      m'.streams = (bare {}).streams ∧ m'.calls = (bare {}).calls ∧ m'.depth = (bare {}).depth ∧
      m'.frames = (bare {}).frames := by
  obtain ⟨m', hm'⟩ := Outcome.exists_leaves (o := runTokens 9 [⟨.number 5, {}⟩, ⟨.number 2, {}⟩,
    ⟨.number 0, {}⟩, ⟨.word "DO", {}⟩, ⟨.word "DROP", {}⟩, ⟨.word "LOOP", {}⟩] (bare {}))
    (by decide +kernel)
  exact ⟨m', hm', by decide, .new, bookkeeping_restored.1 9 _ (bare {}) m' (by decide) hm'⟩

end Machine

end TokenForth

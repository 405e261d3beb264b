import TokenForth.Proofs.Course
import TokenForth.Proofs.Reading
import TokenForth.Proofs.Replay
import TokenForth.Proofs.Sources

/-!
# The identity of variables

Only the words that declare a variable and that store a cell change the variables, so at every
moment of a session the variables are what the declarations and stores on record have made of them.
-/
namespace TokenForth

open Exec Machine

def Machine.nextName? (m : Machine) : Option String :=
  m.streams.head?.bind fun s => s.rest.head?.bind Token.name?

/-- What a primitive does to the variables of a machine. -/
def Primitive.event? (m : Machine) : Primitive → Option Variables.Event
  | storage .declare => m.nextName?.map .declare
  | storage .store =>
    match m.data.cells with
    | address :: value :: _ => some (.store address value)
    | _ => none
  | _ => none

def Invoked.event? (i : Invoked) : Option Variables.Event :=
  match i.word.action with
  | .primitive p => p.event? i.machine
  | .body _ => none

/-- The declarations and stores among the words on record. -/
def events (log : List Invoked) : List Variables.Event := log.filterMap Invoked.event?

theorem memory_declare (m : Machine) : (Storage.declare.run m).All fun m' =>
    m'.memory = m.memory.replay ((Primitive.storage .declare).event? m).toList := by
  obtain ⟨config, data, returns, radix, dictionary, memory, location, calls, streams, frames, depth,
    output⟩ := m
  rcases streams with _ | ⟨⟨_ | ⟨⟨lexeme, place⟩, rest⟩⟩, outer⟩
  · exact rfl
  · exact rfl
  · cases lexeme <;> exact rfl

theorem memory_store (m : Machine) : (Storage.store.run m).All fun m' =>
    m'.memory = m.memory.replay ((Primitive.storage .store).event? m).toList := by
  obtain ⟨config, ⟨cells, free⟩, returns, radix, dictionary, memory, location, calls, streams,
    frames, depth, output⟩ := m
  rcases cells with _ | ⟨address, _ | ⟨value, rest⟩⟩
  · exact rfl
  · exact rfl
  · exact rfl

theorem Outcome.Calm.memory {α : Type} {m : Machine} {o : Outcome α} (h : o.Calm m) :
    o.All fun m' => m'.memory = m.memory := by
  cases o with
  | done a m' => exact h
  | failed f m' => exact h.1
  | unfinished => trivial

/-- The variables after a primitive that runs no token list. -/
theorem Primitive.memory_of_run {p : Primitive} (hp : ∀ word, p = .flow word → word = .leave)
    (runner : Runner) (n : Nat) (m : Machine) : (p.run runner n m).All fun m' =>
      m'.memory = m.memory.replay (p.event? m).toList := by
  cases hquiet : p.isQuiet with
  | true =>
    have hevent : p.event? m = none := by
      unfold event?
      split <;> first | rfl | cases hquiet
    rw [hevent]
    exact (p.quiet hquiet runner n m).memory
  | false =>
    cases p with
    | storage word =>
      cases word with
      | declare => exact memory_declare m
      | store => exact memory_store m
      | constant | fetch => cases hquiet
    | flow word =>
      cases hp word rfl
      exact rfl
    | _ => cases hquiet

theorem memory_of_runWord {w : Word} (hw : w.isNested = false) (runner : Runner) (n : Nat)
    (location : Location) (m : Machine) : (runWord runner n location w m).All fun m' =>
      m'.memory = m.memory.replay (Invoked.event? ⟨w, m⟩).toList := by
  unfold Word.isNested at hw
  rw [runWord_apply, all_after]
  unfold runAction Invoked.event?
  cases haction : w.action with
  | body tokens => simp [haction] at hw
  | primitive p =>
    refine p.memory_of_run (fun word hword => ?_) runner n (callEntered ⟨w.name, location⟩ m)
    cases word <;> simp_all

/-- Each word on record was invoked with the variables that the words before it have made. -/
def InOrder (v : Variables) : List Invoked → Prop
  | [] => True
  | i :: rest => i.machine.memory = v ∧ InOrder (v.replay i.event?.toList) rest

theorem events_append (log more : List Invoked) :
    events (log ++ more) = events log ++ events more :=
  List.filterMap_append

theorem events_cons (i : Invoked) (log : List Invoked) :
    events (i :: log) = i.event?.toList ++ events log := by
  rw [events, List.filterMap_cons]
  cases i.event? <;> rfl

theorem inOrder_append {v : Variables} {log more : List Invoked} :
    InOrder v (log ++ more) ↔ InOrder v log ∧ InOrder (v.replay (events log)) more := by
  induction log generalizing v with
  | nil => exact (iff_of_eq (true_and _)).symm
  | cons i rest ih =>
    rw [events_cons, Variables.replay_append]
    exact (and_congr_right fun _ => ih).trans and_assoc.symm

theorem Made.replayed {m : Machine} {log : List Invoked} {o : Outcome Unit} (h : Made m log o) :
    InOrder m.memory log ∧ o.All fun m' => m'.memory = m.memory.replay (events log) := by
  induction h with
  | quiet h => exact ⟨trivial, h.memory⟩
  | @seq m m₁ first second o _ _ ih ih' =>
    obtain ⟨hfirst, hm₁⟩ := ih
    rw [Outcome.all_done] at hm₁
    rw [hm₁] at ih'
    rw [inOrder_append, events_append, Variables.replay_append]
    exact ⟨⟨hfirst, ih'.1⟩, ih'.2⟩
  | done _ hm ih => exact ⟨ih.1, hm.memory.trans ih.2⟩
  | failed _ hm ih => exact ⟨ih.1, hm.memory.trans ih.2⟩
  | caught _ ih => exact ih
  | @nested m log o w hw _ ih =>
    have hevent : Invoked.event? ⟨w, m⟩ = none := by
      unfold Word.isNested at hw
      unfold Invoked.event?
      split at hw <;> simp_all [Primitive.event?]
    rw [events_cons, hevent]
    refine ⟨⟨rfl, ?_⟩, ih.2⟩
    rw [hevent]
    exact ih.1
  | @primitive w hw runner n location m =>
    have hevents : events [⟨w, m⟩] = (Invoked.event? ⟨w, m⟩).toList :=
      (events_cons _ _).trans (List.append_nil _)
    rw [hevents]
    exact ⟨⟨rfl, trivial⟩, memory_of_runWord hw runner n location m⟩

theorem Outcome.all_map {α β : Type} {P : Machine → Prop} {o : Outcome α} (change : α → β) :
    (o.map change).All P ↔ o.All P := by
  cases o <;> exact Iff.rfl

/-- The machines between the sources of a session, with the words that were invoked so far. -/
inductive Recorded (config : Config) : List Invoked → Machine → Prop
  | new : Recorded config [] (new config)
  | next {log m m'} (n : Nat) (path text : String) (h : Recorded config log m)
    (hrun : (process n path text m).Leaves m') :
    Recorded config (log ++ (Course.process n path text).invoked m) m'

/-- The machines of a session at any moment: between the sources, and inside of a source where a
word is invoked. -/
inductive Moment (config : Config) : List Invoked → Machine → Prop
  | between {log m} (h : Recorded config log m) : Moment config log m
  | within {log m before i behind} (n : Nat) (path text : String) (h : Recorded config log m)
    (hrun : (Course.process n path text).invoked m = before ++ i :: behind) :
    Moment config (log ++ before) i.machine

theorem process_replayed (n : Nat) (path text : String) (m : Machine) :
    InOrder m.memory ((Course.process n path text).invoked m) ∧
      (process n path text m).All fun m' =>
        m'.memory = m.memory.replay (events ((Course.process n path text).invoked m)) := by
  obtain ⟨horder, hends⟩ := ((Course.records_process n path text).made m).replayed
  exact ⟨horder, (Outcome.all_map _).mp hends⟩

theorem Recorded.memory_eq {config : Config} {log : List Invoked} {m : Machine}
    (h : Recorded config log m) :
    m.memory = (Variables.empty config.variableBase).replay (events log) := by
  induction h with
  | new => exact (prelude_done config).2
  | @next log m m' n path text _ hrun ih =>
    rw [events_append, Variables.replay_append, ← ih]
    exact (process_replayed n path text m).2.of_leaves hrun

theorem Moment.memory_eq {config : Config} {log : List Invoked} {m : Machine}
    (h : Moment config log m) :
    m.memory = (Variables.empty config.variableBase).replay (events log) := by
  cases h with
  | between h => exact h.memory_eq
  | @within log m before i behind n path text h hrun =>
    have horder := (process_replayed n path text m).1
    rw [hrun, inOrder_append] at horder
    rw [events_append, Variables.replay_append, ← h.memory_eq]
    exact horder.2.1

/-- Executing the word that fetches, with an address on the stack that holds a cell. -/
theorem execute_fetch {m : Machine} {a value : Cell} {rest : List Cell} {w : Word} (n : Nat)
    (location : Location) (hw : w.action = .primitive (.storage .fetch))
    (hcells : m.data.cells = a :: rest) (hfetch : m.memory.fetch? a = some value) :
    ∃ m', execute n location w m = .done () m' ∧ m'.data.cells = value :: rest := by
  let called := callEntered ⟨w.name, location⟩ m
  let taken : Machine := { called with data := ⟨rest, m.data.free + 1⟩ }
  have hpop : pop called = .done a taken := by
    have hpop? : called.data.pop? = some (a, taken.data) := by
      change Stack.pop? m.data = _
      rw [Stack.pop?, hcells]
    rw [pop, hpop?]
  have hload : Machine.fetch a taken = .done value taken := by
    have hfetch? : taken.memory.fetch? a = some value := hfetch
    rw [Machine.fetch, hfetch?]
  have hrun : Storage.fetch.run called = .done () (pushed value taken) := by
    rw [Storage.run, bind_of_done hpop, bind_of_done hload]
    rfl
  refine ⟨callExited (pushed value taken), ?_, rfl⟩
  rw [execute, runWord_apply, runAction, hw]
  simp only [Primitive.run, Setting.act, Exec.after, called, hrun]

open Variables in
/-- At every moment of a session, the declared names have the addresses from the base on in the
order of their first declarations, which no later moment changes. Each address can be fetched, and
holds what was stored there last since its name was declared. -/
theorem variables_keep_identity {config : Config} {log : List Invoked} {m : Machine}
    (h : Moment config log m)
    (hfit : config.variableBase.toInt + (names (events log)).length ≤ 9223372036854775808) :
    (∀ name, (m.memory.address? name).isSome ↔ name ∈ names (events log)) ∧
    (∀ (i : Nat) name a, (names (events log))[i]? = some name → m.memory.address? name = some a →
      a.toInt = config.variableBase.toInt + i) ∧
    (∀ name other a, m.memory.address? name = some a → m.memory.address? other = some a →
      name = other) ∧
    ∀ name a, m.memory.address? name = some a →
      (∀ more m', Moment config (log ++ more) m' → m'.memory.address? name = some a) ∧
      m.memory.fetch? a = some (latest (events log) name a) ∧
      ∀ (n : Nat) (location : Location) (w : Word) (rest : List Cell),
        w.action = .primitive (.storage .fetch) → m.data.cells = a :: rest →
          ∃ m', execute n location w m = .done () m' ∧
            m'.data.cells = latest (events log) name a :: rest := by
  have hnumbered := numbered_replay config.variableBase (events log)
  rw [← h.memory_eq] at hnumbered
  refine ⟨fun name => ?_, fun i name a hi ha => ?_, fun name other a => ?_, fun name a ha => ?_⟩
  · rw [Option.isSome_iff_ne_none, ne_eq, hnumbered.address_eq_none, not_not]
  · exact hnumbered.toInt_address hfit hi ha
  · exact hnumbered.unique hfit
  · have hfetch : m.memory.fetch? a = some (latest (events log) name a) := by
      rw [h.memory_eq] at ha ⊢
      exact fetch?_replay hfit ha
    refine ⟨fun more m' hm' => ?_, hfetch, fun n location w rest hw hcells => ?_⟩
    · rw [hm'.memory_eq, events_append, replay_append, ← h.memory_eq]
      exact address?_replay ha _
    · exact execute_fetch n location hw hcells hfetch

private def based : Config := { variableBase := 5 }

private def storing : String := "7 6 ! VARIABLE X VARIABLE Y 3 X ! Y @"

private theorem moment_storing :
    ∃ log m, Moment based log m ∧
      events log = [.store 6 7, .declare "X", .declare "Y", .store 5 3] := by
  have hevents : ((Course.process 14 "<input>" storing).invoked (new based)).map Invoked.event? =
      [some (.store 6 7), some (.declare "X"), some (.declare "Y"), some (.store 5 3), none] := by
    decide +kernel
  generalize hinvoked : (Course.process 14 "<input>" storing).invoked (new based) = invoked
    at hevents
  simp only [List.map_eq_cons_iff, List.map_eq_nil_iff] at hevents
  obtain ⟨first, _, rfl, hfirst, second, _, rfl, hsecond, third, _, rfl, hthird, fourth, _, rfl,
    hfourth, last, _, rfl, -, rfl⟩ := hevents
  have hsplit : (Course.process 14 "<input>" storing).invoked (new based) =
      [first, second, third, fourth] ++ last :: [] := hinvoked
  refine ⟨_, _, .within 14 "<input>" storing .new hsplit, ?_⟩
  simp [events, hfirst, hsecond, hthird, hfourth]

open Variables in
/-- The second variable holds zero, although a cell was stored at its address before. -/
theorem variables_keep_identity_stored :
    ∃ log m a, Moment based log m ∧ names (events log) = ["X", "Y"] ∧
      based.variableBase.toInt + (names (events log)).length ≤ 9223372036854775808 ∧
      m.memory.address? "Y" = some a ∧ a.toInt = 6 ∧ m.memory.fetch? a = some 0 := by
  obtain ⟨log, m, hmoment, hevents⟩ := moment_storing
  have hnames : names (events log) = ["X", "Y"] := by
    rw [hevents]
    decide
  have hfit : based.variableBase.toInt + (names (events log)).length ≤ 9223372036854775808 := by
    rw [hnames]
    decide
  obtain ⟨haddresses, hplaces, -, hcells⟩ := variables_keep_identity hmoment hfit
  obtain ⟨a, ha⟩ := Option.isSome_iff_exists.mp ((haddresses "Y").mpr (by simp [hnames]))
  have htoInt : a.toInt = 6 := hplaces 1 "Y" a (by simp [hnames]) ha
  have hlatest : latest (events log) "Y" a = 0 := by
    obtain rfl : a = 6 := Int64.toInt_inj.mp htoInt
    rw [hevents]
    decide
  exact ⟨log, m, a, hmoment, hnames, hfit, ha, htoInt, hlatest ▸ (hcells "Y" a ha).2.1⟩

end TokenForth

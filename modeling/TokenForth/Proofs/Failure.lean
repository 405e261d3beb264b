import TokenForth.Proofs.Bookkeeping
import TokenForth.Proofs.Parsing

/-!
# What a failure leaves behind

A fault other than `LEAVE` ends every token list that it is met in, at any depth, and the machine is
left as it was then but for an empty data stack. The parts of the engine are given the way to run
nested token lists, or to execute words, as a function. They go through one of its runs if another
answer to it could change the outcome.
-/
namespace TokenForth

open Exec Machine

/-- The machine without its data stack and without what is open while it runs. What is left are the
return stack, the radix, the words and variables, the location and the output. -/
def Machine.lasting (m : Machine) : Machine :=
  { m with data := .empty, calls := [], streams := [], frames := [], depth := 0 }

section Consults

variable {ι α : Type} [DecidableEq ι]

/-- The runs of a family with another answer to one of them at one machine. -/
def answering (runs : ι → Exec Unit) (i : ι) (start : Machine) (answer : Outcome Unit) :
    ι → Exec Unit := fun j m => if j = i ∧ m = start then answer else runs j m

/-- The outcome depends on the answer of the run `i` at the machine `start`. -/
def Consults (act : (ι → Exec Unit) → Exec α) (runs : ι → Exec Unit) (m : Machine) (i : ι)
    (start : Machine) : Prop := ∃ answer, act (answering runs i start answer) m ≠ act runs m

/-- A run is consulted if the action waits for it. -/
theorem Consults.of_unfinished {act : (ι → Exec Unit) → Exec α} {runs : ι → Exec Unit}
    {m start m' : Machine} {i : ι} {f : Fault}
    (hwait : act (answering runs i start .unfinished) m = .unfinished)
    (h : act runs m = .failed f m') : Consults act runs m i start :=
  ⟨.unfinished, by simp [hwait, h]⟩

end Consults

/-- Where the first action ends in another way, the second one has failed with the fault and done
nothing lasting since. -/
def Exec.Yields {α : Type} (f : Fault) (left : Machine) (x y : Exec α) : Prop :=
  ∀ m, x m ≠ y m → ∃ m', y m = .failed f m' ∧ m'.lasting = left.lasting

namespace Exec

variable {α β : Type} {f : Fault} {left : Machine}

theorem Yields.refl (x : Exec α) : Yields f left x x := fun _ hne => absurd rfl hne

theorem Yields.bind {x y : Exec α} {next next' : α → Exec β} (h : Yields f left x y)
    (hnext : ∀ a, Yields f left (next a) (next' a)) : Yields f left (x >>= next) (y >>= next') := by
  intro m hne
  by_cases hxy : x m = y m
  · simp only [Bind.bind, hxy] at hne ⊢
    cases hy : y m with
    | done a m' =>
      simp only [hy] at hne
      exact hnext a m' hne
    | failed g m' =>
      simp only [hy] at hne
      exact absurd rfl hne
    | unfinished =>
      simp only [hy] at hne
      exact absurd rfl hne
  · obtain ⟨m', hfailed, hlasting⟩ := h m hxy
    exact ⟨m', by simp only [Bind.bind, hfailed], hlasting⟩

/-- What is done with the outcome of an action may change the machine of a failure, but not what
lasts of it. -/
theorem Yields.wrap {x y : Exec α} (h : Yields f left x y) (wrap : Exec α → Exec β)
    (hwrap : ∀ {m}, x m = y m → wrap x m = wrap y m)
    (hfailed : ∀ {m m'}, y m = .failed f m' →
      ∃ m'', wrap y m = .failed f m'' ∧ m''.lasting = m'.lasting) :
    Yields f left (wrap x) (wrap y) := by
  intro m hne
  obtain ⟨m', hm', hlasting⟩ := h m fun hxy => hne (hwrap hxy)
  obtain ⟨m'', hm'', hlasting'⟩ := hfailed hm'
  exact ⟨m'', hm'', hlasting'.trans hlasting⟩

theorem Yields.after {x y : Exec α} {change : Machine → Machine} (h : Yields f left x y)
    (hchange : ∀ m, (change m).lasting = m.lasting) :
    Yields f left (x.after change) (y.after change) := by
  refine h.wrap (Exec.after · change) ?_ ?_
  · intro m hxy
    simp only [Exec.after, hxy]
  · intro m m' hy
    exact ⟨change m', by simp only [Exec.after, hy], hchange m'⟩

theorem Yields.onFault {x y : Exec α} {change : Machine → Machine} (h : Yields f left x y)
    (test : Fault → Bool) (hchange : ∀ m, (change m).lasting = m.lasting) :
    Yields f left (x.onFault test change) (y.onFault test change) := by
  refine h.wrap (Exec.onFault · test change) ?_ ?_
  · intro m hxy
    simp only [Exec.onFault, hxy]
  · intro m m' hy
    refine ⟨if test f then change m' else m', by simp only [Exec.onFault, hy], ?_⟩
    split
    · exact hchange m'
    · rfl

theorem Yields.catchLeave {x y : Exec Unit} (h : Yields f left x y) (hleave : f.isLeave = false) :
    Yields f left x.catchLeave y.catchLeave := by
  refine h.wrap Exec.catchLeave ?_ ?_
  · intro m hxy
    simp only [Exec.catchLeave, hxy]
  · intro m m' hy
    exact ⟨m', by simp [Exec.catchLeave, hy, hleave], rfl⟩

/-- A run of a family that fails is all that another answer to it can change. -/
theorem yields_answering {ι : Type} [DecidableEq ι] {runs : ι → Exec Unit} {i : ι} {start : Machine}
    (h : runs i start = .failed f left) (answer : Outcome Unit) (j : ι) :
    Yields f left (answering runs i start answer j) (runs j) := by
  intro m hne
  by_cases hhere : j = i ∧ m = start
  · obtain ⟨rfl, rfl⟩ := hhere
    exact ⟨left, h, rfl⟩
  · simp [answering, hhere] at hne

end Exec

theorem Machine.Closing.lasting {change : Machine → Machine} (h : Closing change) (m : Machine) :
    (change m).lasting = m.lasting := by
  cases h with
  | loop =>
    rw [loopExited_eq]
    rfl
  | word | call | stream => rfl

/-- The engine fails as soon as a run that it consults fails, unless that is left by `LEAVE`. It
fails with the same fault and does nothing more. -/
def yieldsCongruence {f : Fault} (hleave : f.isLeave = false) (left : Machine) :
    Congruence Exec Exec where
  rel := Yields f left
  patient := False
  patience := nofun
  unfinished := .refl _
  pure _ := .refl _
  bind := .bind
  act := .refl
  after hchange h := h.after hchange.lasting
  onFault test h := h.onFault test fun _ => rfl
  catchLeave h := h.catchLeave hleave

namespace Machine

/-- The run of the first token list, with the steps and at the machine given with it, consults a run
that consults a run, and so on down to the second one. -/
inductive Inside : Nat → List Token → Machine → Nat → List Token → Machine → Prop
  | here (n : Nat) (tokens : List Token) (m : Machine) : Inside n tokens m n tokens m
  | there {n k : Nat} {tokens body inner : List Token} {m start last : Machine}
    (h : Consults (fun runner => runListVia (Invocation.run runner) n tokens) (runTokens n) m body
      start)
    (hbody : Inside n body start k inner last) : Inside (n + 1) tokens m k inner last

/-- A fault other than `LEAVE` that a word meets ends the list that called the word. -/
theorem failed_of_invocation {n : Nat} {tokens : List Token} {m start left : Machine}
    {i : Invocation} {f : Fault}
    (h : Consults (fun invoke => runListVia invoke n tokens) (Invocation.run (runTokens n)) m i start)
    (hrun : i.run (runTokens n) start = .failed f left) (hleave : f.isLeave = false) :
    ∃ m', runTokens (n + 1) tokens m = .failed f m' ∧ m'.lasting = left.lasting := by
  obtain ⟨answer, hne⟩ := h
  refine (yieldsCongruence hleave left).list (fun hn location w => ?_) (.refl n) tokens m hne
  rw [hn.eq id]
  exact yields_answering hrun answer _

/-- A fault other than `LEAVE` ends all the runs that it is met inside of. -/
theorem Inside.failed {n k : Nat} {tokens inner : List Token} {m last left : Machine} {f : Fault}
    (h : Inside n tokens m k inner last) (hrun : runTokens k inner last = .failed f left)
    (hleave : f.isLeave = false) :
    ∃ m', runTokens n tokens m = .failed f m' ∧ m'.lasting = left.lasting := by
  induction h with
  | here n tokens m => exact ⟨left, hrun, rfl⟩
  | @there n k tokens body inner m start last h _ ih =>
    -- the nested list fails by induction, and this one hands its fault on
    obtain ⟨m', hbody, hlasting⟩ := ih hrun
    obtain ⟨answer, hne⟩ := h
    have hrunner := yields_answering hbody answer
    obtain ⟨m'', hlist, hlasting'⟩ := (yieldsCongruence hleave m').list
      (fun hn => (yieldsCongruence hleave m').word hrunner hn) (.refl n) tokens m hne
    exact ⟨m'', hlist, hlasting'.trans hlasting⟩

/-- A fault other than `LEAVE` that a statement meets ends the source. -/
theorem failed_of_statement {n : Nat} {path text : String} {tokens : List Token}
    {m start left : Machine} {f : Fault}
    (h : Consults (fun runner => runResultsVia runner (Statement.results path text)) (runTokens n) m
      tokens start)
    (hrun : runTokens n tokens start = .failed f left) (hleave : f.isLeave = false) :
    ∃ m', process n path text m = .failed f m' ∧ m'.lasting = left.lasting := by
  obtain ⟨answer, hne⟩ := h
  exact (yieldsCongruence hleave left).results (yields_answering hrun answer) _ m hne

/-- Whenever the action fails, its fault and the machine then are of a certain kind. -/
def FailsWith (P : Fault → Machine → Prop) {α : Type} (act : Exec α) : Prop :=
  ∀ m f m', act m = .failed f m' → P f m'

theorem failsWith_safe {P : Fault → Machine → Prop} {α : Type} {act : Exec α}
    (h : ∀ m, (act m).fault? = none) : FailsWith P act := by
  intro m f m' hf
  have hnone := h m
  rw [hf] at hnone
  cases hnone

theorem FailsWith.bind {P : Fault → Machine → Prop} {α β : Type} {act : Exec α}
    {next : α → Exec β} (h : FailsWith P act) (hnext : ∀ a, FailsWith P (next a)) :
    FailsWith P (act >>= next) := by
  intro m f m' hf
  rcases bind_eq_failed hf with hact | ⟨a, m₁, -, hf⟩
  · exact h m f m' hact
  · exact hnext a m₁ f m' hf

abbrev FailsEmpty {α : Type} (act : Exec α) : Prop := FailsWith (fun _ m => m.data.cells = []) act

theorem cells_of_runTokens_failed {n : Nat} {tokens : List Token} {m m' : Machine} {f : Fault}
    (h : runTokens n tokens m = .failed f m') (hleave : f.isLeave = false) : m'.data.cells = [] := by
  cases n with
  | zero => cases h
  | succ n =>
    obtain ⟨m₁, -, rfl⟩ := onFault_eq_failed h
    simp [hleave, cleared, Stack.clear]

theorem failsEmpty_expression (n : Nat) (tokens : List Token) :
    FailsEmpty ((runTokens n tokens).onFault Fault.isLeave cleared) := by
  intro m f m' h
  obtain ⟨m₁, hrun, rfl⟩ := onFault_eq_failed h
  by_cases hleave : f.isLeave
  · simp [hleave, cleared, Stack.clear]
  · rw [Bool.not_eq_true] at hleave
    simpa [hleave] using cells_of_runTokens_failed hrun hleave

/-- The parser forms no definition that is rejected. -/
theorem fault?_define {path text : String} {tokens : List Token}
    (h : .ok (.declaration tokens) ∈ Statement.results path text) (m : Machine) :
    (define tokens m).fault? = none := by
  obtain ⟨_, _, w, -, -, -, hdone⟩ := carryOut_declaration h 0 m
  exact congrArg Outcome.fault? hdone

def emptiedSources (path text : String) : SourceWalk Exec Exec where
  rel x _ := FailsEmpty x
  patient := True
  patience _ _ := failsWith_safe fun _ => rfl
  unfinished := failsWith_safe fun _ => rfl
  pure _ := failsWith_safe fun _ => rfl
  bind := .bind
  occurs result := result ∈ Statement.results path text
  takeOutput := failsWith_safe fun _ => rfl
  fault _ m f m' h := by
    cases h
    rfl
  define h := failsWith_safe (fault?_define h)

theorem failsEmpty_runResult (n : Nat) {path text : String} {result : Except Fault Statement}
    (h : result ∈ Statement.results path text) : FailsEmpty (runResult n result) := by
  have hrun : (emptiedSources path text).rel (runResult n result) (runResult n result) :=
    SourceWalk.result (fun _ => failsEmpty_expression n _) h
  exact hrun

theorem failsEmpty_process (n : Nat) (path text : String) : FailsEmpty (process n path text) := by
  have hrun : (emptiedSources path text).rel (process n path text) (process n path text) :=
    SourceWalk.run (fun _ => failsEmpty_expression n _) fun _ h => h
  exact hrun

abbrev NeverLeaves {α : Type} (act : Exec α) : Prop := FailsWith (fun f _ => f.isLeave = false) act

theorem neverLeaves_raise {α : Type} {cause : Fault.Cause} (h : cause ≠ .leave) :
    NeverLeaves (Exec.raise cause : Exec α) := by
  intro m f m' hf
  cases hf
  exact decide_eq_false h

theorem neverLeaves_catchLeave (act : Exec Unit) : NeverLeaves act.catchLeave :=
  fun _ _ _ hf => (catchLeave_eq_failed hf).2

theorem neverLeaves_pop : NeverLeaves pop := by
  intro m f m' hf
  unfold pop at hf
  split at hf
  · cases hf
  · cases hf
    rfl

theorem neverLeaves_takeBlock (v : Vocabulary) : NeverLeaves (Flow.takeBlock v) := by
  have hstream : NeverLeaves stream := by
    intro m f m' hf
    unfold stream at hf
    split at hf
    · cases hf
    · cases hf
      rfl
  refine hstream.bind fun s => ?_
  split
  · exact failsWith_safe fun _ => rfl
  · intro m f m' hf
    cases hf
    rfl

theorem neverLeaves_loop {word : Flow} (h : word = .counted ∨ word = .repeated) (runner : Runner)
    (n : Nat) : NeverLeaves (word.run runner n) := by
  rcases h with rfl | rfl
  · refine neverLeaves_pop.bind fun start => neverLeaves_pop.bind fun limit =>
      (neverLeaves_takeBlock _).bind fun block => .bind ?_ fun _ => neverLeaves_catchLeave _
    exact failsWith_safe fun _ => rfl
  · refine (neverLeaves_takeBlock _).bind fun block => ?_
    split
    · exact neverLeaves_raise (by simp)
    · split
      · exact neverLeaves_catchLeave _
      · exact neverLeaves_catchLeave _
      · exact neverLeaves_raise (by simp)
    · split
      · exact neverLeaves_catchLeave _
      · exact neverLeaves_raise (by simp)

/-- A run that fails leaves an empty data stack, unless it is a token list that `LEAVE` ends, and
loops do not end with `LEAVE`. A fault of any other kind that a word meets ends the list that called
the word, all the token lists around it, and the source, with nothing more done than to empty the
data stack. -/
theorem failure_ends_run :
    (∀ (n : Nat) (path text : String) (m m' : Machine) (f : Fault),
      process n path text m = .failed f m' → m'.data.cells = []) ∧
    (∀ (n : Nat) (tokens : List Token) (m m' : Machine) (f : Fault),
      runTokens n tokens m = .failed f m' → f.isLeave = false → m'.data.cells = []) ∧
    (∀ (word : Flow), word = .counted ∨ word = .repeated → ∀ (runner : Runner) (n : Nat)
      (m m' : Machine) (f : Fault), word.run runner n m = .failed f m' → f.isLeave = false) ∧
    (∀ (n : Nat) (tokens : List Token) (i : Invocation) (m start left : Machine) (f : Fault),
      Consults (fun invoke => runListVia invoke n tokens) (Invocation.run (runTokens n)) m i start →
        i.run (runTokens n) start = .failed f left → f.isLeave = false →
          ∃ m', runTokens (n + 1) tokens m = .failed f m' ∧ m'.lasting = left.lasting) ∧
    (∀ (n k : Nat) (tokens inner : List Token) (m last left : Machine) (f : Fault),
      Inside n tokens m k inner last → runTokens k inner last = .failed f left →
        f.isLeave = false → ∃ m', runTokens n tokens m = .failed f m' ∧ m'.lasting = left.lasting) ∧
    ∀ (n k : Nat) (path text : String) (tokens inner : List Token) (m start last left : Machine)
      (f : Fault), Consults (fun runner => runResultsVia runner (Statement.results path text))
          (runTokens n) m tokens start →
        Inside n tokens start k inner last → runTokens k inner last = .failed f left →
          f.isLeave = false →
            ∃ m', process n path text m = .failed f m' ∧ m'.lasting = left.lasting := by
  refine ⟨?_, ?_, ?_, ?_, ?_, ?_⟩
  · exact fun n path text m m' f h => failsEmpty_process n path text m f m' h
  · exact fun n tokens m m' f h hleave => cells_of_runTokens_failed h hleave
  · exact fun word hword runner n m m' f h => neverLeaves_loop hword runner n m f m' h
  · exact fun n tokens i m start left f h hrun hleave => failed_of_invocation h hrun hleave
  · exact fun n k tokens inner m last left f h hrun hleave => h.failed hrun hleave
  · intro n k path text tokens inner m start last left f hconsults hinside hrun hleave
    obtain ⟨m₁, hlist, hlasting⟩ := hinside.failed hrun hleave
    obtain ⟨m', hprocess, hlasting'⟩ := failed_of_statement hconsults hlist hleave
    exact ⟨m', hprocess, hlasting'.trans hlasting⟩

private def dropping : List Token :=
  [⟨.number 1, ⟨"f", 1, 6⟩⟩, ⟨.word "IF", ⟨"f", 1, 9⟩⟩, ⟨.word "DROP", ⟨"f", 1, 14⟩⟩,
    ⟨.word "THEN", ⟨"f", 1, 19⟩⟩]

private def calling : List Token := [⟨.word "W", ⟨"f", 1, 23⟩⟩, ⟨.number 7, ⟨"f", 1, 25⟩⟩]

private def small : Machine :=
  { blank {} with dictionary := ⟨[⟨"IF", .primitive (.flow .conditional), none, "", ""⟩,
    ⟨"DROP", .primitive (.shuffle .drop), none, "", ""⟩]⟩ }

private def defined : Machine :=
  { small with
    dictionary := ⟨⟨"W", .body dropping, some ⟨"f", 1, 4⟩, "User defined word.", ""⟩ ::
      small.dictionary.words⟩ }

private def called : Machine :=
  { defined with
    location := some ⟨"f", 1, 23⟩
    calls := [⟨"W", ⟨"f", 1, 23⟩⟩]
    streams := [⟨calling.tail⟩]
    frames := [[], []]
    depth := 1 }

private def branching : Machine :=
  { called with
    data := ⟨[], 1⟩
    location := some ⟨"f", 1, 9⟩
    calls := ⟨"IF", ⟨"f", 1, 9⟩⟩ :: called.calls
    streams := ⟨[]⟩ :: called.streams }

private def emptied : Machine :=
  { branching with
    location := some ⟨"f", 1, 14⟩
    streams := ⟨[]⟩ :: branching.streams }

private def dropCall : Invocation :=
  ⟨5, ⟨"f", 1, 14⟩, ⟨"DROP", .primitive (.shuffle .drop), none, "", ""⟩⟩

/-- The word fails two levels down, and the number that follows it is never pushed. A loop without
its bounds fails as well. -/
theorem failure_ends_run_nested :
    ∃ f left m₁ m₂ m₃, dropCall.run (runTokens 6) emptied = .failed f left ∧
      runTokens 7 [⟨.word "DROP", ⟨"f", 1, 14⟩⟩] branching = .failed f m₁ ∧
      runTokens 9 calling defined = .failed f m₂ ∧
      process 9 "f" ": W 1 IF DROP THEN ; W 7" small = .failed f m₃ ∧
      f.cause = .underflow ∧ m₁.lasting = left.lasting ∧ m₂.lasting = left.lasting ∧
      m₃.lasting = left.lasting ∧ m₁.data.cells = [] ∧ m₃.data.cells = [] ∧
      Flow.run (runTokens 9) 9 .counted small = .failed (small.fault .underflow) small ∧
      (small.fault .underflow).isLeave = false := by
  let f : Fault := ⟨.underflow, some ⟨"f", 1, 14⟩, some (⟨"DROP", ⟨"f", 1, 14⟩⟩ :: branching.calls)⟩
  have hrun : dropCall.run (runTokens 6) emptied = .failed f emptied := by decide +kernel
  have hdrop : Consults (fun invoke => runListVia invoke 6 [⟨.word "DROP", ⟨"f", 1, 14⟩⟩])
      (Invocation.run (runTokens 6)) branching dropCall emptied := ⟨.unfinished, by decide +kernel⟩
  have hbranch : Consults (fun runner => runListVia (Invocation.run runner) 7 dropping)
      (runTokens 7) called [⟨.word "DROP", ⟨"f", 1, 14⟩⟩] branching :=
    ⟨.unfinished, by decide +kernel⟩
  have hcall : Consults (fun runner => runListVia (Invocation.run runner) 8 calling)
      (runTokens 8) defined dropping called := ⟨.unfinished, by decide +kernel⟩
  have hsource : Consults (fun runner => runResultsVia runner
        (Statement.results "f" ": W 1 IF DROP THEN ; W 7")) (runTokens 9) small calling defined :=
    ⟨.unfinished, by decide +kernel⟩
  have hinside : Inside 9 calling defined 7 [⟨.word "DROP", ⟨"f", 1, 14⟩⟩] branching :=
    .there hcall (.there hbranch (.here _ _ _))
  have hloop : Flow.run (runTokens 9) 9 .counted small = .failed (small.fault .underflow) small := by
    decide +kernel
  obtain ⟨hstack, hcells, hloops, hwords, hlists, hsources⟩ := failure_ends_run
  obtain ⟨m₁, hm₁, hlasting₁⟩ := hwords 6 _ dropCall branching emptied emptied f hdrop hrun rfl
  obtain ⟨m₂, hm₂, hlasting₂⟩ := hlists 9 7 calling _ defined branching m₁ f hinside hm₁ rfl
  obtain ⟨m₃, hm₃, hlasting₃⟩ := hsources 9 7 "f" ": W 1 IF DROP THEN ; W 7" calling _ small
    defined branching m₁ f hsource hinside hm₁ rfl
  exact ⟨f, emptied, m₁, m₂, m₃, hrun, hm₁, hm₂, hm₃, rfl, hlasting₁, hlasting₂.trans hlasting₁,
    hlasting₃.trans hlasting₁, hcells _ _ _ _ _ hm₁ rfl, hstack _ _ _ _ _ _ hm₃, hloop,
    hloops .counted (.inl rfl) _ _ _ _ _ hloop⟩

end Machine

end TokenForth

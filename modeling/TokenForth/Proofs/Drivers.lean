import TokenForth.CommandLine
import TokenForth.Proofs.Failure

/-!
# Three ways to run a source

A source can be processed as a whole, submitted in a conversation, or run as a script. The loops
over its statements differ in what they do with outputs and faults, and in when they empty the data
stack. They all carry out the same statements up to the same failure.
-/
namespace TokenForth

open Exec Machine

variable {n : Nat} {results : List (Except Fault Statement)} {m : Machine} {outputs : List String}
  {o : Outcome Unit} {path text : String}

theorem Stack.clear_of_nil {s : Stack} (h : s.cells = []) : s.clear = s := by
  obtain ⟨cells, free⟩ := s
  cases h
  simp [Stack.clear, Stack.peak]

theorem Machine.cleared_of_nil {m : Machine} (h : m.data.cells = []) : m.cleared = m := by
  simp only [cleared, Stack.clear_of_nil h]

theorem Fault.isExit_iff (f : Fault) : f.isExit = true ↔ f.kind = .exitRequested := by
  obtain ⟨cause, location, trace⟩ := f
  cases cause <;> simp [isExit, kind, Cause.kind]

/-- A fault of a source text is no request to exit. -/
theorem Statement.isExit_of_mem_results {f : Fault} (h : .error f ∈ Statement.results path text) :
    f.isExit = false := by
  rw [← Bool.not_eq_true, Fault.isExit_iff]
  intro hkind
  have hsource := source_of_mem_results h
  rw [hkind] at hsource
  simp [Fault.Kind.isLexical, Fault.Kind.isStructural] at hsource

namespace Machine

/-- How the statements of a source are carried out in turn: what each completed one prints, up to
the first one that fails or does not come to an end. -/
inductive Proceeds (n : Nat) :
    List (Except Fault Statement) → Machine → List String → Outcome Unit → Prop
  | nil (m : Machine) : Proceeds n [] m [] (.done () m)
  | next {result rest m m₁ output outputs o} (h : runResult n result m = .done output m₁)
    (hrest : Proceeds n rest m₁ outputs o) : Proceeds n (result :: rest) m (output :: outputs) o
  | failed {result rest m f m'} (h : runResult n result m = .failed f m') :
    Proceeds n (result :: rest) m [] (.failed f m')
  | unfinished {result rest m} (h : runResult n result m = .unfinished) :
    Proceeds n (result :: rest) m [] .unfinished

theorem exists_proceeds (n : Nat) (results : List (Except Fault Statement)) (m : Machine) :
    ∃ outputs o, Proceeds n results m outputs o := by
  induction results generalizing m with
  | nil => exact ⟨[], _, .nil m⟩
  | cons result rest ih =>
    cases h : runResult n result m with
    | done output m₁ =>
      obtain ⟨outputs, o, hrest⟩ := ih m₁
      exact ⟨output :: outputs, o, .next h hrest⟩
    | failed f m' => exact ⟨[], _, .failed h⟩
    | unfinished => exact ⟨[], _, .unfinished h⟩

theorem Proceeds.runResults_eq (h : Proceeds n results m outputs o) :
    runResults n results m = o.map fun _ => outputs := by
  induction h with
  | nil m => rfl
  | @next result rest m m₁ output outputs o h _ ih =>
    simp only [runResultsVia, Bind.bind, h, ih]
    cases o <;> rfl
  | failed h => simp only [runResultsVia, Bind.bind, h]; rfl
  | unfinished h => simp only [runResultsVia, Bind.bind, h]; rfl

end Machine

namespace Session

def acknowledgement (outputs : List String) : String :=
  String.join (outputs.map fun output => output ++ " ok\n")

/-- The line that answers a fault, unless it is a request to exit. -/
def complaint (f : Fault) : String := if f.kind = .exitRequested then "" else f.render ++ " ?\n"

/-- The answer to a submission whose statements printed the outputs and came to an ending. -/
def answer (outputs : List String) : Outcome Unit → Outcome Answer
  | .done _ m => .done ⟨acknowledgement outputs, true⟩ m
  | .failed f m => .done ⟨acknowledgement outputs ++ complaint f, f.kind ≠ .exitRequested⟩ m
  | .unfinished => .unfinished

theorem answer_cons (output : String) (outputs : List String) (o : Outcome Unit) :
    answer (output :: outputs) o =
      (answer outputs o).map fun a => { a with text := output ++ " ok\n" ++ a.text } := by
  cases o <;> simp [answer, acknowledgement, Outcome.map, String.append_assoc]

theorem answer_nil_failed (f : Fault) (m : Machine) :
    answer [] (.failed f m) =
      .done (if f.isExit then ⟨"", false⟩ else ⟨f.render ++ " ?\n", true⟩) m := by
  by_cases hexit : f.isExit
  · simp [answer, acknowledgement, complaint, hexit, f.isExit_iff.mp hexit]
  · simp [answer, acknowledgement, complaint, hexit, mt f.isExit_iff.mpr hexit]

theorem submitResults_eq (h : Proceeds n results m outputs o)
    (hresults : results ⊆ Statement.results submissionPath text) :
    submitResults n results m = answer outputs o := by
  induction h with
  | nil m => rfl
  | @next result rest m m₁ output outputs o h _ ih =>
    cases result with
    | error f => cases h
    | ok s =>
      change runStatement n s m = _ at h
      simp only [submitResults, Bind.bind, attempt, h, ih (List.subset_of_cons_subset hresults),
        answer_cons]
      cases answer outputs o <;> rfl
  | @failed result rest m f m' h =>
    have hmem := hresults List.mem_cons_self
    have hcells : m'.data.cells = [] := failsEmpty_runResult n hmem m f m' h
    cases result with
    | error g =>
      -- The fault of a text is no request to exit, so the data stack is emptied here too.
      cases h
      have hexit := Statement.isExit_of_mem_results hmem
      simp only [submitResults, Bind.bind, attempt, Exec.fail, answer_nil_failed]
      generalize f.isExit = exit at hexit ⊢
      cases hexit
      rfl
    | ok s =>
      change runStatement n s m = _ at h
      simp only [submitResults, Bind.bind, attempt, h, answer_nil_failed]
      cases f.isExit with
      | true => rfl
      | false => exact congrArg (Outcome.done _) (cleared_of_nil hcells)
  | @unfinished result rest m h =>
    cases result with
    | error f => cases h
    | ok s =>
      change runStatement n s m = _ at h
      simp only [submitResults, Bind.bind, attempt, h]
      rfl

theorem goesOn_of_answer {a : Answer} {m' : Machine} (h : answer outputs o = .done a m') :
    a.goesOn = false ↔ ∃ f, o = .failed f m' ∧ f.kind = .exitRequested := by
  cases o with
  | done _ m =>
    cases h
    simp
  | failed f m =>
    cases h
    simp
  | unfinished => cases h

end Session

namespace Script

/-- The ending of a script whose statements printed the outputs and came to an ending. The machine
of a script that failed is of no further use. -/
def Ends (outputs : List String) : Outcome Unit → Outcome (String × Option Fault) → Prop
  | .done _ m, o => o = .done (String.join outputs, none) m
  | .failed f _, o => ∃ m, o = .done (String.join outputs, some f) m
  | .unfinished, o => o = .unfinished

theorem Ends.cons {o' : Outcome (String × Option Fault)} (output : String)
    (h : Ends outputs o o') :
    Ends (output :: outputs) o (o'.map fun r => (output ++ r.1, r.2)) := by
  cases o with
  | done _ m =>
    cases h
    simp [Ends, Outcome.map]
  | failed f m =>
    obtain ⟨m', rfl⟩ := h
    exact ⟨m', by simp [Outcome.map]⟩
  | unfinished =>
    cases h
    rfl

theorem ends_runResults (h : Proceeds n results m outputs o) :
    Ends outputs o (runResults n results m) := by
  induction h with
  | nil m => rfl
  | @next result rest m m₁ output outputs o h _ ih =>
    cases result with
    | error f => cases h
    | ok s =>
      change runStatement n s m = _ at h
      have hcons : runResults n (.ok s :: rest) m =
          (runResults n rest m₁).map fun r => (output ++ r.1, r.2) := by
        simp only [runResults, Bind.bind, attempt, h]
        cases runResults n rest m₁ <;> rfl
      exact hcons ▸ ih.cons output
  | @failed result rest m f m' h =>
    cases result with
    | error g =>
      cases h
      exact ⟨m, rfl⟩
    | ok s =>
      change runStatement n s m = _ at h
      exact ⟨m', by simp only [runResults, Bind.bind, attempt, h]; rfl⟩
  | @unfinished result rest m h =>
    cases result with
    | error f => cases h
    | ok s =>
      change runStatement n s m = _ at h
      simp only [Ends, runResults, Bind.bind, attempt, h]

end Script

namespace CommandLine

/-- What a script writes to its error stream: the fault that ended it, unless that was a request to
exit. -/
def errorText : Outcome Unit → String
  | .failed f _ => if f.kind = .exitRequested then "" else "Error: " ++ f.render ++ "\n"
  | .done _ _ | .unfinished => ""

/-- The report on a script whose statements printed the outputs and came to an ending. -/
def scriptReport (outputs : List String) : Outcome Unit → Option Report
  | .done _ _ => some ⟨0, String.join outputs, ""⟩
  | .failed f m =>
    some ⟨if f.kind = .exitRequested then 0 else 1, String.join outputs, errorText (.failed f m)⟩
  | .unfinished => none

theorem ofRun_fault (stdout : String) (f : Fault) (m : Machine) :
    Report.ofRun stdout (some f) =
      ⟨if f.kind = .exitRequested then 0 else 1, stdout, errorText (.failed f m)⟩ := by
  by_cases hexit : f.isExit
  · simp [Report.ofRun, errorText, hexit, f.isExit_iff.mp hexit]
  · simp [Report.ofRun, errorText, hexit, mt f.isExit_iff.mpr hexit]

theorem runScript_of_ends {config : Config}
    (h : Script.Ends outputs o (Script.run n path text (Machine.new config))) :
    runScript n config path (.ok text.toUTF8) = scriptReport outputs o := by
  have hdecode : String.fromUTF8? text.toUTF8 = some text := dif_pos text.isValidUTF8
  simp only [runScript, hdecode]
  cases o with
  | done _ m =>
    simp only [Script.Ends] at h
    rw [h]
    rfl
  | failed f m =>
    obtain ⟨m', hrun⟩ := h
    rw [hrun, scriptReport, ← ofRun_fault]
  | unfinished =>
    simp only [Script.Ends] at h
    rw [h]
    rfl

theorem code_of_scriptReport {r : Report} (h : scriptReport outputs o = some r) :
    r.code = 0 ↔ (∃ m', o = .done () m') ∨ ∃ f m', o = .failed f m' ∧ f.kind = .exitRequested := by
  cases o with
  | done _ m =>
    cases h
    simp
  | failed f m =>
    cases h
    simp
  | unfinished => cases h

theorem texts_of_scriptReport {r : Report} (h : scriptReport outputs o = some r) :
    r.stdout = String.join outputs ∧ r.stderr = errorText o := by
  cases o with
  | done _ m | failed f m =>
    cases h
    exact ⟨rfl, rfl⟩
  | unfinished => cases h

end CommandLine

open Session CommandLine in
/-- A conversation and a script go through the statements of a source as processing it does. An
answer acknowledges the completed statements, adds the fault that ended them, and leaves the machine
of the processed source. A script prints what the completed statements printed, ends with the same
fault and reports it on the error stream. -/
theorem drivers_agree (n : Nat) (path text : String) (m : Machine) (config : Config) :
    (∃ outputs ending, Proceeds n (Statement.results submissionPath text) m outputs ending ∧
      process n submissionPath text m = (ending.map fun _ => outputs) ∧
      submit n text m = answer outputs ending) ∧
    (∀ a m', submit n text m = .done a m' →
      (a.goesOn = false ↔
        ∃ f, process n submissionPath text m = .failed f m' ∧ f.kind = .exitRequested)) ∧
    (∃ outputs ending, Proceeds n (Statement.results path text) (new config) outputs ending ∧
      process n path text (new config) = (ending.map fun _ => outputs) ∧
      Script.Ends outputs ending (Script.run n path text (new config)) ∧
      runScript n config path (.ok text.toUTF8) = scriptReport outputs ending ∧
      ∀ r, runScript n config path (.ok text.toUTF8) = some r →
        r.stdout = String.join outputs ∧ r.stderr = errorText ending) ∧
    (∀ r, runScript n config path (.ok text.toUTF8) = some r →
      (r.code = 0 ↔
        (∃ outputs m', process n path text (new config) = .done outputs m') ∨
          ∃ f m', process n path text (new config) = .failed f m' ∧ f.kind = .exitRequested)) := by
  obtain ⟨said, heard, hsubmitted⟩ :=
    exists_proceeds n (Statement.results submissionPath text) m
  have hanswer : submit n text m = answer said heard :=
    submitResults_eq hsubmitted (List.Subset.refl _)
  obtain ⟨printed, ending, hrun⟩ := exists_proceeds n (Statement.results path text) (new config)
  have hends : Script.Ends printed ending (Script.run n path text (new config)) :=
    Script.ends_runResults hrun
  have hreport := runScript_of_ends hends
  refine ⟨⟨said, heard, hsubmitted, hsubmitted.runResults_eq, hanswer⟩, ?_,
    ⟨printed, ending, hrun, hrun.runResults_eq, hends, hreport, fun r h =>
      texts_of_scriptReport (hreport.symm.trans h)⟩, ?_⟩
  · intro a m' h
    rw [goesOn_of_answer (hanswer.symm.trans h), process, hsubmitted.runResults_eq]
    cases heard <;> simp [Outcome.map]
  · intro r h
    rw [code_of_scriptReport (hreport.symm.trans h), process, hrun.runResults_eq]
    cases ending <;> simp [Outcome.map]

end TokenForth

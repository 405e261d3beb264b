import TokenForth.Proofs.Sources

/-!
# Raising the call limit

The limit on calls is looked at when a defined word is called and nowhere else, and the fault of a
call that is too deep is caught nowhere. So a run that does not end with this fault never met the
limit, and it does the same under a greater one.
-/
namespace TokenForth

open Exec Machine

def Machine.withLimit (limit : Nat) (m : Machine) : Machine :=
  { m with config := { m.config with callLimit := limit } }

def Outcome.withLimit {α : Type} (limit : Nat) : Outcome α → Outcome α
  | done a m => done a (m.withLimit limit)
  | failed f m => failed f (m.withLimit limit)
  | unfinished => unfinished

namespace CallLimit

def Ignores {α : Type} (limit : Nat) (act : Exec α) : Prop :=
  ∀ m, act (m.withLimit limit) = (act m).withLimit limit

variable {limit : Nat} {α β : Type}

theorem Ignores.bind {act : Exec α} {next : α → Exec β} (h : Ignores limit act)
    (hnext : ∀ a, Ignores limit (next a)) : Ignores limit (act >>= next) := by
  intro m
  simp only [Bind.bind, h m]
  cases act m with
  | done a m' => exact hnext a m'
  | failed f m' => rfl
  | unfinished => rfl

theorem ignores_pop : Ignores limit pop := by
  intro m
  simp only [Machine.pop, withLimit]
  cases m.data.pop? <;> rfl

theorem ignores_plain {E : Effect → Prop} {act : Exec α} (h : Plain E act) : Ignores limit act := by
  induction h with
  | bind _ _ ih ihnext => exact ih.bind ihnext
  | pop => exact ignores_pop
  | popMany n =>
    intro m
    simp only [Machine.popMany, withLimit]
    cases m.data.popMany? n <;> rfl
  | top =>
    intro m
    simp only [Machine.top, withLimit]
    cases m.data.top? <;> rfl
  | popReturn =>
    intro m
    simp only [Machine.popReturn, withLimit]
    cases m.returns.pop? <;> rfl
  | topReturn =>
    intro m
    simp only [Machine.topReturn, withLimit]
    cases m.returns.top? <;> rfl
  | setRadix r =>
    intro m
    unfold Machine.setRadix
    cases Numeral.isRadix r <;> rfl
  | fetch address =>
    intro m
    simp only [Machine.fetch, withLimit]
    cases m.memory.fetch? address <;> rfl
  | _ => exact fun _ => rfl

theorem ignores_nextName : Ignores limit nextName := by
  have hnext? : Ignores limit nextToken? := by
    intro m
    obtain ⟨config, data, returns, radix, dictionary, memory, location, calls, streams⟩ := m
    rcases streams with _ | ⟨⟨_ | ⟨t, rest⟩⟩, outer⟩ <;> rfl
  have hnext : Ignores limit nextToken := by
    refine hnext?.bind fun t => ?_
    cases t <;> exact fun _ => rfl
  refine hnext.bind fun t => ?_
  cases t.lexeme <;> exact fun _ => rfl

theorem ignores_stream : Ignores limit stream := by
  intro m
  obtain ⟨config, data, returns, radix, dictionary, memory, location, calls, streams⟩ := m
  cases streams <;> rfl

theorem ignores_nextMessage : Ignores limit nextMessage := by
  refine ignores_stream.bind fun s => ?_
  split <;> exact fun _ => rfl

/-- The primitives that run no token list do the same under another limit. -/
theorem ignores_primitive {p : Primitive} (hflow : ∀ word, p ≠ .flow word) (runner : Runner)
    (n : Nat) : Ignores limit (p.run runner n) := by
  by_cases hread : p.readsTokens = false
  · exact ignores_plain (p.plain hread runner n)
  · cases p with
    | flow word => exact absurd rfl (hflow word)
    | storage word =>
      cases word with
      | declare => exact ignores_nextName.bind fun (name, _) _ => rfl
      | constant =>
        exact ignores_nextName.bind fun (name, location) => ignores_pop.bind fun value _ => rfl
      | store | fetch => exact absurd rfl hread
    | listing word =>
      cases word with
      | forget =>
        refine ignores_nextName.bind fun (name, _) m => ?_
        simp only [forgetWord, withLimit]
        cases m.dictionary.forget? name <;> rfl
      | see =>
        refine ignores_nextName.bind fun (name, _) => .bind (fun m => ?_) fun w _ => rfl
        simp only [findWord, withLimit]
        cases m.dictionary.get? name <;> rfl
      | words => exact absurd rfl hread
    | control word =>
      cases word with
      | abort =>
        have hflag : Ignores limit popFlag := ignores_pop.bind fun _ _ => rfl
        refine hflag.bind fun flag => ignores_nextMessage.bind fun message => ?_
        cases flag <;> exact fun _ => rfl
      | _ => exact absurd rfl hread
    | report => exact ignores_stream.bind fun s _ => rfl
    | _ => exact absurd rfl hread

def Rel (limit : Nat) (m m' : Machine) : Prop := m' = m.withLimit limit ∧ m.config.callLimit ≤ limit

/-- The fault of a call that is too deep is given up: under the greater limit it may not be met. -/
def coupling (limit : Nat) : Coupling where
  rel := Rel limit
  token := Eq
  tokens := List.Forall₂ Eq
  fault := Eq
  lost f := f.kind = .callDepthExceeded
  nested := Eq
  lexeme := congrArg Token.lexeme
  raised h c := by rw [h.1]; exact rfl
  streams h := by rw [h.1]; exact rfl
  streamed := @Coupling.nested_of_eq
  restreamed h hss := ⟨by rw [h.1, hss]; exact rfl, h.2⟩
  exhausted := Coupling.exhausted_of_eq
  scanned := @Coupling.scanned_of_eq

theorem inStep_of_ignores {act : Exec α} (h : Ignores limit act) (hlater : Always Later act) :
    (coupling limit).InStep Eq act act := by
  rintro outer _ m _ ⟨⟨rfl, hm⟩, rfl, rest, _, hs, -, -⟩
  have hat {m' : Machine} (hm' : Later m m') :
      (coupling limit).At outer outer m' (m'.withLimit limit) := by
    have hstreams := hm'.streams
    rw [hs] at hstreams
    obtain ⟨rest', hs', -⟩ := hstreams.exists_cons
    refine ⟨⟨rfl, ?_⟩, rfl, rest', rest', hs', hs', List.forall₂_same.mpr fun _ _ => rfl⟩
    rw [hm'.config]
    exact hm
  have hm' := hlater m
  rw [h m]
  cases hact : act m with
  | done a m' => rw [hact] at hm'; exact .done ⟨rfl, hat hm'⟩
  | failed f m' => rw [hact] at hm'; exact .failed ⟨rfl, hat hm'⟩
  | unfinished => exact .unfinished

def simulation (limit : Nat) : Simulation where
  toCoupling := coupling limit
  primitive _ := True
  substituted h indices := substituteFrom_related (congrArg Token.lexeme)
    (fun h _ => congrArg _ (congrArg Token.location h)) indices 0 h
  front h := .of_forall₂ id h
  leave h := by rw [h]
  lost_leave f h := by
    have hkind : f.kind = .callDepthExceeded := h
    have hcause : f.cause ≠ .leave := by
      intro hleave
      simp only [Fault.kind, hleave, Fault.Cause.kind] at hkind
      cases hkind
    exact decide_eq_false hcause
  frames := by rintro m _ ⟨rfl, -⟩; rfl
  returns := by rintro m _ ⟨rfl, -⟩; rfl
  meaning := by
    rintro m _ t u name ⟨rfl, -⟩ - -
    exact Meaning.related_self _
  shallow := by
    rintro m _ ⟨rfl, hlimit⟩ h
    exact Nat.lt_of_lt_of_le h hlimit
  tooDeep _ _ _ := .inl rfl
  located := by
    rintro m _ t _ ⟨rfl, h⟩ rfl
    exact ⟨rfl, h⟩
  looped := by
    rintro m _ frames ⟨rfl, h⟩ -
    exact ⟨rfl, h⟩
  called := by
    rintro m _ t _ ⟨rfl, h⟩ rfl name
    exact ⟨rfl, h⟩
  uncalled := by
    rintro m _ ⟨rfl, h⟩
    exact ⟨rfl, h⟩
  entered := by
    rintro m _ ⟨rfl, h⟩ -
    exact ⟨rfl, h⟩
  exited := by
    rintro m _ ⟨rfl, h⟩ -
    exact ⟨rfl, h⟩
  pushed := by
    rintro m _ ⟨rfl, h⟩ c
    exact ⟨rfl, h⟩
  written := by
    rintro m _ ⟨rfl, h⟩ text
    exact ⟨rfl, h⟩
  cleared := by
    rintro m _ f ⟨rfl, h⟩ -
    exact .inr ⟨rfl, h⟩
  returnsCleared := by
    rintro m _ ⟨rfl, h⟩
    exact ⟨rfl, h⟩
  popped := inStep_of_ignores ignores_pop pop_keeps
  run := by
    intro p _ hflow r r' n n'
    rw [p.run_eq hflow r' r n' n]
    exact (inStep_of_ignores (ignores_primitive hflow r n) (primitive_keeps hflow r n)).imp
      fun _ _ _ => trivial

theorem runs_define (tokens : List Token) :
    (simulation limit).Runs (define tokens) (define tokens) := by
  cases tokens with
  | nil => exact relates_raise fun m m' hm => ⟨(coupling limit).raised hm _, hm⟩
  | cons t body =>
    simp only [define]
    split
    · refine relates_update ?_
      rintro m _ ⟨rfl, hm⟩
      exact ⟨rfl, hm⟩
    · rintro m _ ⟨rfl, hm⟩
      exact .failed ⟨rfl, rfl, hm⟩

theorem runs_carryOut (n : Nat) (s : Statement) :
    (simulation limit).Runs (carryOut n s) (carryOut n s) := by
  cases s with
  | declaration tokens => exact runs_define tokens
  | expression tokens =>
    have hsame : List.Forall₂ Eq tokens tokens := List.forall₂_same.mpr fun _ _ => rfl
    have hrun := Simulation.runs_runTokens (S := simulation limit) (Nat.le_refl n) hsame
    refine Relates.onFault hrun (fun f m g m' hf => congrArg Fault.isLeave hf.1) ?_
    rintro f m g _ ⟨hf, rfl, hm⟩ -
    exact .inr ⟨hf, rfl, hm⟩

abbrev Concur (limit : Nat) (act act' : Exec α) : Prop :=
  Relates (coupling limit).lost (Rel limit) (fun a m b m' => a = b ∧ Rel limit m m')
    (fun f m g m' => f = g ∧ Rel limit m m') act act'

theorem concur_takeOutput : Concur limit takeOutput takeOutput := by
  rintro m _ ⟨rfl, hm⟩
  exact .done ⟨rfl, rfl, hm⟩

theorem concur_runResult (n : Nat) (result : Except Fault Statement) :
    Concur limit (runResult n result) (runResult n result) := by
  cases result with
  | error f =>
    rintro m _ ⟨rfl, hm⟩
    exact .failed ⟨rfl, rfl, hm⟩
  | ok s =>
    have hcarry : Concur limit (carryOut n s) (carryOut n s) :=
      (runs_carryOut n s).imp fun _ _ _ _ hm => ⟨rfl, hm⟩
    refine concur_takeOutput.bind fun _ _ m m' hm => ?_
    refine hcarry.bind (fun _ _ m m' hm => ?_) m m' hm.2
    exact concur_takeOutput m m' hm.2

theorem concur_process (n : Nat) (path text : String) :
    Concur limit (process n path text) (process n path text) :=
  relates_runResults (List.forall₂_same.mpr fun result _ => concur_runResult n result)

end CallLimit

namespace Machine

/-- What a source does without ending in a call that is too deep, it also does under a greater
limit. -/
theorem process_withLimit {m : Machine} {limit : Nat} (hlimit : m.config.callLimit ≤ limit)
    (n : Nat) (path text : String) :
    (∀ outputs m₁, process n path text m = .done outputs m₁ →
      process n path text (m.withLimit limit) = .done outputs (m₁.withLimit limit)) ∧
    ∀ f m₁, f.kind ≠ .callDepthExceeded → process n path text m = .failed f m₁ →
      process n path text (m.withLimit limit) = .failed f (m₁.withLimit limit) := by
  have hrun := CallLimit.concur_process n path text m (m.withLimit limit) ⟨rfl, hlimit⟩
  generalize process n path text m = o, process n path text (m.withLimit limit) = o' at hrun
  constructor
  · rintro outputs m₁ rfl
    cases hrun with
    | done h =>
      obtain ⟨rfl, rfl, -⟩ := h
      rfl
  · rintro f m₁ hkind rfl
    cases hrun with
    | failed h =>
      obtain ⟨rfl, rfl, -⟩ := h
      rfl
    | lost h => exact absurd h hkind

private def calculator (limit : Nat) : Machine :=
  { blank { callLimit := limit } with
    dictionary := ⟨[⟨"+", .primitive (.arithmetic .add), none, "", ""⟩,
      ⟨"/", .primitive (.arithmetic .quotient), none, "", ""⟩,
      ⟨".", .primitive (.printing .number), none, "", ""⟩]⟩ }

/-- Two levels of calls fit under a limit of two, also where the inner word divides by zero. -/
theorem process_withLimit_nested :
    (calculator 2).config.callLimit ≤ 7 ∧
    (∃ m₁, process 12 "f" ": A 1 ; : B A A + ; B B + ." (calculator 2) = .done ["", "", "4 "] m₁ ∧
      process 12 "f" ": A 1 ; : B A A + ; B B + ." (calculator 7) =
        .done ["", "", "4 "] (m₁.withLimit 7)) ∧
    ∃ f m₁, f.kind = .divisionByZero ∧
      process 12 "f" ": A 0 / ; : B 5 A ; B" (calculator 2) = .failed f m₁ ∧
      process 12 "f" ": A 0 / ; : B 5 A ; B" (calculator 7) = .failed f (m₁.withLimit 7) := by
  have hlimit : (calculator 2).config.callLimit ≤ 7 := by decide
  let left (text : String) : Machine := (process 12 "f" text (calculator 2)).machineD (blank {})
  let f : Fault := ⟨.divisionByZero, some ⟨"f", 1, 8⟩,
    some [⟨"/", ⟨"f", 1, 8⟩⟩, ⟨"A", ⟨"f", 1, 18⟩⟩, ⟨"B", ⟨"f", 1, 22⟩⟩]⟩
  have hdone : process 12 "f" ": A 1 ; : B A A + ; B B + ." (calculator 2) =
      .done ["", "", "4 "] (left ": A 1 ; : B A A + ; B B + .") := by decide +kernel
  have hfailed : process 12 "f" ": A 0 / ; : B 5 A ; B" (calculator 2) =
      .failed f (left ": A 0 / ; : B 5 A ; B") := by decide +kernel
  refine ⟨hlimit, ⟨_, hdone, ?_⟩, f, _, rfl, hfailed, ?_⟩
  · exact (process_withLimit hlimit 12 "f" _).1 _ _ hdone
  · exact (process_withLimit hlimit 12 "f" _).2 f _ (by decide) hfailed

end Machine

end TokenForth

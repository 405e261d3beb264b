import TokenForth.Proofs.Names
import TokenForth.Proofs.Simulation

/-!
# Cells below the ones in use

Words that do not ask for the depth of the data stack, show all of it or empty it work on the cells
at its top. So what a run does with a data stack it also does with other cells underneath, unless
it fails: a run that found too few cells may go on with more of them.
-/
namespace TokenForth

open Exec Machine

/-- The second machine has some more cells under its data stack, and is the same otherwise. -/
def Machine.Over (below : List Cell) (m m' : Machine) : Prop :=
  ∃ data, m' = { m with data := data } ∧ data.cells = m.data.cells ++ below

/-- Whether a primitive looks at the top of the data stack only. -/
def Primitive.isFrugal (p : Primitive) : Bool :=
  !p.effects.contains .measure && !p.effects.contains .clear && p ≠ .report

namespace Frame

def Same (names : String → Prop) (t u : Token) : Prop :=
  t = u ∧ ∀ name, t.name? = some name → names name

structure Rel (names : String → Prop) (below : List Cell) (m m' : Machine) : Prop where
  overlies : Over below m m'
  within : m.dictionary.Within names (fun p => p.isFrugal)

variable {names : String → Prop} {below : List Cell}

/-- Faults other than `LEAVE` are given up: with more cells the run may not meet them. -/
def coupling (names : String → Prop) (below : List Cell) : Coupling where
  rel := Rel names below
  token := Same names
  tokens := List.Forall₂ (Same names)
  fault := Eq
  lost f := f.isLeave = false
  nested := Eq
  lexeme h := by rw [h.1]
  raised := by
    rintro m _ ⟨⟨data, rfl, _⟩, _⟩ cause
    rfl
  streams := by
    rintro m _ ⟨⟨data, rfl, _⟩, _⟩
    rfl
  streamed hrest hss := by
    have h := hrest.imp fun _ _ h => h.1
    rw [List.forall₂_eq_eq_eq] at h
    rw [h, hss]
  restreamed := by
    rintro m _ ss _ ⟨⟨data, rfl, hcells⟩, hwithin⟩ rfl
    exact ⟨⟨data, rfl, hcells⟩, hwithin⟩
  exhausted := .nil
  scanned v _ _ h := v.scanFrom_related (fun h => congrArg Token.lexeme h.1) 0 h

theorem front {ts us : List Token} (h : (coupling names below).tokens ts us) :
    (coupling names below).Front ts us := .of_forall₂ id h

theorem inStep_pop : (coupling names below).InStep Eq pop pop := by
  rintro outer outer' m _ ⟨⟨⟨⟨cells, free⟩, rfl, hcells⟩, hwithin⟩, hat⟩
  dsimp only at hcells
  obtain ⟨_, ⟨top, _⟩⟩ := m
  cases top with
  | nil => exact .lost rfl
  | cons c rest =>
    simp only [List.cons_append] at hcells
    subst hcells
    exact .done ⟨rfl, ⟨⟨⟨rest ++ below, free + 1⟩, rfl, rfl⟩, hwithin⟩, hat⟩

theorem inStep_popMany (n : Nat) :
    (coupling names below).InStep Eq (Machine.popMany n) (Machine.popMany n) := by
  rintro outer outer' m _ ⟨⟨⟨⟨cells, free⟩, rfl, hcells⟩, hwithin⟩, hat⟩
  dsimp only at hcells
  subst hcells
  by_cases hn : n ≤ m.data.cells.length
  · have htake : (m.data.cells ++ below).take n = m.data.cells.take n :=
      List.take_append_of_le_length hn
    have hdrop : (m.data.cells ++ below).drop n = m.data.cells.drop n ++ below :=
      List.drop_append_of_le_length hn
    have hn' : n ≤ (m.data.cells ++ below).length := by simp; omega
    simp only [Machine.popMany, Stack.popMany?, hn, hn', if_true, htake, hdrop]
    exact .done ⟨rfl, ⟨⟨⟨_, free + n⟩, rfl, rfl⟩, hwithin⟩, hat⟩
  · simp only [Machine.popMany, Stack.popMany?, hn, if_false]
    exact .lost rfl

theorem inStep_top : (coupling names below).InStep Eq Machine.top Machine.top := by
  rintro outer outer' m _ ⟨⟨⟨⟨cells, free⟩, rfl, hcells⟩, hwithin⟩, hat⟩
  dsimp only at hcells
  subst hcells
  cases htop : m.data.cells with
  | nil =>
    simp only [Machine.top, Stack.top?, htop, List.head?_nil]
    exact .lost rfl
  | cons c rest =>
    simp only [Machine.top, Stack.top?, htop, List.cons_append, List.head?_cons]
    exact .done ⟨rfl, ⟨⟨⟨_, free⟩, rfl, by rw [htop]; rfl⟩, hwithin⟩, hat⟩

/-- Plain actions without the two effects that reach below work on the top cells only. -/
theorem inStep_plain {E : Effect → Prop} (hmeasure : ¬ E .measure) (hclear : ¬ E .clear) {α : Type}
    {act : Exec α} (h : Plain E act) : (coupling names below).InStep Eq act act := by
  induction h with
  | pure a => exact Coupling.inStep_pure rfl
  | raise cause => exact Coupling.inStep_raise cause
  | bind _ _ ih ihnext =>
    refine .bind ih fun a b hab => ?_
    rw [hab]
    exact ihnext b
  | push c =>
    rintro outer outer' m _ ⟨⟨⟨⟨cells, free⟩, rfl, hcells⟩, hwithin⟩, hat⟩
    exact .done ⟨rfl, ⟨⟨_, rfl, congrArg (c :: ·) hcells⟩, hwithin⟩, hat⟩
  | pop => exact inStep_pop
  | popMany n => exact inStep_popMany n
  | top => exact inStep_top
  | depth h | listing h => exact absurd h hmeasure
  | clear h => exact absurd h hclear
  | topReturn =>
    rintro outer outer' m _ ⟨⟨⟨data, rfl, hcells⟩, hwithin⟩, hat⟩
    unfold Machine.topReturn
    dsimp only
    split
    · exact .done ⟨rfl, ⟨⟨data, rfl, hcells⟩, hwithin⟩, hat⟩
    · exact .failed ⟨rfl, ⟨⟨data, rfl, hcells⟩, hwithin⟩, hat⟩
  | popReturn =>
    rintro outer outer' m _ ⟨⟨⟨data, rfl, hcells⟩, hwithin⟩, hat⟩
    unfold Machine.popReturn
    dsimp only
    split
    · exact .done ⟨rfl, ⟨⟨data, rfl, hcells⟩, hwithin⟩, hat⟩
    · exact .failed ⟨rfl, ⟨⟨data, rfl, hcells⟩, hwithin⟩, hat⟩
  | setRadix r =>
    rintro outer outer' m _ ⟨⟨⟨data, rfl, hcells⟩, hwithin⟩, hat⟩
    unfold Machine.setRadix
    split
    · exact .done ⟨rfl, ⟨⟨data, rfl, hcells⟩, hwithin⟩, hat⟩
    · exact .failed ⟨rfl, ⟨⟨data, rfl, hcells⟩, hwithin⟩, hat⟩
  | fetch address =>
    rintro outer outer' m _ ⟨⟨⟨data, rfl, hcells⟩, hwithin⟩, hat⟩
    unfold Machine.fetch
    dsimp only
    split
    · exact .done ⟨rfl, ⟨⟨data, rfl, hcells⟩, hwithin⟩, hat⟩
    · exact .failed ⟨rfl, ⟨⟨data, rfl, hcells⟩, hwithin⟩, hat⟩
  | pushReturn | clearReturn | listingReturn | radix | write | words | store =>
    rintro outer outer' m _ ⟨⟨⟨data, rfl, hcells⟩, hwithin⟩, hat⟩
    exact .done ⟨rfl, ⟨⟨data, rfl, hcells⟩, hwithin⟩, hat⟩

theorem follows_write (text : String) :
    (coupling names below).Follows (write text) (write text) := by
  rintro outer outer' m _ ⟨⟨⟨data, rfl, hcells⟩, hwithin⟩, hat⟩
  exact .done ⟨trivial, ⟨⟨data, rfl, hcells⟩, hwithin⟩, hat⟩

theorem follows_forgetWord (name : String) :
    (coupling names below).Follows (forgetWord name) (forgetWord name) := by
  rintro outer outer' m _ ⟨⟨⟨data, rfl, hcells⟩, hwithin⟩, hat⟩
  simp only [forgetWord, Dictionary.forget?]
  cases m.dictionary.get? name with
  | none => exact .failed ⟨rfl, ⟨⟨data, rfl, hcells⟩, hwithin⟩, hat⟩
  | some w =>
    refine .done ⟨trivial, ⟨⟨data, rfl, hcells⟩, ?_⟩, hat⟩
    refine hwithin.of_words (fun _ => rfl) fun w hw => .inl ?_
    exact List.dropWhile_subset _ (List.drop_subset 1 _ hw)

theorem follows_addWord {w : Word} (hw : w.IsConstant) :
    (coupling names below).Follows (addWord w) (addWord w) := by
  rintro outer outer' m _ ⟨⟨⟨data, rfl, hcells⟩, hwithin⟩, hat⟩
  refine .done ⟨trivial, ⟨⟨data, rfl, hcells⟩, ?_⟩, hat⟩
  refine hwithin.of_words (fun _ => rfl) fun w' hw' => ?_
  rcases List.mem_cons.mp hw' with rfl | hw'
  · exact .inr hw
  · exact .inl hw'

theorem inStep_findWord (name : String) : (coupling names below).InStep
    (fun w w' => w.render = w'.render) (findWord name) (findWord name) := by
  rintro outer outer' m _ ⟨⟨⟨data, rfl, hcells⟩, hwithin⟩, hat⟩
  simp only [findWord]
  cases m.dictionary.get? name with
  | none => exact .failed ⟨rfl, ⟨⟨data, rfl, hcells⟩, hwithin⟩, hat⟩
  | some w => exact .done ⟨rfl, ⟨⟨data, rfl, hcells⟩, hwithin⟩, hat⟩

theorem follows_primitive {p : Primitive} (hp : p.isFrugal) (hflow : ∀ word, p ≠ .flow word)
    (r r' : Runner) (n n' : Nat) :
    (coupling names below).Follows (p.run r n) (p.run r' n') := by
  rw [p.run_eq hflow r' r n' n]
  have hplain (hread : p.readsTokens = false) :
      (coupling names below).Follows (p.run r n) (p.run r n) := by
    refine (inStep_plain ?_ ?_ (p.plain hread r n)).imp fun _ _ _ => trivial
    · simp only [Primitive.isFrugal] at hp
      simp_all
    · simp only [Primitive.isFrugal] at hp
      simp_all
  cases p with
  | flow word => exact absurd rfl (hflow word)
  | report => cases hp
  | storage word =>
    cases word with
    | declare =>
      apply (Coupling.frontStep_declare _).inStep front
      rintro m _ name ⟨⟨data, rfl, hcells⟩, hwithin⟩
      exact ⟨⟨data, rfl, hcells⟩, hwithin⟩
    | constant =>
      apply (Coupling.frontStep_constant inStep_pop _).inStep front
      rintro t _ name ⟨rfl, _⟩ _ value
      exact follows_addWord ⟨value, rfl⟩
    | store | fetch => exact hplain rfl
  | listing word =>
    cases word with
    | forget => exact (Coupling.frontStep_forget follows_forgetWord).inStep front
    | see => exact (Coupling.frontStep_see follows_write inStep_findWord).inStep front
    | words => exact hplain rfl
  | control word =>
    cases word with
    | abort => exact (Coupling.frontStep_abort inStep_pop).inStep front
    | _ => exact hplain rfl
  | _ => exact hplain rfl

theorem meaning_related {m : Machine} (h : m.dictionary.Within names (fun p => p.isFrugal))
    {name : String} (hname : names name) :
    Meaning.Related (List.Forall₂ (Same names)) (fun p => p.isFrugal) (m.meaning name) (m.meaning name) := by
  unfold meaning
  split
  · exact .address _
  · split
    · next w hw =>
      obtain ⟨hmem, rfl⟩ := Dictionary.get?_eq_some hw
      obtain ⟨hprimitive, hbody⟩ := h w hmem hname
      cases haction : w.action with
      | primitive p => exact .primitive rfl haction haction (hprimitive p haction)
      | body tokens =>
        refine .body rfl haction haction (List.forall₂_same.mpr fun t ht => ⟨rfl, ?_⟩)
        exact hbody tokens haction t ht
    · split
      · exact .number _
      · exact .unknown

def simulation (names : String → Prop) (below : List Cell) : Simulation where
  toCoupling := coupling names below
  primitive p := p.isFrugal
  substituted h indices := substituteFrom_related (fun h => congrArg Token.lexeme h.1)
    (fun h _ => ⟨by rw [h.1], fun name hname => by cases hname⟩) indices 0 h
  front := front
  leave h := by rw [h]
  lost_leave _ h := h
  frames := by rintro m _ ⟨⟨data, rfl, _⟩, _⟩; rfl
  returns := by rintro m _ ⟨⟨data, rfl, _⟩, _⟩; rfl
  meaning := by
    rintro m _ t u name ⟨⟨data, rfl, _⟩, hwithin⟩ ht hname
    exact meaning_related hwithin (ht.2 name (by simp only [Token.name?, hname]))
  shallow := by rintro m _ ⟨⟨data, rfl, _⟩, _⟩ h; exact h
  tooDeep := by rintro m _ ⟨⟨data, rfl, _⟩, _⟩ _ name; exact .inl rfl
  located := by
    rintro m _ t _ ⟨⟨data, rfl, hcells⟩, hwithin⟩ ⟨rfl, _⟩
    exact ⟨⟨data, rfl, hcells⟩, hwithin⟩
  looped := by
    rintro m _ frames ⟨⟨data, rfl, hcells⟩, hwithin⟩ _
    exact ⟨⟨data, rfl, hcells⟩, hwithin⟩
  called := by
    rintro m _ t _ ⟨⟨data, rfl, hcells⟩, hwithin⟩ ⟨rfl, _⟩ name
    exact ⟨⟨data, rfl, hcells⟩, hwithin⟩
  uncalled := by
    rintro m _ ⟨⟨data, rfl, hcells⟩, hwithin⟩
    exact ⟨⟨data, rfl, hcells⟩, hwithin⟩
  entered := by
    rintro m _ ⟨⟨data, rfl, hcells⟩, hwithin⟩ _
    exact ⟨⟨data, rfl, hcells⟩, hwithin⟩
  exited := by
    rintro m _ ⟨⟨data, rfl, hcells⟩, hwithin⟩ _
    exact ⟨⟨data, rfl, hcells⟩, hwithin⟩
  pushed := by
    rintro m _ ⟨⟨data, rfl, hcells⟩, hwithin⟩ c
    exact ⟨⟨_, rfl, congrArg (c :: ·) hcells⟩, hwithin⟩
  written := by
    rintro m _ ⟨⟨data, rfl, hcells⟩, hwithin⟩ text
    exact ⟨⟨data, rfl, hcells⟩, hwithin⟩
  cleared _ h := .inl h
  returnsCleared := by
    rintro m _ ⟨⟨data, rfl, hcells⟩, hwithin⟩
    exact ⟨⟨data, rfl, hcells⟩, hwithin⟩
  popped := inStep_pop
  run := follows_primitive

/-- The primitives that reach below have their three names in the catalog. -/
theorem isFrugal_of_allows {p : Primitive} (h : Catalog.Allows ["DEPTH", ".S", "CLEAR"] p) :
    p.isFrugal :=
  h.of_all Primitive.isFrugal (fun _ => rfl) (by decide +kernel)

end Frame

namespace Machine

/-- What a run does that names none of `DEPTH`, `.S` and `CLEAR`, not even through other words, it
also does with more cells underneath. -/
theorem runTokens_over {m m' : Machine} {tokens : List Token} {below : List Cell}
    (hstandard : m.dictionary.Standard)
    (hnames : ∀ name ∈ ["DEPTH", ".S", "CLEAR"], ¬ m.dictionary.Reaches tokens name)
    (hm : Over below m m') (n : Nat) :
    (∀ m₁, runTokens n tokens m = .done () m₁ →
      ∃ m₁', runTokens n tokens m' = .done () m₁' ∧ Over below m₁ m₁') ∧
    (∀ f m₁, f.isLeave = true → runTokens n tokens m = .failed f m₁ →
      ∃ m₁', runTokens n tokens m' = .failed f m₁' ∧ Over below m₁ m₁') := by
  have hwithin := (hstandard.within hnames).imp fun _ => Frame.isFrugal_of_allows
  have hsame : List.Forall₂ (Frame.Same (m.dictionary.Reaches tokens)) tokens tokens :=
    List.forall₂_same.mpr fun t ht => ⟨rfl, m.dictionary.tokensWithin_reaches tokens t ht⟩
  have hrun := Simulation.runs_runTokens (S := Frame.simulation (m.dictionary.Reaches tokens) below)
    (Nat.le_refl n) hsame m m' ⟨hm, hwithin⟩
  constructor
  · intro m₁ hdone
    rw [hdone] at hrun
    generalize runTokens n tokens m' = o at hrun ⊢
    cases hrun with
    | done h => exact ⟨_, rfl, h.overlies⟩
  · intro f m₁ hleave hfailed
    rw [hfailed] at hrun
    generalize runTokens n tokens m' = o at hrun ⊢
    cases hrun with
    | @failed _ _ g m₁' h =>
      obtain ⟨rfl, h⟩ := h
      exact ⟨m₁', rfl, h.overlies⟩
    | lost h =>
      have hnot : f.isLeave = false := h
      rw [hleave] at hnot
      cases hnot

/-- Adding up the indices of a loop, with two cells underneath. -/
theorem runTokens_over_loop :
    ∃ m₁ m₁',
      runTokens 20 [⟨.number 3, {}⟩, ⟨.number 0, {}⟩, ⟨.word "DO", {}⟩, ⟨.word "I", {}⟩,
        ⟨.word "+", {}⟩, ⟨.word "LOOP", {}⟩] { bare {} with data := ⟨[5], 0⟩ } = .done () m₁ ∧
      runTokens 20 [⟨.number 3, {}⟩, ⟨.number 0, {}⟩, ⟨.word "DO", {}⟩, ⟨.word "I", {}⟩,
        ⟨.word "+", {}⟩, ⟨.word "LOOP", {}⟩] { bare {} with data := ⟨[5, 7, 8], 0⟩ } = .done () m₁' ∧
      Over [7, 8] m₁ m₁' := by
  obtain ⟨_, m₁, hm₁⟩ := Outcome.exists_done (o := runTokens 20 [⟨.number 3, {}⟩, ⟨.number 0, {}⟩,
    ⟨.word "DO", {}⟩, ⟨.word "I", {}⟩, ⟨.word "+", {}⟩, ⟨.word "LOOP", {}⟩]
    { bare {} with data := ⟨[5], 0⟩ }) (by decide +kernel)
  have hnames : ∀ name ∈ ["DEPTH", ".S", "CLEAR"], ¬ (bare {}).dictionary.Reaches
      [⟨.number 3, {}⟩, ⟨.number 0, {}⟩, ⟨.word "DO", {}⟩, ⟨.word "I", {}⟩, ⟨.word "+", {}⟩,
        ⟨.word "LOOP", {}⟩] name := by
    intro name hname hreach
    have hmem := bare_reaches hreach
    clear hreach
    revert name
    decide
  have hover : Over [7, 8] { bare {} with data := ⟨[5], 0⟩ } { bare {} with data := ⟨[5, 7, 8], 0⟩ } :=
    ⟨⟨[5, 7, 8], 0⟩, rfl, rfl⟩
  have hrun := runTokens_over (m := { bare {} with data := ⟨[5], 0⟩ }) (bare_standard {}) hnames hover
  obtain ⟨m₁', hm₁', hover⟩ := (hrun 20).1 m₁ hm₁
  exact ⟨m₁, m₁', hm₁, hm₁', hover⟩

end Machine

end TokenForth

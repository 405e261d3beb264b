import TokenForth.Proofs.Reading

/-!
# Where a block ends

A scan for a block passes over inner blocks. Said without the scan: the block ends at the first
closing word that has as many opening as closing words before it, and the separators that count have
as many of the one as of the other before them. What the scan gives back, put together again, is
what it was given.
-/
namespace TokenForth

def interleave : List (List Token) → List Token → List Token
  | segment :: segments, separator :: separators =>
    segment ++ separator :: interleave segments separators
  | segments, _ => segments.flatten

namespace Block

theorem length_segments (b : Block) : b.segments.length = b.separators.length + 1 := by
  simp [segments, separators]

theorem tokens_eq_interleave (b : Block) :
    b.tokens = interleave b.segments b.separators ++ [b.closer] := by
  obtain ⟨first, parts, closer⟩ := b
  simp only [tokens, segments, separators]
  congr 1
  induction parts generalizing first with
  | nil => simp [interleave]
  | cons part parts ih =>
    rw [List.flatMap_cons, List.cons_append, ih]
    rfl

end Block

namespace Vocabulary

def openers (v : Vocabulary) (tokens : List Token) : Nat := tokens.countP (v.role · = .opens)

def closings (v : Vocabulary) (tokens : List Token) : Nat := tokens.countP (v.role · = .closes)

/-- The tokens lead out of `depth` inner blocks. -/
def Outside (v : Vocabulary) (depth : Nat) (before : List Token) : Prop :=
  depth + v.openers before = v.closings before

instance (v : Vocabulary) (depth : Nat) (before : List Token) :
    Decidable (v.Outside depth before) :=
  inferInstanceAs (Decidable (_ = _))

/-- A closing word at place `i` ends the block that the tokens start in, inside `depth` inner
ones. -/
def EndsAt (v : Vocabulary) (depth : Nat) (tokens : List Token) (i : Nat) : Prop :=
  (∃ t, tokens[i]? = some t ∧ v.role t = .closes) ∧ v.Outside depth (tokens.take i)

def separatorsBefore (v : Vocabulary) (depth : Nat) (tokens : List Token) (i : Nat) : List Token :=
  (List.range i).filterMap fun j =>
    tokens[j]?.filter fun t => v.role t = .separates ∧ v.Outside depth (tokens.take j)

variable {v : Vocabulary} {depth depth' i : Nat} {t : Token} {tokens before : List Token}

theorem outside_nil : v.Outside depth [] ↔ depth = 0 := by
  simp [Outside, openers, closings]

theorem outside_opener (ht : v.role t = .opens) :
    v.Outside depth (t :: before) ↔ v.Outside (depth + 1) before := by
  simp only [Outside, openers, closings, List.countP_cons, ht, decide_true, if_true, reduceCtorEq,
    decide_false, Bool.false_eq_true, if_false]
  omega

theorem outside_closer (ht : v.role t = .closes) :
    v.Outside (depth + 1) (t :: before) ↔ v.Outside depth before := by
  simp only [Outside, openers, closings, List.countP_cons, ht, decide_true, if_true, reduceCtorEq,
    decide_false, Bool.false_eq_true, if_false]
  omega

theorem outside_other (hopen : v.role t ≠ .opens) (hclose : v.role t ≠ .closes) :
    v.Outside depth (t :: before) ↔ v.Outside depth before := by
  simp [Outside, openers, closings, hopen, hclose]

theorem endsAt_zero : v.EndsAt depth (t :: tokens) 0 ↔ v.role t = .closes ∧ depth = 0 := by
  simp [EndsAt, outside_nil]

/-- A token that takes the scan from one depth to another moves all places by one. -/
theorem endsAt_succ (h : ∀ before, v.Outside depth (t :: before) ↔ v.Outside depth' before) :
    v.EndsAt depth (t :: tokens) (i + 1) ↔ v.EndsAt depth' tokens i := by
  simp only [EndsAt, List.getElem?_cons_succ, List.take_succ_cons, h]

/-- A token that belongs to the block does not end it. -/
theorem endsAt_cons (hdepth : ∀ before, v.Outside depth (t :: before) ↔ v.Outside depth' before)
    (hinner : v.role t = .closes → depth ≠ 0) :
    v.EndsAt depth (t :: tokens) i ↔ ∃ j, i = j + 1 ∧ v.EndsAt depth' tokens j := by
  cases i with
  | zero => simpa [endsAt_zero] using hinner
  | succ i => simp [endsAt_succ hdepth]

theorem separatorsBefore_succ
    (h : ∀ before, v.Outside depth (t :: before) ↔ v.Outside depth' before) :
    v.separatorsBefore depth (t :: tokens) (i + 1) =
      (if v.role t = .separates ∧ depth = 0 then [t] else []) ++
        v.separatorsBefore depth' tokens i := by
  simp only [separatorsBefore, List.range_succ_eq_map, List.filterMap_cons, List.filterMap_map,
    Function.comp_def, List.getElem?_cons_succ, List.take_succ_cons, h, List.getElem?_cons_zero,
    List.take_zero, outside_nil]
  by_cases hsep : v.role t = .separates ∧ depth = 0
  · simp [Option.filter, hsep]
  · simp [Option.filter, hsep]

/-- What a scan finds: the block ends at the first place where it can. -/
structure Found (v : Vocabulary) (depth : Nat) (tokens : List Token) (block : Block)
    (rest : List Token) (i : Nat) : Prop where
  ends : v.EndsAt depth tokens i
  first : ∀ j < i, ¬ v.EndsAt depth tokens j
  closer : tokens[i]? = some block.closer
  rest : rest = tokens.drop (i + 1)
  separators : block.separators = v.separatorsBefore depth tokens i

/-- A token that belongs to the block, ahead of a block that was found. -/
theorem Found.cons {block block' : Block} {rest : List Token}
    (h : v.Found depth' tokens block rest i)
    (hdepth : ∀ before, v.Outside depth (t :: before) ↔ v.Outside depth' before)
    (hinner : v.role t = .closes → depth ≠ 0) (hcloser : block'.closer = block.closer)
    (hseparators : block'.separators =
      (if v.role t = .separates ∧ depth = 0 then [t] else []) ++ block.separators) :
    v.Found depth (t :: tokens) block' rest (i + 1) where
  ends := (endsAt_succ hdepth).mpr h.ends
  first j hj hends := by
    obtain ⟨j, rfl, hends'⟩ := (endsAt_cons hdepth hinner).mp hends
    exact h.first j (by omega) hends'
  closer := by rw [List.getElem?_cons_succ, hcloser, h.closer]
  rest := by rw [List.drop_succ_cons, h.rest]
  separators := by rw [hseparators, separatorsBefore_succ hdepth, h.separators]

/-- The scan finds the block, or there is no place where it could end. -/
inductive Scanned (v : Vocabulary) (depth : Nat) (tokens : List Token) :
    Option (Block × List Token) → Prop
  | found {block : Block} {rest : List Token} {i : Nat} (h : v.Found depth tokens block rest i) :
    Scanned v depth tokens (some (block, rest))
  | missing (h : ∀ i, ¬ v.EndsAt depth tokens i) : Scanned v depth tokens none

/-- A scan goes on behind a token that belongs to the block. -/
theorem Scanned.cons {found : Option (Block × List Token)} (h : v.Scanned depth' tokens found)
    (change : Block → Block)
    (hdepth : ∀ before, v.Outside depth (t :: before) ↔ v.Outside depth' before)
    (hinner : v.role t = .closes → depth ≠ 0) (hcloser : ∀ b, (change b).closer = b.closer)
    (hseparators : ∀ b, (change b).separators =
      (if v.role t = .separates ∧ depth = 0 then [t] else []) ++ b.separators) :
    v.Scanned depth (t :: tokens) (found.map fun p => (change p.1, p.2)) := by
  cases h with
  | found h => exact .found (h.cons hdepth hinner (hcloser _) (hseparators _))
  | missing h =>
    apply Scanned.missing
    intro i hends
    obtain ⟨j, -, hends'⟩ := (endsAt_cons hdepth hinner).mp hends
    exact h j hends'

/-- A token that becomes part of the first segment. -/
theorem Scanned.prepend {found : Option (Block × List Token)} (h : v.Scanned depth' tokens found)
    (hdepth : ∀ before, v.Outside depth (t :: before) ↔ v.Outside depth' before)
    (hinner : v.role t = .closes ∨ v.role t = .separates → depth ≠ 0) :
    v.Scanned depth (t :: tokens) (found.map fun p => (p.1.prepend t, p.2)) := by
  apply h.cons (Block.prepend t) hdepth
  · exact fun hrole => hinner (.inl hrole)
  · exact fun b => rfl
  · intro b
    rw [if_neg fun hsep => hinner (.inr hsep.1) hsep.2]
    rfl

theorem scanned_scanFrom (v : Vocabulary) (depth : Nat) (tokens : List Token) :
    v.Scanned depth tokens (v.scanFrom depth tokens) := by
  fun_induction scanFrom v depth tokens with
  | case1 depth => exact .missing fun i h => by simp [EndsAt] at h
  | case2 t tokens depth hrole ih =>
    exact ih.prepend (fun _ => outside_opener hrole) (by simp [hrole])
  | case3 t tokens hrole =>
    exact .found (i := 0) ⟨endsAt_zero.mpr ⟨hrole, rfl⟩, by simp, rfl, rfl, rfl⟩
  | case4 t tokens depth hrole ih =>
    exact ih.prepend (fun _ => outside_closer hrole) (by simp)
  | case5 t tokens hrole ih =>
    apply ih.cons (Block.split t)
    · exact fun _ => outside_other (by simp [hrole]) (by simp [hrole])
    · simp [hrole]
    · exact fun b => rfl
    · simp [hrole, Block.split, Block.separators]
  | case6 t tokens depth hrole ih =>
    exact ih.prepend (fun _ => outside_other (by simp [hrole]) (by simp [hrole])) (by simp)
  | case7 t tokens depth hrole ih =>
    exact ih.prepend (fun _ => outside_other (by simp [hrole]) (by simp [hrole])) (by simp [hrole])

theorem exists_found {block : Block} {rest : List Token}
    (h : v.scanFrom depth tokens = some (block, rest)) :
    ∃ i, v.Found depth tokens block rest i := by
  have hscanned := v.scanned_scanFrom depth tokens
  rw [h] at hscanned
  cases hscanned with
  | found hfound => exact ⟨_, hfound⟩

theorem not_endsAt_of_scanFrom (h : v.scanFrom depth tokens = none) (i : Nat) :
    ¬ v.EndsAt depth tokens i := by
  have hscanned := v.scanned_scanFrom depth tokens
  rw [h] at hscanned
  cases hscanned with
  | missing hmissing => exact hmissing i

end Vocabulary

/-- A scan succeeds if and only if some closing word has as many opening as closing words before it,
and stops at the first such word. Its separators are those that are in no inner block, there is one
more segment, and all that was scanned is in the block, in order, or left. Otherwise the scan fails
where the machine stands, and uses the stream up. -/
theorem Vocabulary.scan_at_first_closer (v : Vocabulary) (tokens : List Token) :
    ((v.scan tokens).isSome ↔ ∃ i, v.EndsAt 0 tokens i) ∧
    (∀ block rest, v.scan tokens = some (block, rest) →
      (∃ i, v.EndsAt 0 tokens i ∧ (∀ j < i, ¬ v.EndsAt 0 tokens j) ∧
        tokens[i]? = some block.closer ∧ rest = tokens.drop (i + 1) ∧
        block.separators = v.separatorsBefore 0 tokens i) ∧
      block.segments.length = block.separators.length + 1 ∧
      interleave block.segments block.separators ++ block.closer :: rest = tokens) ∧
    ∀ (m : Machine) (outer : List TokenStream), m.streams = ⟨tokens⟩ :: outer →
      (∀ block rest, v.scan tokens = some (block, rest) →
        Flow.takeBlock v m = .done block { m with streams := ⟨rest⟩ :: outer }) ∧
      ((∀ i, ¬ v.EndsAt 0 tokens i) → ∃ f : Fault,
        Flow.takeBlock v m = .failed f { m with streams := ⟨[]⟩ :: outer } ∧
        f.kind = .unterminatedBlock ∧ f.location = m.location) := by
  have hscanned : v.Scanned 0 tokens (v.scan tokens) := v.scanned_scanFrom 0 tokens
  refine ⟨?_, fun block rest hscan => ⟨?_, block.length_segments, ?_⟩, fun m outer hs => ⟨?_, ?_⟩⟩
  · generalize v.scan tokens = found at hscanned
    cases hscanned with
    | found h => exact ⟨fun _ => ⟨_, h.ends⟩, fun _ => rfl⟩
    | missing h =>
      constructor
      · exact fun hsome => by cases hsome
      · rintro ⟨i, hi⟩
        exact absurd hi (h i)
  · rw [hscan] at hscanned
    cases hscanned with
    | @found _ _ i h => exact ⟨i, h.ends, h.first, h.closer, h.rest, h.separators⟩
  · rw [(v.scanFrom_eq_some hscan).1, block.tokens_eq_interleave]
    simp
  · intro block rest hscan
    rw [Machine.takeBlock_some hs hscan, Machine.withRest, hs, List.tail_cons]
  · intro hnone
    cases hscan : v.scan tokens with
    | none =>
      refine ⟨m.fault v.unclosed, ?_, rfl, rfl⟩
      rw [Machine.takeBlock_none hs hscan, Machine.withRest, hs, List.tail_cons]
    | some found =>
      rw [hscan] at hscanned
      cases hscanned with
      | @found _ _ i h => exact absurd h.ends (hnone i)

/-- A block with an inner block that has a separator of its own, and the inner block by itself,
which does not close the outer one. -/
theorem Vocabulary.scan_at_first_closer_nested :
    let tokens := ["A", "IF", "B", "ELSE", "C", "THEN", "ELSE", "D", "THEN", "E"].map fun name =>
      (⟨.word name, {}⟩ : Token)
    let m := { Machine.blank {} with streams := [⟨tokens.take 6⟩], location := some ⟨"file", 1, 3⟩ }
    (∃ block i, conditional.scan tokens = some (block, tokens.drop 9) ∧
      conditional.EndsAt 0 tokens i ∧ tokens.drop 9 = tokens.drop (i + 1) ∧
      block.separators = conditional.separatorsBefore 0 tokens i ∧
      interleave block.segments block.separators ++ block.closer :: tokens.drop 9 = tokens) ∧
    ∃ f : Fault, Flow.takeBlock conditional m = .failed f { m with streams := [⟨[]⟩] } ∧
      f.kind = .unterminatedBlock ∧ f.location = m.location := by
  intro tokens m
  have hscan : conditional.scan tokens =
      some (⟨tokens.take 6, [(⟨.word "ELSE", {}⟩, [⟨.word "D", {}⟩])], ⟨.word "THEN", {}⟩⟩,
        tokens.drop 9) := by decide
  obtain ⟨⟨i, hends, -, -, hrest, hseparators⟩, -, hwhole⟩ :=
    (scan_at_first_closer conditional tokens).2.1 _ _ hscan
  have hopen : ∀ i, ¬ conditional.EndsAt 0 (tokens.take 6) i := by
    intro i hi
    have hsome := (scan_at_first_closer conditional (tokens.take 6)).1.mpr ⟨i, hi⟩
    revert hsome
    decide
  have hfails := ((scan_at_first_closer conditional (tokens.take 6)).2.2 m [] rfl).2 hopen
  exact ⟨⟨_, i, hscan, hends, hrest, hseparators, hwhole⟩, hfails⟩

end TokenForth

import TokenForth.Proofs.Bookkeeping
import TokenForth.Proofs.Numerals

/-!
# Counted loops over the integers

An ideal loop counts in unbounded integers. It makes a pass for its index, which runs the body with
the index put in, adds the step of the pass, and ends when the new index has reached the limit. The
loops of the machine count in cells, and end also when the index leaves the range of a cell; yet
they make the same passes, since such an index has passed every limit. With a step of one the passes
can be told beforehand.
-/
namespace TokenForth

open Exec Machine

namespace IdealLoop

structure Pass where
  index : Int
  step : Int
  deriving DecidableEq, Repr

/-- Whether a step that takes the index to `x` ends the loop. -/
def Stops (limit step x : Int) : Prop := 0 ≤ step ∧ limit ≤ x ∨ step < 0 ∧ x ≤ limit

instance (limit step x : Int) : Decidable (Stops limit step x) :=
  inferInstanceAs (Decidable (_ ∨ _))

/-- Runs the body with an index, inside of loops with the indices of a frame, and gives out the
step: the number that it left on the stack, or one. An index that fits no cell could not be put in,
so what would come of it is left open. -/
def runPass (runner : Runner) (overflow : Exec Int) (body : List Token) (frame : List Cell)
    (stepped : Bool) (x : Int) : Exec Int :=
  match Cell.ofInt? x with
  | none => overflow
  | some index => do
    updateLoop index
    runner (substitute (index :: frame) body)
    if stepped then
      let step ← pop
      return step.toInt
    else return 1

def passes (pass : Int → Exec Int) (limit : Int) : Nat → Int → Exec (List Pass)
  | 0, _ => Exec.unfinished
  | steps + 1, x => do
    let step ← pass x
    if Stops limit step (x + step) then return [⟨x, step⟩]
    else
      let more ← passes pass limit steps (x + step)
      return ⟨x, step⟩ :: more

def run (runner : Runner) (overflow : Exec Int) (body : List Token) (start limit : Cell)
    (stepped : Bool) (steps : Nat) : Exec Unit := do
  let m ← Exec.state
  enterLoop start
  let pass := runPass runner overflow body m.indices stepped
  Exec.catchLeave <| Exec.after (do let _ ← passes pass limit.toInt steps start.toInt) loopExited

theorem stops_of_add?_none {index step : Cell} (h : Cell.add? index step = none) (limit : Cell) :
    Stops limit.toInt step.toInt (index.toInt + step.toInt) := by
  have hrange : ¬ (-9223372036854775808 ≤ index.toInt + step.toInt ∧
      index.toInt + step.toInt ≤ 9223372036854775807) := by
    intro hrange
    simp [Cell.add?, Cell.ofInt?, hrange] at h
  have hindex := And.intro index.le_toInt index.toInt_lt
  have hlimit := And.intro limit.le_toInt limit.toInt_lt
  unfold Stops
  omega

theorem reached_iff {index step next : Cell} (h : Cell.add? index step = some next) (limit : Cell) :
    Flow.reached next limit step = true ↔
      Stops limit.toInt step.toInt (index.toInt + step.toInt) := by
  have hzero : (0 : Cell).toInt = 0 := by decide
  rw [← Cell.toInt_of_add? h]
  unfold Flow.reached Stops
  by_cases hstep : 0 ≤ step
  · have hpos := Int64.le_iff_toInt_le.mp hstep
    simp only [hstep, if_true, decide_eq_true_eq, Int64.le_iff_toInt_le]
    omega
  · have hneg := Int64.le_iff_toInt_le.not.mp hstep
    simp only [hstep, if_false, decide_eq_true_eq, Int64.le_iff_toInt_le]
    omega

/-- The machine takes the same step. -/
theorem takeStep_toInt (stepped : Bool) :
    (if stepped then (do let step ← pop; return step.toInt) else return 1 : Exec Int) =
      (do let step ← Flow.takeStep stepped; return step.toInt) := by
  cases stepped with
  | true => rfl
  | false =>
    have hone : (1 : Cell).toInt = 1 := by decide
    simp [Flow.takeStep, hone]

/-- What comes after a pass of the machine and of the ideal loop: the end of both, or the next pass
at the same index. -/
theorem nextPass_cases (again : Cell → Exec Unit) (limit index step : Cell) :
    Stops limit.toInt step.toInt (index.toInt + step.toInt) ∧
      Flow.nextPass again limit index step = pure () ∨
    ¬ Stops limit.toInt step.toInt (index.toInt + step.toInt) ∧
      ∃ next : Cell, next.toInt = index.toInt + step.toInt ∧
        Flow.nextPass again limit index step = again next := by
  unfold Flow.nextPass
  cases hadd : Cell.add? index step with
  | none => exact .inl ⟨stops_of_add?_none hadd limit, rfl⟩
  | some next =>
    have hreached := reached_iff hadd limit
    by_cases h : Flow.reached next limit step = true
    · exact .inl ⟨hreached.mp h, if_pos h⟩
    · exact .inr ⟨hreached.not.mp h, next, Cell.toInt_of_add? hadd, if_neg h⟩

def Open (frame : List Cell) (outer : List (List Cell)) (m : Machine) : Prop :=
  ∃ c, m.frames = (c :: frame) :: outer

theorem frames_loopUpdated {frame : List Cell} {outer : List (List Cell)} {m : Machine}
    (hm : Open frame outer m) (index : Cell) :
    (loopUpdated index m).frames = (index :: frame) :: outer := by
  obtain ⟨c, hm⟩ := hm
  simp [loopUpdated_eq, hm]

/-- The passes of the machine are those of the ideal loop. By induction on the steps: what a pass
does to inner loops and in calls is undone when it ends, so the next one finds the same frame. -/
theorem runPasses_eq_passes {n : Nat} (overflow : Exec Int) (body : List Token) (limit : Cell)
    (stepped : Bool) (steps : Nat) (index : Cell) {frame : List Cell} {outer : List (List Cell)}
    {m : Machine} (hm : Open frame outer m) :
    Flow.runPasses (runTokens n) body limit stepped steps index m =
      (do let _ ← passes (runPass (runTokens n) overflow body frame stepped) limit.toInt steps
            index.toInt : Exec Unit) m := by
  induction steps generalizing index m with
  | zero => rfl
  | succ steps ih =>
    have hframes := frames_loopUpdated hm index
    have hindices : (loopUpdated index m).indices = index :: frame := by simp [indices, hframes]
    have hfits : Cell.ofInt? index.toInt = some index := Cell.ofInt?_eq_some_iff.mpr rfl
    change (runTokens n (substitute (loopUpdated index m).indices body) >>= fun _ =>
      Flow.takeStep stepped >>= Flow.nextPass
        (Flow.runPasses (runTokens n) body limit stepped steps) limit index)
        (loopUpdated index m) = _
    rw [hindices]
    simp only [passes, runPass, hfits, takeStep_toInt, bind_assoc, pure_bind]
    change _ = (runTokens n (substitute (index :: frame) body) >>= _) (loopUpdated index m)
    apply bind_congr_at
    intro a m₁ hrun
    have hkept := runTokens_restored n (substitute (index :: frame) body) (loopUpdated index m)
    rw [hrun] at hkept
    have hm₁ : m₁.frames = (index :: frame) :: outer := by
      rw [hkept.frames (by simp [hframes]), hframes]
    apply bind_congr_at
    intro step m₂ htake
    have htakes : Always Later (Flow.takeStep stepped) := laterBlocks.takeStep stepped
    have htaken := htakes m₁
    rw [htake] at htaken
    have hm₂ : Open frame outer m₂ := ⟨index, by rw [htaken.frames (by simp [hm₁]), hm₁]⟩
    rcases nextPass_cases (Flow.runPasses (runTokens n) body limit stepped steps) limit index step with
      ⟨hstops, hnext⟩ | ⟨hgoes, next, hvalue, hnext⟩
    · simp only [hnext, if_pos hstops, pure_bind]
    · simp only [hnext, if_neg hgoes, ih next hm₂, hvalue, bind_assoc, pure_bind]

/-- The indices start with the given one, each comes from the one before by its step, and the last
pass is the first whose step ends the loop. -/
structure Counts (limit start : Int) (log : List Pass) : Prop where
  first : log[0]?.map Pass.index = some start
  next : ∀ k p q, log[k]? = some p → log[k + 1]? = some q → q.index = p.index + p.step
  last : ∀ k p, log[k]? = some p → (Stops limit p.step (p.index + p.step) ↔ k + 1 = log.length)

theorem Counts.single {limit x step : Int} (h : Stops limit step (x + step)) :
    Counts limit x [⟨x, step⟩] := by
  refine ⟨rfl, ?_, ?_⟩
  · intro k p q _ hq
    simp at hq
  · intro k p hp
    obtain ⟨rfl, rfl⟩ : k = 0 ∧ p = ⟨x, step⟩ := by
      cases k with
      | zero => simpa [eq_comm] using hp
      | succ k => simp at hp
    simpa using h

theorem Counts.cons {limit x step : Int} {log : List Pass} (h : Counts limit (x + step) log)
    (hgoes : ¬ Stops limit step (x + step)) : Counts limit x (⟨x, step⟩ :: log) := by
  refine ⟨rfl, ?_, ?_⟩
  · intro k p q hp hq
    cases k with
    | zero =>
      cases hp
      have hfirst := h.first
      rw [show log[0]? = some q from hq] at hfirst
      exact Option.some.inj hfirst
    | succ k => exact h.next k p q hp hq
  · intro k p hp
    cases k with
    | zero =>
      cases hp
      have hne : log ≠ [] := by
        rintro rfl
        cases h.first
      have hlength := List.length_pos_iff.mpr hne
      simp only [List.length_cons]
      exact ⟨fun hstops => absurd hstops hgoes, fun hlast => by omega⟩
    | succ k =>
      rw [h.last k p hp, List.length_cons]
      omega

/-- An ideal loop that ends has counted. -/
theorem counts_of_passes {pass : Int → Exec Int} {limit x : Int} {steps : Nat} {log : List Pass}
    {m m' : Machine} (h : passes pass limit steps x m = .done log m') : Counts limit x log := by
  induction steps generalizing x log m with
  | zero => cases h
  | succ steps ih =>
    obtain ⟨step, m₁, -, hnext⟩ := bind_eq_done h
    by_cases hstops : Stops limit step (x + step)
    · rw [if_pos hstops] at hnext
      cases hnext
      exact .single hstops
    · rw [if_neg hstops] at hnext
      obtain ⟨more, m₂, hmore, hlog⟩ := bind_eq_done hnext
      cases hlog
      exact (ih hmore).cons hstops

/-- Whatever the steps are, the indices stay between the start and the limit. -/
theorem Counts.bounds {limit start : Int} {log : List Pass} (h : Counts limit start log) {k : Nat}
    {p : Pass} (hp : log[k]? = some p) :
    min start limit ≤ p.index ∧ p.index ≤ max start limit := by
  induction k generalizing p with
  | zero =>
    have hfirst := h.first
    rw [hp] at hfirst
    have hstart : p.index = start := Option.some.inj hfirst
    omega
  | succ k ih =>
    have hlt : k + 1 < log.length := (List.getElem?_eq_some_iff.mp hp).1
    obtain ⟨q, hq⟩ : ∃ q, log[k]? = some q := ⟨_, List.getElem?_eq_getElem (by omega)⟩
    have hbounds := ih hq
    have hindex := h.next k q p hq hp
    have hgoes : ¬ Stops limit q.step (q.index + q.step) := by
      rw [h.last k q hq]
      omega
    unfold Stops at hgoes
    omega

/-- With a step of one, the index of a pass is told by its number. -/
theorem Counts.index_of_ones {limit start : Int} {log : List Pass} (h : Counts limit start log)
    (hones : ∀ p ∈ log, p.step = 1) {k : Nat} {p : Pass} (hp : log[k]? = some p) :
    p.index = start + k := by
  induction k generalizing p with
  | zero =>
    have hfirst := h.first
    rw [hp] at hfirst
    have hstart : p.index = start := Option.some.inj hfirst
    omega
  | succ k ih =>
    have hlt : k + 1 < log.length := (List.getElem?_eq_some_iff.mp hp).1
    obtain ⟨q, hq⟩ : ∃ q, log[k]? = some q := ⟨_, List.getElem?_eq_getElem (by omega)⟩
    have hindex := h.next k q p hq hp
    have hstep := hones q (List.mem_of_getElem? hq)
    have hprevious := ih hq
    omega

/-- With a step of one there are as many passes as there are integers up to the limit, but one at
least. -/
theorem Counts.length_of_ones {limit start : Int} {log : List Pass} (h : Counts limit start log)
    (hones : ∀ p ∈ log, p.step = 1) : (log.length : Int) = max 1 (limit - start) := by
  have hne : log ≠ [] := by
    rintro rfl
    cases h.first
  have hpos := List.length_pos_iff.mpr hne
  -- A pass ends the loop exactly if it is the last.
  have hends (k : Nat) (hk : k < log.length) : limit ≤ start + k + 1 ↔ k + 1 = log.length := by
    have hp : log[k]? = some log[k] := List.getElem?_eq_getElem hk
    rw [← h.last k log[k] hp, h.index_of_ones hones hp, hones log[k] (List.getElem_mem hk)]
    unfold Stops
    omega
  have hlast := (hends (log.length - 1) (by omega)).mpr (by omega)
  by_cases hone : log.length = 1
  · omega
  · have hbefore := (hends (log.length - 2) (by omega)).not.mpr (by omega)
    omega

def inTurn (pass : Int → Exec Int) (indices : List Int) : Exec (List Pass) :=
  indices.mapM fun x => do
    let step ← pass x
    return ⟨x, step⟩

/-- An ideal loop with a step of one makes the passes for the indices up to the limit, but for the
first index at least, and then ends. -/
theorem passes_eq_inTurn {pass : Int → Exec Int} {limit start : Int} {count steps : Nat}
    (hcount : (count : Int) = max 1 (limit - start)) (hsteps : count ≤ steps)
    (hones : ∀ k < count, ∀ m step m', pass (start + (k : Int)) m = .done step m' → step = 1) :
    passes pass limit steps start =
      inTurn pass ((List.range count).map fun k : Nat => start + (k : Int)) := by
  induction count generalizing start steps with
  | zero => omega
  | succ count ih =>
    obtain ⟨steps, rfl⟩ : ∃ i, steps = i + 1 := ⟨steps - 1, by omega⟩
    have hindices : (List.range (count + 1)).map (fun k : Nat => start + (k : Int)) =
        start :: (List.range count).map fun k : Nat => start + 1 + (k : Int) := by
      rw [List.range_succ_eq_map, List.map_cons, List.map_map]
      congr 1
      · simp
      · apply List.map_congr_left
        intro k _
        simp only [Function.comp_apply]
        omega
    funext m
    simp only [inTurn, hindices, List.mapM_cons, passes, bind_assoc, pure_bind]
    apply bind_congr_at
    intro step m₁ hpass
    obtain rfl : step = 1 := hones 0 (by omega) m step m₁ (by simpa using hpass)
    by_cases hstops : Stops limit 1 (start + 1)
    · obtain rfl : count = 0 := by
        unfold Stops at hstops
        omega
      simp [if_pos hstops]
    · rw [if_neg hstops, ih]
      · rfl
      · unfold Stops at hstops
        omega
      · omega
      · intro k hk m step m' hdone
        apply hones (k + 1) (by omega) m step m'
        rw [← hdone]
        congr 1
        omega

theorem open_loopEntered (start : Cell) (m : Machine) :
    Open m.indices m.frames.tail (loopEntered start m) := ⟨start, by rw [loopEntered_eq]⟩

/-- The word for counted loops runs an ideal loop. -/
theorem runCounted_eq_run (n : Nat) (overflow : Exec Int) (steps : Nat) :
    Flow.runCounted (runTokens n) steps = (do
      let start ← pop
      let limit ← pop
      let block ← Flow.takeBlock .counted
      run (runTokens n) overflow block.first start limit (block.closerName = "+LOOP") steps) := by
  unfold Flow.runCounted
  congr 1
  funext start
  congr 1
  funext limit
  congr 1
  funext block m
  have hpasses := runPasses_eq_passes overflow block.first limit (block.closerName = "+LOOP") steps
    start (open_loopEntered start m) (n := n)
  change (Exec.after _ loopExited).catchLeave (loopEntered start m) =
    (Exec.after _ loopExited).catchLeave (loopEntered start m)
  simp only [Exec.catchLeave, Exec.after, hpasses]

/-- A loop that ends without a fault leaves the frame in which it was entered. -/
theorem run_of_passes {n : Nat} {overflow : Exec Int} {body : List Token} {start limit : Cell}
    {stepped : Bool} {steps : Nat} {log : List Pass} {m m' : Machine}
    (h : passes (runPass (runTokens n) overflow body m.indices stepped) limit.toInt steps
      start.toInt (loopEntered start m) = .done log m') :
    run (runTokens n) overflow body start limit stepped steps m = .done () (loopExited m') ∧
      (loopExited m').frames = m.indices :: m.frames.tail := by
  constructor
  · change (Exec.after _ loopExited).catchLeave (loopEntered start m) = _
    simp only [Exec.catchLeave, Exec.after, Bind.bind, h]
    rfl
  · -- The passes of the machine end at the same machine, and they keep the frame.
    have hpasses := runPasses_eq_passes overflow body limit stepped steps start
      (open_loopEntered start m) (n := n)
    rw [bind_of_done h] at hpasses
    have hkept := runPasses_keeps (runTokens_restored n) body limit stepped steps start
      (loopEntered start m)
    rw [hpasses] at hkept
    obtain ⟨index, hframes⟩ := hkept.frames start m.indices m.frames.tail (by rw [loopEntered_eq])
    rw [loopExited_eq, hframes]
    rfl

/-- A pass that ends with `LOOP` makes a step of one. -/
theorem step_of_runPass {runner : Runner} {overflow : Exec Int} {body : List Token}
    {frame : List Cell} {x step : Int} {m m' : Machine} (hx : ∃ c : Cell, c.toInt = x)
    (h : runPass runner overflow body frame false x m = .done step m') : step = 1 := by
  obtain ⟨c, hc⟩ := hx
  simp only [runPass, Cell.ofInt?_eq_some_iff.mpr hc] at h
  obtain ⟨_, _, -, h⟩ := bind_eq_done h
  obtain ⟨_, _, -, h⟩ := bind_eq_done h
  cases h
  decide

theorem exists_cell {x : Int} {a b : Cell} (hlow : min a.toInt b.toInt ≤ x)
    (hhigh : x ≤ max a.toInt b.toInt) : ∃ c : Cell, c.toInt = x := by
  have ha := And.intro a.le_toInt a.toInt_lt
  have hb := And.intro b.le_toInt b.toInt_lt
  exact ⟨Int64.ofInt x, Int64.toInt_ofInt_of_le (by omega) (by omega)⟩

theorem steps_of_passes {runner : Runner} {overflow : Exec Int} {body : List Token}
    {frame : List Cell} {limit x : Int} {steps : Nat} {log : List Pass} {m m' : Machine}
    (h : passes (runPass runner overflow body frame false) limit steps x m = .done log m')
    (hcells : ∀ p ∈ log, ∃ c : Cell, c.toInt = p.index) : ∀ p ∈ log, p.step = 1 := by
  induction steps generalizing x log m with
  | zero => cases h
  | succ steps ih =>
    obtain ⟨step, m₁, hpass, hnext⟩ := bind_eq_done h
    by_cases hstops : Stops limit step (x + step)
    · rw [if_pos hstops] at hnext
      cases hnext
      rw [List.forall_mem_singleton] at hcells ⊢
      exact step_of_runPass hcells hpass
    · rw [if_neg hstops] at hnext
      obtain ⟨more, m₂, hmore, hlog⟩ := bind_eq_done hnext
      cases hlog
      rw [List.forall_mem_cons] at hcells ⊢
      exact ⟨step_of_runPass hcells.1 hpass, ih hmore hcells.2⟩

end IdealLoop

open IdealLoop

/-- Counted loops make exactly the passes of an ideal loop over the integers. Each pass runs the
body with its own index and the indices of the frame put in; the indices follow from the steps and
all fit a cell, so what would come of an overflow does not matter, and the last pass is the first
whose step reaches the limit. Afterwards the loop frame is as before. With a step of one the passes
are those for the indices from the start up to the limit. -/
theorem Machine.counted_loop_ideal (n : Nat) (overflow : Exec Int) :
    (∀ steps, Flow.runCounted (runTokens n) steps = do
      let start ← pop
      let limit ← pop
      let block ← Flow.takeBlock .counted
      IdealLoop.run (runTokens n) overflow block.first start limit (block.closerName = "+LOOP")
        steps) ∧
    (∀ (m m' : Machine) (body : List Token) (start limit : Cell) (stepped : Bool) (steps : Nat)
      (log : List Pass),
      passes (runPass (runTokens n) overflow body m.indices stepped) limit.toInt steps start.toInt
        (loopEntered start m) = .done log m' →
      IdealLoop.run (runTokens n) overflow body start limit stepped steps m =
        .done () (loopExited m') ∧
      (loopExited m').indices = m.indices ∧
      (m.frames ≠ [] → (loopExited m').frames = m.frames) ∧
      Counts limit.toInt start.toInt log ∧
      (∀ p ∈ log, ∃ c : Cell, c.toInt = p.index) ∧
      (stepped = false → (log.length : Int) = max 1 (limit.toInt - start.toInt) ∧
        ∀ (k : Nat) (p : Pass), log[k]? = some p → p.index = start.toInt + (k : Int))) ∧
    ∀ (body : List Token) (frame : List Cell) (start limit : Cell) (steps count : Nat),
      (count : Int) = max 1 (limit.toInt - start.toInt) → count ≤ steps →
      passes (runPass (runTokens n) overflow body frame false) limit.toInt steps start.toInt =
        inTurn (runPass (runTokens n) overflow body frame false)
          ((List.range count).map fun k : Nat => start.toInt + (k : Int)) := by
  refine ⟨runCounted_eq_run n overflow, ?_, ?_⟩
  · intro m m' body start limit stepped steps log hlog
    obtain ⟨hrun, hframes⟩ := run_of_passes hlog
    have hcounts := counts_of_passes hlog
    have hcells : ∀ p ∈ log, ∃ c : Cell, c.toInt = p.index := by
      intro p hp
      obtain ⟨k, hk⟩ := List.mem_iff_getElem?.mp hp
      obtain ⟨hlow, hhigh⟩ := hcounts.bounds hk
      exact exists_cell hlow hhigh
    refine ⟨hrun, ?_, ?_, hcounts, hcells, ?_⟩
    · simp [indices, hframes]
    · intro hne
      obtain ⟨frame, outer, hm⟩ := List.exists_cons_of_ne_nil hne
      simp [hframes, indices, hm]
    · rintro rfl
      have hones := steps_of_passes hlog hcells
      exact ⟨hcounts.length_of_ones hones, fun k p hp => hcounts.index_of_ones hones hp⟩
  · intro body frame start limit steps count hcount hsteps
    apply passes_eq_inTurn hcount hsteps
    intro k hk m step m' hdone
    apply step_of_runPass _ hdone
    apply exists_cell (a := start) (b := limit) <;> omega

/-- A step out of the range of a cell ends a loop after its first pass, and a loop up to the
greatest cell makes its three passes. -/
theorem Machine.counted_loop_ideal_greatest :
    let start : Cell := 9223372036854775804
    let limit : Cell := 9223372036854775807
    let body : List Token := [⟨.word "I", {}⟩]
    (∃ log m', IdealLoop.passes (IdealLoop.runPass (runTokens 5) Exec.unfinished body [] true)
        limit.toInt 2 start.toInt (loopEntered start (blank {})) = .done log m' ∧
      IdealLoop.run (runTokens 5) Exec.unfinished body start limit true 2 (blank {}) =
        .done () (loopExited m') ∧
      (loopExited m').frames = [[]] ∧ IdealLoop.Counts limit.toInt start.toInt log) ∧
    IdealLoop.passes (IdealLoop.runPass (runTokens 5) Exec.unfinished body [] false) limit.toInt 3
        start.toInt =
      IdealLoop.inTurn (IdealLoop.runPass (runTokens 5) Exec.unfinished body [] false)
        ((List.range 3).map fun k : Nat => start.toInt + (k : Int)) := by
  intro start limit body
  obtain ⟨log, m', hlog⟩ := Outcome.exists_done (o := IdealLoop.passes
    (IdealLoop.runPass (runTokens 5) Exec.unfinished body [] true) limit.toInt 2 start.toInt
    (loopEntered start (blank {}))) (by decide +kernel)
  obtain ⟨-, hends, hones⟩ := counted_loop_ideal 5 Exec.unfinished
  obtain ⟨hrun, -, hframes, hcounts, -⟩ := hends (blank {}) m' body start limit true 2 log hlog
  exact ⟨⟨log, m', hlog, hrun, hframes (by decide), hcounts⟩,
    hones body [] start limit 3 3 (by decide) (by decide)⟩

end TokenForth

import TokenForth.Proofs.Course
import TokenForth.Proofs.Failure

/-!
# The return stack across calls

A defined word that is done leaves the return stack as deep as it found it, since that is checked at
the end of its body. A word that `LEAVE` ends is not checked. It leaves the return stack as it was
where `LEAVE` was invoked, and the loop that catches the signal goes on with that.
-/
namespace TokenForth

open Exec Machine

theorem Exec.Quiet.neverLeaves {α : Type} {act : Exec α} (h : Quiet act) : NeverLeaves act := by
  intro m f m' hf
  have hm := h m
  rw [hf] at hm
  exact hm.2

theorem Primitive.neverLeaves {p : Primitive} (hp : ∀ word, p ≠ .flow word) (runner : Runner)
    (n : Nat) : NeverLeaves (p.run runner n) := by
  cases hquiet : p.isQuiet with
  | true => exact (p.quiet hquiet runner n).neverLeaves
  | false =>
    cases p with
    | flow word => exact absurd rfl (hp word)
    | storage word =>
      cases word with
      | declare =>
        exact quiet_nextName.neverLeaves.bind fun name => failsWith_safe fun _ => rfl
      | store =>
        refine quiet_pop.neverLeaves.bind fun address => quiet_pop.neverLeaves.bind fun value => ?_
        exact failsWith_safe fun _ => rfl
      | constant | fetch => cases hquiet
    | _ => cases hquiet

/-- Of the words that run no token list, only `LEAVE` gives its signal. -/
theorem leave_of_runWord {runner : Runner} {n : Nat} {location : Location} {w : Word}
    {m m' : Machine} {f : Fault} (hw : w.isNested = false)
    (h : runWord runner n location w m = .failed f m') (hf : f.isLeave = true) :
    w.action = .primitive (.flow .leave) ∧ m'.returns = m.returns := by
  rw [runWord_apply] at h
  obtain ⟨m₁, hrun, rfl⟩ := after_eq_failed h
  unfold runAction at hrun
  unfold Word.isNested at hw
  cases haction : w.action with
  | body tokens => simp [haction] at hw
  | primitive p =>
    simp only [haction] at hrun hw
    by_cases hp : ∀ word, p ≠ .flow word
    · have := Primitive.neverLeaves hp runner n _ _ _ hrun
      simp [hf] at this
    · simp only [not_forall, not_not] at hp
      obtain ⟨word, rfl⟩ := hp
      cases word with
      | leave =>
        cases hrun
        exact ⟨rfl, rfl⟩
      | conditional | counted | repeated => cases hw

/-- A run that `LEAVE` ends has invoked it last, and has the return stack of that moment. -/
theorem Made.left {m m' : Machine} {invoked : List Invoked} {o : Outcome Unit} {f : Fault}
    (h : Made m invoked o) (ho : o = .failed f m') (hf : f.isLeave = true) :
    ∃ i, invoked.getLast? = some i ∧ i.word.action = .primitive (.flow .leave) ∧
      m'.returns = i.machine.returns := by
  induction h generalizing m' with
  | quiet h =>
    subst ho
    have := h.2
    simp [hf] at this
  | seq _ _ _ ih =>
    obtain ⟨i, hlast, hi⟩ := ih ho
    exact ⟨i, by simp [List.getLast?_append, hlast], hi⟩
  | done _ _ _ => cases ho
  | failed _ hm ih =>
    cases ho
    obtain ⟨i, hlast, haction, hreturns⟩ := ih rfl
    exact ⟨i, hlast, haction, hm.returns.trans hreturns⟩
  | caught _ _ => cases ho
  | nested _ _ ih =>
    obtain ⟨i, hlast, hi⟩ := ih ho
    exact ⟨i, by simp [List.getLast?_cons, hlast], hi⟩
  | primitive hw runner n location m => exact ⟨_, rfl, leave_of_runWord hw ho hf⟩

theorem returns_of_checkReturns {name : String} {before : Nat} {m m' : Machine}
    (h : checkReturns name before m = .done () m') : m'.returns.depth = before := by
  change (ite (m.returns.depth = before) _ _ : Exec Unit) m = _ at h
  by_cases hdepth : m.returns.depth = before
  · rw [if_pos hdepth] at h
    cases h
    exact hdepth
  · rw [if_neg hdepth] at h
    cases h

theorem returns_of_runBody {runner : Runner} {name : String} {body : List Token} {m m' : Machine}
    (h : runBody runner name body m = .done () m') : m'.returns.depth = m.returns.depth := by
  rcases Nat.lt_or_ge m.depth m.config.callLimit with hdepth | hdepth
  · rw [runBody_shallow hdepth] at h
    obtain ⟨_, m₁, -, hcheck⟩ := bind_eq_done h
    exact returns_of_checkReturns hcheck
  · rw [runBody_deep hdepth] at h
    cases h

/-- A defined word that is done leaves the return stack as deep as it found it. One that `LEAVE`
ends leaves it as it was when `LEAVE`, the last word of its course, was invoked. -/
theorem returns_of_runWord (n k : Nat) (location : Location) {w : Word} {body : List Token}
    (hw : w.action = .body body) (m m' : Machine) :
    (runWord (runTokens n) k location w m = .done () m' → m'.returns.depth = m.returns.depth) ∧
    (Course.runWord (Course.runTokens n) k location w).act = runWord (runTokens n) k location w ∧
    ∀ f, runWord (runTokens n) k location w m = .failed f m' → f.isLeave = true →
      ∃ i, ((Course.runWord (Course.runTokens n) k location w).invoked m).getLast? = some i ∧
        i.word.action = .primitive (.flow .leave) ∧ m'.returns = i.machine.returns := by
  have hrecords := Course.records_runWord (Course.records_runTokens n) k location w
  refine ⟨?_, hrecords.act_eq, ?_⟩
  · intro h
    rw [runWord_apply] at h
    obtain ⟨m₁, hrun, rfl⟩ := after_eq_done h
    simp only [runAction, hw] at hrun
    exact (returns_of_runBody hrun :)
  · intro f h hf
    have hmade := hrecords.made m
    rw [Outcome.map_unit] at hmade
    exact hmade.left h hf

private def looping : Machine :=
  { blank {} with dictionary := ⟨[⟨"DO", .primitive (.flow .counted), none, "", ""⟩,
    ⟨"IF", .primitive (.flow .conditional), none, "", ""⟩,
    ⟨"LEAVE", .primitive (.flow .leave), none, "", ""⟩,
    ⟨">R", .primitive (.transfer .toReturn), none, "", ""⟩]⟩ }

private def leaver : Word :=
  ⟨"W", .body [⟨.number 5, {}⟩, ⟨.word ">R", {}⟩, ⟨.number 1, {}⟩, ⟨.word "IF", {}⟩,
    ⟨.word "LEAVE", {}⟩, ⟨.word "THEN", {}⟩], none, "", ""⟩

private def leftBehind : Machine :=
  { looping with data := ⟨[], 1⟩, returns := ⟨[5], 0⟩, location := some {} }

private theorem runWord_leaver : runWord (runTokens 7) 7 {} leaver looping =
    .failed ⟨.leave, some {}, some [⟨"LEAVE", {}⟩, ⟨"IF", {}⟩, ⟨"W", {}⟩]⟩ leftBehind := by
  decide +kernel

/-- The word is ended by `LEAVE` inside of the conditional. -/
theorem returns_of_runWord_left :
    ∃ f i, runWord (runTokens 7) 7 {} leaver looping = .failed f leftBehind ∧ f.isLeave = true ∧
      ((Course.runWord (Course.runTokens 7) 7 {} leaver).invoked looping).getLast? = some i ∧
      i.word.action = .primitive (.flow .leave) ∧ leftBehind.returns = i.machine.returns := by
  obtain ⟨i, hi⟩ := (returns_of_runWord 7 7 {} rfl looping leftBehind).2.2 _ runWord_leaver rfl
  exact ⟨_, i, runWord_leaver, rfl, hi⟩

/-- The word is called with an empty return stack and leaves a cell there. So does a loop with such
a word, after which the program goes on. -/
theorem returns_deeper_behind_loop :
    (∃ f, runWord (runTokens 7) 7 {} leaver looping = .failed f leftBehind ∧ f.isLeave = true) ∧
      looping.returns.depth = 0 ∧ leftBehind.returns.depth = 1 ∧
      ∃ outputs m',
        process 9 "<input>" ": W 1 >R LEAVE ; 1 0 DO W LOOP" looping = .done outputs m' ∧
          m'.returns.depth = 1 := by
  let left := (process 9 "<input>" ": W 1 >R LEAVE ; 1 0 DO W LOOP" looping).machineD looping
  have hrun : process 9 "<input>" ": W 1 >R LEAVE ; 1 0 DO W LOOP" looping =
      .done ["", ""] left := by
    decide +kernel
  have hdepth : left.returns.depth = 1 := by decide +kernel
  exact ⟨⟨_, runWord_leaver, rfl⟩, rfl, rfl, _, left, hrun, hdepth⟩

end TokenForth

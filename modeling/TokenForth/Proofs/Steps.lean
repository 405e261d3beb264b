import TokenForth.Proofs.Walk

/-!
# Enough steps

An action that finishes within some number of steps ends in the same way when it is given more. So
what a token list does is told by any number of steps that suffices for it.
-/
namespace TokenForth

open Machine

namespace Exec

/-- Whenever the first action finishes, the second one ends in the same way. -/
def Below {α : Type} (a b : Exec α) : Prop := ∀ m, a m = .unfinished ∨ a m = b m

theorem Below.refl {α : Type} (a : Exec α) : Below a a := fun _ => .inr rfl

theorem unfinished_below {α : Type} (a : Exec α) : Below unfinished a := fun _ => .inl rfl

theorem Below.bind {α β : Type} {a b : Exec α} {f g : α → Exec β} (h : Below a b)
    (hf : ∀ x, Below (f x) (g x)) : Below (a >>= f) (b >>= g) := by
  intro m
  simp only [Bind.bind]
  rcases h m with h | h
  · rw [h]; exact .inl rfl
  · rw [← h]
    cases a m with
    | done x m => exact hf x m
    | failed f m => exact .inr rfl
    | unfinished => exact .inr rfl

theorem Below.after {α : Type} {a b : Exec α} (h : Below a b) (change : Machine → Machine) :
    Below (a.after change) (b.after change) := by
  intro m
  simp only [Exec.after]
  rcases h m with h | h
  · rw [h]; exact .inl rfl
  · rw [h]; exact .inr rfl

theorem Below.onFault {α : Type} {a b : Exec α} (h : Below a b) (test : Fault → Bool)
    (change : Machine → Machine) : Below (a.onFault test change) (b.onFault test change) := by
  intro m
  simp only [Exec.onFault]
  rcases h m with h | h
  · rw [h]; exact .inl rfl
  · rw [h]; exact .inr rfl

theorem Below.catchLeave {a b : Exec Unit} (h : Below a b) : Below a.catchLeave b.catchLeave := by
  intro m
  simp only [Exec.catchLeave]
  rcases h m with h | h
  · rw [h]; exact .inl rfl
  · rw [h]; exact .inr rfl

/-- If some number of steps of the second action answers each ending of the first, and the first ends
whenever the second does, then they end together, and any two endings answer each other. -/
theorem ends_together {α β : Type} {R : Outcome α → Outcome β → Prop} {act : Nat → Exec α}
    {act' : Nat → Exec β} {m m' : Machine} (hbelow : ∀ n k, n ≤ k → Below (act' n) (act' k))
    (hend : ∀ o o', R o o' → o' ≠ .unfinished)
    (hforth : ∀ n, act n m ≠ .unfinished → ∃ k, R (act n m) (act' k m'))
    (hback : ∀ n, act' n m' ≠ .unfinished → ∃ k, act k m ≠ .unfinished) :
    ((∃ n, act n m ≠ .unfinished) ↔ ∃ n, act' n m' ≠ .unfinished) ∧
      ∀ n k, act n m ≠ .unfinished → act' k m' ≠ .unfinished → R (act n m) (act' k m') := by
  constructor
  · constructor
    · rintro ⟨n, hn⟩
      obtain ⟨k, hk⟩ := hforth n hn
      exact ⟨k, hend _ _ hk⟩
    · rintro ⟨n, hn⟩
      exact hback n hn
  · intro n k hn hk
    obtain ⟨i, hi⟩ := hforth n hn
    -- Both endings of the second action are the one with more steps.
    have hleft := (hbelow i (max i k) (Nat.le_max_left i k) m').resolve_left (hend _ _ hi)
    have hright := (hbelow k (max i k) (Nat.le_max_right i k) m').resolve_left hk
    rwa [hright, ← hleft]

end Exec

/-- Actions are below themselves, and so is the whole engine below itself with more steps. -/
def Exec.belowCongruence : Congruence Exec Exec where
  rel := Below
  patient := True
  patience _ := unfinished_below
  unfinished := .refl _
  pure _ := .refl _
  bind := .bind
  act := .refl
  after _ h := h.after _
  onFault test h := h.onFault test _
  catchLeave := .catchLeave

def Runner.Below (r s : Runner) : Prop := ∀ tokens, Exec.Below (r tokens) (s tokens)

namespace Machine

open Exec

theorem steps_of_le {n k : Nat} (hn : n ≤ k) : belowCongruence.Steps n k := .of_le trivial hn

theorem runWord_below {r s : Runner} (h : r.Below s) {n k : Nat} (hn : n ≤ k) (location : Location)
    (w : Word) : Exec.Below (runWord r n location w) (runWord s k location w) :=
  belowCongruence.word h (steps_of_le hn) location w

/-- A token list that finishes ends in the same way when it is given more steps. -/
theorem runTokens_below {n k : Nat} (hn : n ≤ k) : Runner.Below (runTokens n) (runTokens k) :=
  belowCongruence.tokens (fun h _ _ hn => belowCongruence.word h hn) (steps_of_le hn)

theorem runResults_below {n k : Nat} (hn : n ≤ k) (results : List (Except Fault Statement)) :
    Exec.Below (runResults n results) (runResults k results) :=
  belowCongruence.results (runTokens_below hn) results

end Machine

end TokenForth

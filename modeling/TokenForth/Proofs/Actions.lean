import Mathlib.Order.Defs.Unbundled
import TokenForth.Engine

/-!
# Reasoning about actions

Two ways to speak of an action without opening it. `Exec.Always` relates the machine that an action
leaves behind to the one it was given, whatever the ending. `Exec.Relates` compares two actions that
are given two machines.
-/
namespace TokenForth

namespace Outcome

/-- What holds of the machine that is left behind, if the action ends. -/
def All {α : Type} (P : Machine → Prop) : Outcome α → Prop
  | done _ m => P m
  | failed _ m => P m
  | unfinished => True

@[simp] theorem all_done {α : Type} {P : Machine → Prop} (a : α) (m : Machine) :
    (done a m).All P ↔ P m := Iff.rfl

@[simp] theorem all_failed {α : Type} {P : Machine → Prop} (f : Fault) (m : Machine) :
    (failed f m : Outcome α).All P ↔ P m := Iff.rfl

theorem All.imp {α : Type} {P Q : Machine → Prop} {o : Outcome α} (h : o.All P)
    (hPQ : ∀ m, P m → Q m) : o.All Q := by
  cases o with
  | done a m => exact hPQ m h
  | failed f m => exact hPQ m h
  | unfinished => trivial

theorem All.and {α : Type} {P Q : Machine → Prop} {o : Outcome α} (hP : o.All P) (hQ : o.All Q) :
    o.All fun m => P m ∧ Q m := by
  cases o with
  | done a m => exact ⟨hP, hQ⟩
  | failed f m => exact ⟨hP, hQ⟩
  | unfinished => trivial

/-- The machine that is left behind when the action ends. -/
inductive Leaves {α : Type} : Outcome α → Machine → Prop
  | done (a : α) (m : Machine) : Leaves (.done a m) m
  | failed (f : Fault) (m : Machine) : Leaves (.failed f m) m

theorem exists_leaves {α : Type} {o : Outcome α} (h : o ≠ .unfinished) : ∃ m, o.Leaves m := by
  cases o with
  | done a m => exact ⟨m, .done a m⟩
  | failed f m => exact ⟨m, .failed f m⟩
  | unfinished => exact absurd rfl h

def map {α β : Type} (change : α → β) : Outcome α → Outcome β
  | done a m => done (change a) m
  | failed f m => failed f m
  | unfinished => unfinished

def isDone {α : Type} : Outcome α → Bool
  | done _ _ => true
  | _ => false

theorem exists_done {α : Type} {o : Outcome α} (h : o.isDone) : ∃ a m, o = .done a m := by
  cases o with
  | done a m => exact ⟨a, m, rfl⟩
  | failed f m => cases h
  | unfinished => cases h

def fault? {α : Type} : Outcome α → Option Fault
  | failed f _ => some f
  | _ => none

theorem exists_failed {α : Type} {o : Outcome α} {f : Fault} (h : o.fault? = some f) :
    ∃ m, o = .failed f m := by
  cases o with
  | done a m => cases h
  | failed g m =>
    cases h
    exact ⟨m, rfl⟩
  | unfinished => cases h

theorem All.of_leaves {α : Type} {P : Machine → Prop} {o : Outcome α} (h : o.All P) {m : Machine}
    (hm : o.Leaves m) : P m := by
  cases hm with
  | done a => exact h
  | failed f => exact h

/-- The first outcome is matched by the second. Nothing is asked of the second if the first is
unfinished or fails with a fault that is given up. -/
inductive Matches {α β : Type} (lost : Fault → Prop) (post : α → Machine → β → Machine → Prop)
    (fail : Fault → Machine → Fault → Machine → Prop) : Outcome α → Outcome β → Prop
  | done {a m b m'} (h : post a m b m') : Matches lost post fail (.done a m) (.done b m')
  | failed {f m g m'} (h : fail f m g m') : Matches lost post fail (.failed f m) (.failed g m')
  | lost {f m o} (h : lost f) : Matches lost post fail (.failed f m) o
  | unfinished {o} : Matches lost post fail .unfinished o

end Outcome

namespace Exec

instance : LawfulMonad Exec := by
  refine LawfulMonad.mk' Exec ?_ ?_ ?_
  · intro α act
    funext m
    simp only [Functor.map]
    cases act m <;> rfl
  · intro α β a next
    rfl
  · intro α β γ act next last
    funext m
    simp only [Bind.bind]
    cases act m <;> rfl

theorem bind_of_done {α β : Type} {act : Exec α} {next : α → Exec β} {m m' : Machine} {a : α}
    (h : act m = .done a m') : (act >>= next) m = next a m' := by
  simp only [Bind.bind, h]

/-- What comes after an action matters only where the action leads. -/
theorem bind_congr_at {α β : Type} {act : Exec α} {next next' : α → Exec β} {m : Machine}
    (h : ∀ a m', act m = .done a m' → next a m' = next' a m') :
    (act >>= next) m = (act >>= next') m := by
  simp only [Bind.bind]
  cases hact : act m with
  | done a m' => exact h a m' hact
  | failed f m' => rfl
  | unfinished => rfl

theorem bind_eq_failed {α β : Type} {act : Exec α} {next : α → Exec β} {m m' : Machine} {f : Fault}
    (h : (act >>= next) m = .failed f m') :
    act m = .failed f m' ∨ ∃ a m₁, act m = .done a m₁ ∧ next a m₁ = .failed f m' := by
  simp only [Bind.bind] at h
  cases hact : act m with
  | done a m₁ =>
    rw [hact] at h
    exact .inr ⟨a, m₁, rfl, h⟩
  | failed g m₁ =>
    rw [hact] at h
    cases h
    exact .inl rfl
  | unfinished =>
    rw [hact] at h
    cases h

theorem bind_eq_done {α β : Type} {act : Exec α} {next : α → Exec β} {m m' : Machine} {b : β}
    (h : (act >>= next) m = .done b m') : ∃ a m₁, act m = .done a m₁ ∧ next a m₁ = .done b m' := by
  simp only [Bind.bind] at h
  cases hact : act m with
  | done a m₁ =>
    rw [hact] at h
    exact ⟨a, m₁, rfl, h⟩
  | failed g m₁ => rw [hact] at h; cases h
  | unfinished => rw [hact] at h; cases h

theorem all_after {α : Type} {act : Exec α} {change : Machine → Machine} {P : Machine → Prop}
    {m : Machine} : (act.after change m).All P ↔ (act m).All fun m' => P (change m') := by
  simp only [after]
  cases act m <;> exact Iff.rfl

theorem all_onFault {α : Type} {act : Exec α} {test : Fault → Bool} {change : Machine → Machine}
    {P : Machine → Prop} {m : Machine} (h : (act m).All P) (hP : ∀ m', P m' → P (change m')) :
    (act.onFault test change m).All P := by
  simp only [Exec.onFault]
  cases hact : act m with
  | done a m' => rw [hact] at h; exact h
  | failed f m' =>
    rw [hact] at h
    by_cases hf : test f
    · simpa [hf] using hP m' h
    · simpa [hf] using h
  | unfinished => trivial

theorem all_catchLeave {act : Exec Unit} {P : Machine → Prop} {m : Machine} (h : (act m).All P) :
    (act.catchLeave m).All P := by
  simp only [Exec.catchLeave]
  cases hact : act m with
  | done a m' => rw [hact] at h; exact h
  | failed f m' =>
    rw [hact] at h
    by_cases hf : f.isLeave
    · simpa [hf] using h
    · simpa [hf] using h
  | unfinished => trivial

theorem after_eq_done {α : Type} {act : Exec α} {change : Machine → Machine} {m m' : Machine}
    {a : α} (h : act.after change m = .done a m') : ∃ m₁, act m = .done a m₁ ∧ m' = change m₁ := by
  simp only [after] at h
  cases hact : act m with
  | done b m₁ =>
    rw [hact] at h
    cases h
    exact ⟨m₁, rfl, rfl⟩
  | failed g m₁ => rw [hact] at h; cases h
  | unfinished => rw [hact] at h; cases h

theorem after_eq_failed {α : Type} {act : Exec α} {change : Machine → Machine} {m m' : Machine}
    {f : Fault} (h : act.after change m = .failed f m') :
    ∃ m₁, act m = .failed f m₁ ∧ m' = change m₁ := by
  simp only [after] at h
  cases hact : act m with
  | failed g m₁ =>
    rw [hact] at h
    cases h
    exact ⟨m₁, rfl, rfl⟩
  | done a m₁ => rw [hact] at h; cases h
  | unfinished => rw [hact] at h; cases h

theorem onFault_eq_failed {α : Type} {act : Exec α} {test : Fault → Bool}
    {change : Machine → Machine} {m m' : Machine} {f : Fault}
    (h : act.onFault test change m = .failed f m') :
    ∃ m₁, act m = .failed f m₁ ∧ m' = if test f then change m₁ else m₁ := by
  simp only [onFault] at h
  cases hact : act m with
  | failed g m₁ =>
    rw [hact] at h
    cases h
    exact ⟨m₁, rfl, rfl⟩
  | done a m₁ => rw [hact] at h; cases h
  | unfinished => rw [hact] at h; cases h

theorem catchLeave_eq_failed {act : Exec Unit} {m m' : Machine} {f : Fault}
    (h : act.catchLeave m = .failed f m') : act m = .failed f m' ∧ f.isLeave = false := by
  simp only [catchLeave] at h
  cases hact : act m with
  | failed g m₁ =>
    rw [hact] at h
    by_cases hg : g.isLeave
    · simp [hg] at h
    · simp only [hg, Bool.false_eq_true, if_false] at h
      cases h
      exact ⟨rfl, by simpa using hg⟩
  | done a m₁ => rw [hact] at h; cases h
  | unfinished => rw [hact] at h; cases h

def read {α : Type} (f : Machine → α) : Exec α := fun m => .done (f m) m

/-- However the action ends, the machine it leaves behind is in the relation to the one it got. -/
def Always {α : Type} (R : Machine → Machine → Prop) (act : Exec α) : Prop := ∀ m, (act m).All (R m)

section Always

variable {α β : Type} {R S : Machine → Machine → Prop}

theorem Always.imp {act : Exec α} (h : Always R act) (hRS : ∀ m m', R m m' → S m m') :
    Always S act := fun m => (h m).imp (hRS m)

theorem always_unfinished : Always R (unfinished : Exec α) := fun _ => trivial

theorem always_update {change : Machine → Machine} (h : ∀ m, R m (change m)) :
    Always R (update change) := h

/-- An action between two changes of the machine, the second of which is always made. -/
theorem Always.bracket {act : Exec α} {enter leave : Machine → Machine} (h : Always R act)
    (hS : ∀ m m', R (enter m) m' → S m (leave m')) :
    Always S (update enter >>= fun _ => act.after leave) := by
  intro m
  have hm := h (enter m)
  simp only [Bind.bind, update, after]
  cases hact : act (enter m) with
  | done a m' => rw [hact] at hm; exact hS m m' hm
  | failed f m' => rw [hact] at hm; exact hS m m' hm
  | unfinished => trivial

theorem Always.catchLeave {act : Exec Unit} (h : Always R act) : Always R act.catchLeave :=
  fun m => all_catchLeave (h m)

theorem Always.onFault {act : Exec α} {test : Fault → Bool} {change : Machine → Machine}
    (h : Always R act) (hS : ∀ m m', R m m' → R m (change m')) :
    Always R (act.onFault test change) :=
  fun m => all_onFault (h m) (hS m)

variable [IsPreorder Machine R]

theorem always_pure (a : α) : Always R (pure a) := fun m => Std.Refl.refl m

theorem always_raise (cause : Fault.Cause) : Always R (raise cause : Exec α) :=
  fun m => Std.Refl.refl m

theorem always_fail (f : Fault) : Always R (fail f : Exec α) := fun m => Std.Refl.refl m

theorem always_read (f : Machine → α) : Always R (read f) := fun m => Std.Refl.refl m

theorem always_state : Always R state := fun m => Std.Refl.refl m

theorem Always.bind {act : Exec α} {next : α → Exec β} (h : Always R act)
    (hnext : ∀ a, Always R (next a)) : Always R (act >>= next) := by
  intro m
  have hm := h m
  simp only [Bind.bind]
  cases hact : act m with
  | done a m' =>
    rw [hact] at hm
    exact (hnext a m').imp fun _ => IsTrans.trans m m' _ hm
  | failed f m' => rw [hact] at hm; exact hm
  | unfinished => trivial

end Always

/-- The second action keeps step with the first on machines for which `pre` holds. -/
def Relates {α β : Type} (lost : Fault → Prop) (pre : Machine → Machine → Prop)
    (post : α → Machine → β → Machine → Prop) (fail : Fault → Machine → Fault → Machine → Prop)
    (act : Exec α) (act' : Exec β) : Prop :=
  ∀ m m', pre m m' → (act m).Matches lost post fail (act' m')

section Relates

variable {α β γ δ : Type} {lost : Fault → Prop} {pre : Machine → Machine → Prop}
  {post mid : α → Machine → β → Machine → Prop} {last : γ → Machine → δ → Machine → Prop}
  {fail fail' : Fault → Machine → Fault → Machine → Prop} {act : Exec α} {act' : Exec β}

theorem relates_unfinished : Relates lost pre post fail unfinished act' :=
  fun _ _ _ => .unfinished

theorem relates_pure {a : α} {b : β} (h : ∀ m m', pre m m' → post a m b m') :
    Relates lost pre post fail (pure a) (pure b) := fun m m' hm => .done (h m m' hm)

theorem relates_raise {cause : Fault.Cause}
    (h : ∀ m m', pre m m' → fail (m.fault cause) m (m'.fault cause) m') :
    Relates lost pre post fail (raise cause) (raise cause) := fun m m' hm => .failed (h m m' hm)

theorem relates_update {post : Unit → Machine → Unit → Machine → Prop}
    {change change' : Machine → Machine}
    (h : ∀ m m', pre m m' → post () (change m) () (change' m')) :
    Relates lost pre post fail (update change) (update change') := fun m m' hm => .done (h m m' hm)

theorem Relates.imp (h : Relates lost pre mid fail act act')
    (hpost : ∀ a m b m', mid a m b m' → post a m b m') : Relates lost pre post fail act act' := by
  intro m m' hm
  have ho := h m m' hm
  generalize act m = o, act' m' = o' at ho ⊢
  cases ho with
  | done hab => exact .done (hpost _ _ _ _ hab)
  | failed hf => exact .failed hf
  | lost hf => exact .lost hf
  | unfinished => exact .unfinished

theorem Relates.imp_fail (h : Relates lost pre post fail act act')
    (hfail : ∀ f m g m', fail f m g m' → fail' f m g m') :
    Relates lost pre post fail' act act' := by
  intro m m' hm
  have ho := h m m' hm
  generalize act m = o, act' m' = o' at ho ⊢
  cases ho with
  | done hab => exact .done hab
  | failed hf => exact .failed (hfail _ _ _ _ hf)
  | lost hf => exact .lost hf
  | unfinished => exact .unfinished

theorem Relates.bind {next : α → Exec γ} {next' : β → Exec δ}
    (h : Relates lost pre mid fail act act')
    (hnext : ∀ a b, Relates lost (fun m m' => mid a m b m') last fail (next a) (next' b)) :
    Relates lost pre last fail (act >>= next) (act' >>= next') := by
  intro m m' hm
  have ho := h m m' hm
  simp only [Bind.bind]
  generalize act m = o, act' m' = o' at ho ⊢
  cases ho with
  | done hab => exact hnext _ _ _ _ hab
  | failed hf => exact .failed hf
  | lost hf => exact .lost hf
  | unfinished => exact .unfinished

theorem Relates.after {leave leave' : Machine → Machine}
    (h : Relates lost pre mid fail act act')
    (hpost : ∀ a m b m', mid a m b m' → post a (leave m) b (leave' m'))
    (hfail : ∀ f m g m', fail f m g m' → fail' f (leave m) g (leave' m')) :
    Relates lost pre post fail' (act.after leave) (act'.after leave') := by
  intro m m' hm
  have ho := h m m' hm
  simp only [Exec.after]
  generalize act m = o, act' m' = o' at ho ⊢
  cases ho with
  | done hab => exact .done (hpost _ _ _ _ hab)
  | failed hf => exact .failed (hfail _ _ _ _ hf)
  | lost hf => exact .lost hf
  | unfinished => exact .unfinished

theorem Relates.onFault {test test' : Fault → Bool} {change change' : Machine → Machine}
    (h : Relates lost pre post fail act act')
    (htest : ∀ f m g m', fail f m g m' → test f = test' g)
    (hfail : ∀ f m g m', fail f m g m' → test f = true →
      lost f ∨ fail f (change m) g (change' m')) :
    Relates lost pre post fail (act.onFault test change) (act'.onFault test' change') := by
  intro m m' hm
  have ho := h m m' hm
  simp only [Exec.onFault]
  generalize act m = o, act' m' = o' at ho ⊢
  cases ho with
  | done hab => exact .done hab
  | @failed f m g m' hf =>
    dsimp only
    rw [← htest f m g m' hf]
    by_cases ht : test f = true
    · rw [if_pos ht, if_pos ht]
      exact (hfail f m g m' hf ht).elim .lost .failed
    · rw [if_neg ht, if_neg ht]
      exact .failed hf
  | lost hf => exact .lost hf
  | unfinished => exact .unfinished

theorem Relates.catchLeave {post : Unit → Machine → Unit → Machine → Prop} {act act' : Exec Unit}
    (h : Relates lost pre post fail act act') (hlost : ∀ f, lost f → f.isLeave = false)
    (hleave : ∀ f m g m', fail f m g m' → f.isLeave = g.isLeave)
    (hpost : ∀ f m g m', fail f m g m' → f.isLeave = true → post () m () m') :
    Relates lost pre post fail act.catchLeave act'.catchLeave := by
  intro m m' hm
  have ho := h m m' hm
  simp only [Exec.catchLeave]
  generalize act m = o, act' m' = o' at ho ⊢
  cases ho with
  | done hab => exact .done hab
  | @failed f m g m' hf =>
    dsimp only
    rw [← hleave f m g m' hf]
    by_cases ht : f.isLeave = true
    · rw [if_pos ht, if_pos ht]
      exact .done (hpost f m g m' hf ht)
    · rw [if_neg ht, if_neg ht]
      exact .failed hf
  | @lost f _ _ hf =>
    dsimp only
    rw [hlost f hf]
    exact .lost hf
  | unfinished => exact .unfinished

end Relates

end Exec

end TokenForth

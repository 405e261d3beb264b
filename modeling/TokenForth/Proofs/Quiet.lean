import TokenForth.Proofs.Actions

/-!
# Quiet actions

Nearly all actions of the machine keep the variables, and give no signal of `LEAVE`. All primitives
do but for those that run token lists, that declare a variable, that store a cell, and `LEAVE`.
-/
namespace TokenForth

open Exec Machine

/-- The variables are kept, and the signal of `LEAVE` is not given. -/
def Outcome.Calm {α : Type} (m : Machine) : Outcome α → Prop
  | .done _ m' => m'.memory = m.memory
  | .failed f m' => m'.memory = m.memory ∧ f.isLeave = false
  | .unfinished => True

@[simp] theorem Outcome.calm_done {α : Type} {m : Machine} (a : α) (m' : Machine) :
    (Outcome.done a m').Calm m ↔ m'.memory = m.memory := Iff.rfl

@[simp] theorem Outcome.calm_fault {α : Type} {m : Machine} (cause : Fault.Cause) :
    (Outcome.failed (m.fault cause) m : Outcome α).Calm m ↔ cause ≠ .leave :=
  (and_iff_right rfl).trans decide_eq_false_iff_not

/-- The action keeps the variables and does not end with `LEAVE`. -/
def Exec.Quiet {α : Type} (act : Exec α) : Prop := ∀ m, (act m).Calm m

namespace Exec

variable {α β : Type}

theorem Quiet.bind {act : Exec α} {next : α → Exec β} (h : Quiet act)
    (hnext : ∀ a, Quiet (next a)) : Quiet (act >>= next) := by
  intro m
  have hm := h m
  simp only [Bind.bind]
  cases hact : act m with
  | done a m₁ =>
    rw [hact] at hm
    have hm₁ := hnext a m₁
    simp only
    cases hnext : next a m₁ with
    | done b m' => rw [hnext] at hm₁; exact hm₁.trans hm
    | failed f m' => rw [hnext] at hm₁; exact ⟨hm₁.1.trans hm, hm₁.2⟩
    | unfinished => trivial
  | failed f m₁ => rw [hact] at hm; exact hm
  | unfinished => trivial

theorem quiet_pure (a : α) : Quiet (pure a : Exec α) := fun _ => rfl

theorem quiet_state : Quiet state := fun _ => rfl

theorem quiet_unfinished : Quiet (unfinished : Exec α) := fun _ => trivial

theorem quiet_update {change : Machine → Machine} (h : ∀ m, (change m).memory = m.memory) :
    Quiet (update change) := h

theorem quiet_fail {f : Fault} (h : f.isLeave = false) : Quiet (fail f : Exec α) :=
  fun _ => ⟨rfl, h⟩

theorem quiet_raise {cause : Fault.Cause} (h : cause ≠ .leave) : Quiet (raise cause : Exec α) :=
  fun _ => ⟨rfl, decide_eq_false h⟩

theorem quiet_push (c : Cell) : Quiet (push c) := quiet_update fun _ => rfl

theorem quiet_write (text : String) : Quiet (write text) := quiet_update fun _ => rfl

theorem quiet_pop : Quiet pop := by
  intro m
  unfold pop
  split <;> simp

theorem quiet_popFlag : Quiet popFlag := quiet_pop.bind fun _ => quiet_pure _

theorem quiet_stream : Quiet stream := by
  intro m
  unfold stream
  split <;> simp

theorem quiet_takeBlock (v : Vocabulary) : Quiet (Flow.takeBlock v) := by
  refine quiet_stream.bind fun s => ?_
  split
  · exact .bind (quiet_update fun _ => rfl) fun _ => quiet_pure _
  · exact .bind (quiet_update fun _ => rfl) fun _ => quiet_raise nofun

theorem quiet_nextToken? : Quiet nextToken? := by
  intro m
  unfold nextToken?
  split <;> simp

theorem quiet_define (tokens : List Token) : Quiet (define tokens) := by
  cases tokens with
  | nil => exact quiet_raise nofun
  | cons t body =>
    simp only [define]
    split
    · exact quiet_update fun _ => rfl
    · exact .bind (quiet_update fun _ => rfl) fun _ => quiet_raise nofun

theorem quiet_nextName : Quiet nextName := by
  refine .bind (.bind quiet_nextToken? fun t => ?_) fun t => ?_
  · cases t with
    | none => exact quiet_raise nofun
    | some t => exact quiet_pure _
  · split
    · exact quiet_pure _
    · exact quiet_raise nofun

theorem quiet_pushAll (cells : List Cell) : Quiet (pushAll cells) := by
  induction cells with
  | nil => exact quiet_pure _
  | cons c rest ih => exact .bind (quiet_push c) fun _ => ih

theorem quiet_unary (f : Cell → Cell) : Quiet (unary f) := quiet_pop.bind fun _ => quiet_push _

theorem quiet_binary (f : Cell → Cell → Cell) : Quiet (binary f) :=
  quiet_pop.bind fun _ => quiet_pop.bind fun _ => quiet_push _

theorem Quiet.ite {P : Prop} [Decidable P] {act act' : Exec α} (h : Quiet act) (h' : Quiet act') :
    Quiet (if P then act else act') := by
  split
  · exact h
  · exact h'

theorem quiet_popOperands : Quiet popOperands :=
  quiet_pop.bind fun _ => quiet_pop.bind fun _ => .ite (quiet_raise nofun) (quiet_pure _)

theorem quiet_checkWidth (width : Cell) : Quiet (checkWidth width) :=
  .ite (quiet_raise nofun) (quiet_pure _)

end Exec

theorem Shuffle.quiet (word : Shuffle) : Quiet word.run := by
  cases word with
  | dup => exact quiet_pop.bind fun _ => quiet_pushAll _
  | drop => exact quiet_pop.bind fun _ => quiet_pure _
  | swap | copyUnder | dupPair =>
    exact quiet_pop.bind fun _ => quiet_pop.bind fun _ => quiet_pushAll _
  | rot =>
    exact quiet_pop.bind fun _ => quiet_pop.bind fun _ => quiet_pop.bind fun _ => quiet_pushAll _
  | swapPair | copyPairUnder =>
    exact quiet_pop.bind fun _ => quiet_pop.bind fun _ => quiet_pop.bind fun _ =>
      quiet_pop.bind fun _ => quiet_pushAll _
  | dupNonzero =>
    refine .bind (fun m => ?_) fun a => .ite (quiet_push a) (quiet_pure _)
    unfold top
    split <;> simp
  | dropPair =>
    refine .bind (fun m => ?_) fun _ => quiet_pure _
    unfold popMany
    split <;> simp
  | depth => exact quiet_state.bind fun m => quiet_push _

theorem Transfer.quiet (word : Transfer) : Quiet word.run := by
  cases word with
  | toReturn => exact quiet_pop.bind fun _ => quiet_update fun _ => rfl
  | fromReturn =>
    refine .bind (fun m => ?_) fun c => quiet_push c
    unfold popReturn
    split <;> simp
  | copyReturn =>
    refine .bind (fun m => ?_) fun c => quiet_push c
    unfold topReturn
    split <;> simp
  | showReturn => exact quiet_state.bind fun m => quiet_write _

theorem Arithmetic.quiet (word : Arithmetic) : Quiet word.run := by
  cases word with
  | add | subtract | multiply | minimum | maximum => exact quiet_binary _
  | absolute | negate => exact quiet_unary _
  | quotient | remainder => exact quiet_popOperands.bind fun _ => quiet_push _
  | divide => exact quiet_popOperands.bind fun _ => .bind (quiet_push _) fun _ => quiet_push _

theorem Logic.quiet (word : Logic) : Quiet word.run := by
  cases word with
  | equal | different | less | greater | below | and | or | xor => exact quiet_binary _
  | isZero | isNegative | isPositive | invert => exact quiet_unary _

theorem Printing.quiet (word : Printing) : Quiet word.run := by
  cases word with
  | number | unsigned => exact quiet_pop.bind fun _ => quiet_state.bind fun _ => quiet_write _
  | aligned =>
    exact quiet_pop.bind fun _ => quiet_pop.bind fun _ => quiet_state.bind fun _ =>
      (quiet_checkWidth _).bind fun _ => quiet_write _
  | stack => exact quiet_state.bind fun _ => quiet_write _
  | character =>
    refine quiet_pop.bind fun code => ?_
    split
    · exact quiet_write _
    · exact quiet_raise nofun
  | newline => exact quiet_write _
  | spaces => exact quiet_pop.bind fun _ => (quiet_checkWidth _).bind fun _ => quiet_write _

theorem Listing.quiet (word : Listing) : Quiet word.run := by
  cases word with
  | forget =>
    refine quiet_nextName.bind fun (name, _) m => ?_
    simp only [forgetWord]
    split <;> simp
  | words => exact quiet_state.bind fun _ => quiet_write _
  | see =>
    refine quiet_nextName.bind fun name => .bind (fun m => ?_) fun w => quiet_write _
    unfold findWord
    split <;> simp

theorem Control.quiet (word : Control) : Quiet word.run := by
  cases word with
  | radix r =>
    intro m
    simp only [Control.run, setRadix]
    split <;> simp
  | clear => exact .bind (quiet_update fun _ => rfl) fun _ => quiet_update fun _ => rfl
  | abort =>
    refine quiet_popFlag.bind fun flag => .bind (quiet_stream.bind fun s => ?_) fun message =>
      .ite (quiet_raise nofun) (quiet_pure _)
    split
    · exact .bind (quiet_update fun _ => rfl) fun _ => quiet_pure _
    · exact quiet_pure _
  | quit => exact quiet_raise nofun

namespace Primitive

def isQuiet : Primitive → Bool
  | storage .declare | storage .store | flow _ => false
  | _ => true

theorem quiet {p : Primitive} (h : p.isQuiet = true) (runner : Runner) (n : Nat) :
    Quiet (p.run runner n) := by
  cases p with
  | shuffle word => exact word.quiet
  | transfer word => exact word.quiet
  | arithmetic word => exact word.quiet
  | logic word => exact word.quiet
  | printing word => exact word.quiet
  | listing word => exact word.quiet
  | control word => exact word.quiet
  | storage word =>
    cases word with
    | declare | store => cases h
    | constant =>
      exact quiet_nextName.bind fun _ => quiet_pop.bind fun _ => quiet_update fun _ => rfl
    | fetch =>
      refine quiet_pop.bind fun address => .bind (fun m => ?_) fun value => quiet_push value
      unfold fetch
      split <;> simp
  | flow word => cases h
  | literal value => exact quiet_push value
  | inert => exact quiet_pure _
  | report => exact quiet_stream.bind fun _ => quiet_state.bind fun _ => quiet_write _

end Primitive

end TokenForth

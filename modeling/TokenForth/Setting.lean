import TokenForth.Machine

/-!
# Settings of the engine

The engine is written for any setting that can carry out actions of the machine, so that what comes
along with a run can be told by running the engine elsewhere. The actions themselves are the setting
in which programs are run.
-/
namespace TokenForth

/-- What the engine asks of the place where it works. -/
class Setting (M : Type → Type) extends Monad M where
  act {α : Type} : Exec α → M α
  after {α : Type} : M α → (Machine → Machine) → M α
  onFault {α : Type} : M α → (Fault → Bool) → (Machine → Machine) → M α
  catchLeave : M Unit → M Unit

instance : Setting Exec where
  act x := x
  after := Exec.after
  onFault := Exec.onFault
  catchLeave := Exec.catchLeave

end TokenForth

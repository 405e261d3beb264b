import TokenForth.Proofs.Actions

/-!
# What primitives are made of

Most primitives read no token and run no token list. They are put together from a few operations on
the two stacks, the radix, the stored cells and the output, so what is shown of these operations and
carried over to sequences holds of all such primitives. The operations that few primitives use are
marked with an effect.
-/
namespace TokenForth

open Machine

inductive Effect where
  /-- Looks at the whole data stack or at its depth. -/
  | measure
  /-- Empties the data stack. -/
  | clear
  /-- Changes the return stack. -/
  | returns
  | radix
  /-- Stores a cell. -/
  | cells
  deriving DecidableEq, Repr

/-- Actions put together from the operations that need no token, with some effects. -/
inductive Exec.Plain (E : Effect → Prop) : {α : Type} → Exec α → Prop
  | pure {α : Type} (a : α) : Plain E (pure a)
  | raise {α : Type} (cause : Fault.Cause) (h : cause.kind ≠ .internal) :
    Plain E (Exec.raise cause : Exec α)
  | bind {α β : Type} {act : Exec α} {next : α → Exec β} :
    Plain E act → (∀ a, Plain E (next a)) → Plain E (act >>= next)
  | push (c : Cell) : Plain E (Machine.push c)
  | pop : Plain E Machine.pop
  | popMany (n : Nat) : Plain E (Machine.popMany n)
  | top : Plain E Machine.top
  | depth (h : E .measure) : Plain E (Exec.read (·.data.depth))
  | listing (h : E .measure) : Plain E (Exec.read fun m => m.data.listing m.radix)
  | clear (h : E .clear) : Plain E Machine.clear
  | pushReturn (c : Cell) (h : E .returns) : Plain E (Machine.pushReturn c)
  | popReturn (h : E .returns) : Plain E Machine.popReturn
  | topReturn : Plain E Machine.topReturn
  | clearReturn (h : E .returns) : Plain E Machine.clearReturn
  | listingReturn : Plain E (Exec.read fun m => m.returns.listing m.radix)
  | radix : Plain E (Exec.read (·.radix))
  | setRadix (r : Nat) (h : E .radix) : Plain E (Machine.setRadix r)
  | write (text : String) : Plain E (Machine.write text)
  | words : Plain E (Exec.read (·.dictionary.render))
  | store (address value : Cell) (h : E .cells) : Plain E (Machine.store address value)
  | fetch (address : Cell) : Plain E (Machine.fetch address)

namespace Primitive

/-- Whether a primitive takes tokens out of the running stream or reports on it. -/
def readsTokens : Primitive → Bool
  | storage .declare | storage .constant | listing .forget | listing .see | control .abort => true
  | flow .conditional | flow .counted | flow .repeated | report => true
  | _ => false

def effects : Primitive → List Effect
  | shuffle .depth | printing .stack => [.measure]
  | control .clear => [.clear, .returns]
  | control (.radix _) => [.radix]
  | transfer .toReturn | transfer .fromReturn => [.returns]
  | storage .store => [.cells]
  | _ => []

end Primitive

/-- Only the words for blocks run token lists. -/
theorem Primitive.run_eq {p : Primitive} (h : ∀ word, p ≠ .flow word) (r r' : Runner) (n n' : Nat) :
    p.run r n = p.run r' n' := by
  cases p with
  | flow word => exact absurd rfl (h word)
  | _ => rfl

namespace Exec.Plain

variable {E : Effect → Prop}

theorem pushAll (cells : List Cell) : Plain E (Machine.pushAll cells) := by
  induction cells with
  | nil => exact .pure _
  | cons c rest ih => exact .bind (.push c) fun _ => ih

theorem unary (f : Cell → Cell) : Plain E (Machine.unary f) := .bind .pop fun _ => .push _

theorem binary (f : Cell → Cell → Cell) : Plain E (Machine.binary f) :=
  .bind .pop fun _ => .bind .pop fun _ => .push _

theorem popFlag : Plain E Machine.popFlag := .bind .pop fun _ => .pure _

theorem popOperands : Plain E Machine.popOperands := by
  refine .bind .pop fun b => .bind .pop fun a => ?_
  by_cases hb : b = 0
  · simp only [hb, if_true]; exact .raise _ nofun
  · simp only [hb, if_false]; exact .pure _

theorem checkWidth (width : Cell) : Plain E (Machine.checkWidth width) := by
  unfold Machine.checkWidth
  split
  · exact .raise _ nofun
  · exact .pure _

end Exec.Plain

open Exec Exec.Plain

theorem Shuffle.plain (word : Shuffle) : Plain (· ∈ (Primitive.shuffle word).effects) word.run := by
  cases word with
  | dup => exact .bind .pop fun _ => .pushAll _
  | drop => exact .bind .pop fun _ => .pure _
  | swap => exact .bind .pop fun _ => .bind .pop fun _ => .pushAll _
  | copyUnder => exact .bind .pop fun _ => .bind .pop fun _ => .pushAll _
  | rot => exact .bind .pop fun _ => .bind .pop fun _ => .bind .pop fun _ => .pushAll _
  | dupNonzero =>
    refine .bind .top fun a => ?_
    split
    · exact .push a
    · exact .pure _
  | dupPair => exact .bind .pop fun _ => .bind .pop fun _ => .pushAll _
  | dropPair => exact .bind (.popMany 2) fun _ => .pure _
  | swapPair =>
    exact .bind .pop fun _ => .bind .pop fun _ => .bind .pop fun _ => .bind .pop fun _ => .pushAll _
  | copyPairUnder =>
    exact .bind .pop fun _ => .bind .pop fun _ => .bind .pop fun _ => .bind .pop fun _ => .pushAll _
  | depth =>
    change Plain _ (Exec.read (·.data.depth) >>= fun n => push (Int64.ofNat n))
    exact .bind (.depth (by simp [Primitive.effects])) fun _ => .push _

theorem Transfer.plain (word : Transfer) :
    Plain (· ∈ (Primitive.transfer word).effects) word.run := by
  cases word with
  | toReturn => exact .bind .pop fun c => .pushReturn c (by simp [Primitive.effects])
  | fromReturn => exact .bind (.popReturn (by simp [Primitive.effects])) fun c => .push c
  | copyReturn => exact .bind .topReturn fun c => .push c
  | showReturn =>
    change Plain _ (Exec.read (fun m => m.returns.listing m.radix) >>= write)
    exact .bind .listingReturn fun text => .write text

theorem Arithmetic.plain (word : Arithmetic) :
    Plain (· ∈ (Primitive.arithmetic word).effects) word.run := by
  cases word with
  | add | subtract | multiply | minimum | maximum => exact .binary _
  | absolute | negate => exact .unary _
  | quotient | remainder => exact .bind .popOperands fun _ => .push _
  | divide => exact .bind .popOperands fun _ => .bind (.push _) fun _ => .push _

theorem Logic.plain (word : Logic) : Plain (· ∈ (Primitive.logic word).effects) word.run := by
  cases word with
  | equal | different | less | greater | below | and | or | xor => exact .binary _
  | isZero | isNegative | isPositive | invert => exact .unary _

theorem Printing.plain (word : Printing) :
    Plain (· ∈ (Primitive.printing word).effects) word.run := by
  cases word with
  | number =>
    change Plain _ (pop >>= fun c => Exec.read (·.radix) >>= fun r => write (Numeral.signed r c ++ " "))
    exact .bind .pop fun c => .bind .radix fun r => .write _
  | unsigned =>
    change Plain _
      (pop >>= fun c => Exec.read (·.radix) >>= fun r => write (Numeral.unsigned r c ++ " "))
    exact .bind .pop fun c => .bind .radix fun r => .write _
  | aligned =>
    change Plain _ (pop >>= fun width => pop >>= fun c => Exec.read (·.radix) >>= fun r =>
      checkWidth width >>= fun n => write (Text.alignRight n (Numeral.signed r c)))
    exact .bind .pop fun width => .bind .pop fun c => .bind .radix fun r =>
      .bind (.checkWidth width) fun n => .write _
  | stack =>
    change Plain _ (Exec.read (fun m => m.data.listing m.radix) >>= write)
    exact .bind (.listing (by simp [Primitive.effects])) fun text => .write text
  | character =>
    refine .bind .pop fun code => ?_
    split
    · exact .write _
    · exact .raise _ nofun
  | newline => exact .write _
  | spaces => exact .bind .pop fun count => .bind (.checkWidth count) fun n => .write _

/-- A primitive that reads no token is put together from plain operations with its effects. -/
theorem Primitive.plain {p : Primitive} (h : p.readsTokens = false) (runner : Runner)
    (steps : Nat) : Plain (· ∈ p.effects) (p.run runner steps) := by
  cases p with
  | shuffle word => exact word.plain
  | transfer word => exact word.plain
  | arithmetic word => exact word.plain
  | logic word => exact word.plain
  | printing word => exact word.plain
  | storage word =>
    cases word with
    | declare | constant => cases h
    | store =>
      exact .bind .pop fun address => .bind .pop fun value => .store _ _ (by simp [effects])
    | fetch => exact .bind .pop fun address => .bind (.fetch address) fun value => .push value
  | listing word =>
    cases word with
    | forget | see => cases h
    | words =>
      change Plain _ (Exec.read (·.dictionary.render) >>= write)
      exact .bind .words fun text => .write text
  | control word =>
    cases word with
    | radix r => exact .setRadix r (by simp [effects])
    | clear =>
      exact .bind (.clear (by simp [effects])) fun _ => .clearReturn (by simp [effects])
    | abort => cases h
    | quit => exact .raise _ nofun
  | flow word =>
    cases word with
    | conditional | counted | repeated => cases h
    | leave => exact .raise _ nofun
  | literal value => exact .push value
  | inert => exact .pure _
  | report => cases h

end TokenForth

import TokenForth.Proofs.Effects
import TokenForth.Proofs.Reading
import TokenForth.Proofs.Walk

/-!
# The bookkeeping of a run

Running a token list pushes on four stacks: the streams, the calls, the loop frames and, counted
only, the defined words. Each of them is back in place afterwards, however the run ends. Along the
way the configuration stays, the radix stays usable, and the dictionary only loses bindings or gains
constants.
-/
namespace TokenForth

open Exec Machine

def Word.IsConstant (w : Word) : Prop := ∃ value, w.action = .primitive (.literal value)

/-- The innermost stream may have moved forward; the others have not moved. -/
def Advanced : List TokenStream → List TokenStream → Prop
  | s :: outer, s' :: outer' => s'.rest <:+ s.rest ∧ outer' = outer
  | [], [] => True
  | _, _ => False

theorem Advanced.refl (streams : List TokenStream) : Advanced streams streams := by
  cases streams with
  | nil => trivial
  | cons s outer => exact ⟨List.suffix_refl _, rfl⟩

theorem Advanced.trans {a b c : List TokenStream} (hab : Advanced a b) (hbc : Advanced b c) :
    Advanced a c := by
  cases a <;> cases b <;> cases c <;> simp only [Advanced] at hab hbc ⊢
  exact ⟨hbc.1.trans hab.1, hbc.2.trans hab.2⟩

theorem Advanced.tail_eq {a b : List TokenStream} (h : Advanced a b) : b.tail = a.tail := by
  cases a <;> cases b <;> simp only [Advanced] at h
  · rfl
  · exact h.2

theorem Advanced.exists_cons {rest : List Token} {outer streams : List TokenStream}
    (h : Advanced (⟨rest⟩ :: outer) streams) :
    ∃ rest', streams = ⟨rest'⟩ :: outer ∧ rest' <:+ rest := by
  cases streams with
  | nil => exact h.elim
  | cons s outer' => exact ⟨s.rest, by rw [h.2], h.1⟩

namespace LoopFrames

def Same (frames frames' : List (List Cell)) : Prop := frames ≠ [] → frames' = frames

/-- The same loops are open, but the innermost one may have another index. -/
def Stepped (frames frames' : List (List Cell)) : Prop :=
  ∀ index frame outer, frames = (index :: frame) :: outer →
    ∃ index', frames' = (index' :: frame) :: outer

instance : IsPreorder (List (List Cell)) Same where
  refl _ _ := rfl
  trans a b c hab hbc ha := by
    have hb := hab ha
    rw [hbc (by rw [hb]; exact ha), hb]

instance : IsPreorder (List (List Cell)) Stepped where
  refl _ index _ _ h := ⟨index, h⟩
  trans a b c hab hbc index frame outer h := by
    obtain ⟨i, hb⟩ := hab index frame outer h
    exact hbc i frame outer hb

theorem Same.stepped {frames frames' : List (List Cell)} (h : Same frames frames') :
    Stepped frames frames' := by
  intro index frame outer hf
  have hne : frames ≠ [] := by rw [hf]; simp
  exact ⟨index, by rw [h hne, hf]⟩

end LoopFrames

open LoopFrames

/-- What stays of a machine while its tokens are run. -/
structure Machine.Keeps (F : List (List Cell) → List (List Cell) → Prop) (m m' : Machine) :
    Prop where
  config : m'.config = m.config
  depth : m'.depth = m.depth
  calls : m'.calls = m.calls
  radix : Numeral.isRadix m.radix → Numeral.isRadix m'.radix
  words : ∀ w ∈ m'.dictionary.words, w ∈ m.dictionary.words ∨ w.IsConstant
  streams : Advanced m.streams m'.streams
  frames : F m.frames m'.frames

namespace Machine

/-- The bookkeeping is kept, up to tokens taken from the innermost stream. -/
abbrev Later : Machine → Machine → Prop := Keeps Same

structure Restored (m m' : Machine) : Prop extends Keeps Same m m' where
  position : m'.streams = m.streams

section Keeps

variable {F : List (List Cell) → List (List Cell) → Prop} [IsPreorder (List (List Cell)) F]

instance : IsPreorder Machine (Keeps F) where
  refl _ := ⟨rfl, rfl, rfl, id, fun _ hw => .inl hw, .refl _, Std.Refl.refl _⟩
  trans _ _ _ hab hbc :=
    { config := hbc.config.trans hab.config
      depth := hbc.depth.trans hab.depth
      calls := hbc.calls.trans hab.calls
      radix := hbc.radix ∘ hab.radix
      words := fun w hw => (hbc.words w hw).elim (hab.words w) .inr
      streams := hab.streams.trans hbc.streams
      frames := IsTrans.trans _ _ _ hab.frames hbc.frames }

instance : IsPreorder Machine Restored where
  refl m := ⟨Std.Refl.refl m, rfl⟩
  trans _ _ _ hab hbc := ⟨IsTrans.trans _ _ _ hab.toKeeps hbc.toKeeps, hbc.position.trans hab.position⟩

theorem keeps_refl (m : Machine) : Keeps F m m := Std.Refl.refl m

theorem Keeps.stepped {m m' : Machine} (h : Keeps Same m m') : Keeps Stepped m m' :=
  ⟨h.config, h.depth, h.calls, h.radix, h.words, h.streams, h.frames.stepped⟩

/-- Stacks, stored cells and output are no bookkeeping. -/
theorem keeps_contents (m : Machine) (data returns : Stack) (memory : Variables)
    (output : String) :
    Keeps F m { m with data := data, returns := returns, memory := memory, output := output } :=
  ⟨rfl, rfl, rfl, id, fun _ hw => .inl hw, .refl _, Std.Refl.refl _⟩

theorem keeps_location (m : Machine) (location : Option Location) :
    Keeps F m { m with location := location } :=
  ⟨rfl, rfl, rfl, id, fun _ hw => .inl hw, .refl _, Std.Refl.refl _⟩

theorem push_keeps (c : Cell) : Always (Keeps F) (push c) :=
  fun m => keeps_contents m (m.data.push c) m.returns m.memory m.output

theorem write_keeps (text : String) : Always (Keeps F) (write text) :=
  fun m => keeps_contents m m.data m.returns m.memory (m.output ++ text)

theorem pop_keeps : Always (Keeps F) pop := by
  intro m
  unfold pop
  split
  · exact keeps_contents m _ m.returns m.memory m.output
  · exact keeps_refl m

theorem popFlag_keeps : Always (Keeps F) popFlag := .bind pop_keeps fun _ => always_pure _

theorem clearReturn_keeps : Always (Keeps F) clearReturn :=
  fun m => keeps_contents m m.data m.returns.clear m.memory m.output

theorem setRadix_keeps (radix : Nat) : Always (Keeps F) (setRadix radix) := by
  intro m
  unfold setRadix
  split
  · next h => exact ⟨rfl, rfl, rfl, fun _ => h, fun _ hw => .inl hw, .refl _, Std.Refl.refl _⟩
  · exact keeps_refl m

theorem plain_keeps {E : Effect → Prop} {α : Type} {act : Exec α} (h : Plain E act) :
    Always (Keeps F) act := by
  induction h with
  | pure a => exact always_pure a
  | raise cause => exact always_raise cause
  | bind _ _ ih ihnext => exact .bind ih ihnext
  | push c => exact push_keeps c
  | pop => exact pop_keeps
  | popMany n =>
    intro m
    unfold Machine.popMany
    split
    · exact keeps_contents m _ m.returns m.memory m.output
    · exact keeps_refl m
  | top =>
    intro m
    unfold Machine.top
    split <;> exact keeps_refl m
  | depth | listing | listingReturn | radix | words => exact always_read _
  | clear => exact fun m => keeps_contents m m.data.clear m.returns m.memory m.output
  | pushReturn c => exact fun m => keeps_contents m m.data (m.returns.push c) m.memory m.output
  | popReturn =>
    intro m
    unfold Machine.popReturn
    split
    · exact keeps_contents m m.data _ m.memory m.output
    · exact keeps_refl m
  | topReturn =>
    intro m
    unfold Machine.topReturn
    split <;> exact keeps_refl m
  | clearReturn => exact clearReturn_keeps
  | setRadix r => exact setRadix_keeps r
  | write text => exact write_keeps text
  | store address value =>
    exact fun m => keeps_contents m m.data m.returns (m.memory.store address value) m.output
  | fetch address =>
    intro m
    unfold Machine.fetch
    split <;> exact keeps_refl m

theorem keeps_withRest {m : Machine} {s : TokenStream} {outer : List TokenStream}
    (hm : m.streams = s :: outer) {rest : List Token} (h : rest <:+ s.rest) :
    Keeps F m (m.withRest rest) := by
  refine ⟨rfl, rfl, rfl, id, fun _ hw => .inl hw, ?_, Std.Refl.refl _⟩
  simp only [withRest, hm, List.tail_cons]
  exact ⟨h, rfl⟩

theorem nextToken?_keeps : Always (Keeps F) nextToken? := by
  intro m
  rcases hm : m.streams with _ | ⟨⟨_ | ⟨t, rest⟩⟩, outer⟩
  · rw [nextToken?_nil hm]; exact keeps_refl m
  · rw [nextToken?_done hm]; exact keeps_refl m
  · rw [nextToken?_cons hm]; exact keeps_withRest hm (List.suffix_cons t rest)

theorem nextName_keeps : Always (Keeps F) nextName := by
  have hnext : Always (Keeps F) nextToken := by
    refine .bind nextToken?_keeps fun t => ?_
    cases t with
    | none => exact always_raise _
    | some t => exact always_pure t
  refine .bind hnext fun t => ?_
  split
  · exact always_pure _
  · exact always_raise _

theorem nextMessage_keeps : Always (Keeps F) nextMessage := by
  intro m
  rcases hm : m.streams with _ | ⟨s, outer⟩
  · rw [nextMessage_nil hm]; exact keeps_refl m
  · by_cases hs : ∃ text location rest, s.rest = ⟨.quote text, location⟩ :: rest
    · obtain ⟨text, location, rest, hs⟩ := hs
      obtain rfl : s = ⟨⟨.quote text, location⟩ :: rest⟩ := by rw [← hs]
      rw [nextMessage_quote hm]
      exact keeps_withRest hm (List.suffix_cons _ _)
    · rw [nextMessage_other hm fun text location rest h => hs ⟨text, location, rest, h⟩]
      exact keeps_refl m

theorem takeBlock_keeps (v : Vocabulary) : Always (Keeps F) (Flow.takeBlock v) := by
  intro m
  rcases hm : m.streams with _ | ⟨s, outer⟩
  · rw [takeBlock_nil v hm]; exact keeps_refl m
  · cases hs : v.scan s.rest with
    | none =>
      rw [takeBlock_none hm hs]
      exact keeps_withRest hm (List.nil_suffix)
    | some found =>
      obtain ⟨block, rest⟩ := found
      rw [takeBlock_some hm hs]
      refine keeps_withRest hm ?_
      rw [(v.scanFrom_eq_some hs).1]
      exact List.suffix_append _ _

theorem addWord_keeps {w : Word} (hw : w.IsConstant) : Always (Keeps F) (addWord w) := by
  refine always_update fun m => ?_
  refine ⟨rfl, rfl, rfl, id, fun v hv => ?_, .refl _, Std.Refl.refl _⟩
  rcases List.mem_cons.mp hv with rfl | hv
  · exact .inr hw
  · exact .inl hv

theorem forgetWord_keeps (name : String) : Always (Keeps F) (forgetWord name) := by
  intro m
  simp only [forgetWord, Dictionary.forget?]
  cases m.dictionary.get? name with
  | none => exact keeps_refl m
  | some w =>
    refine ⟨rfl, rfl, rfl, id, fun w hw => .inl ?_, .refl _, Std.Refl.refl _⟩
    exact List.dropWhile_subset _ (List.drop_subset 1 _ hw)

/-- A primitive that runs no token list keeps the bookkeeping. -/
theorem primitive_keeps {p : Primitive} (hp : ∀ word, p ≠ .flow word) (runner : Runner)
    (steps : Nat) : Always (Keeps F) (p.run runner steps) := by
  by_cases hread : p.readsTokens = false
  · exact plain_keeps (p.plain hread runner steps)
  · cases p with
    | flow word => exact absurd rfl (hp word)
    | storage word =>
      cases word with
      | declare =>
        refine .bind nextName_keeps fun (name, _) => .bind ?_ fun _ => always_pure _
        exact fun m => keeps_contents m m.data m.returns (m.memory.allocate name).2 m.output
      | constant =>
        exact .bind nextName_keeps fun (name, location) => .bind pop_keeps fun value =>
          addWord_keeps ⟨value, rfl⟩
      | store | fetch => exact absurd rfl hread
    | listing word =>
      cases word with
      | forget => exact .bind nextName_keeps fun (name, _) => forgetWord_keeps name
      | see =>
        refine .bind nextName_keeps fun (name, _) => .bind (fun m => ?_) fun w => write_keeps _
        unfold findWord
        split <;> exact keeps_refl m
      | words => exact absurd rfl hread
    | control word =>
      cases word with
      | abort =>
        refine .bind popFlag_keeps fun flag => .bind nextMessage_keeps fun message => ?_
        split
        · exact always_raise _
        · exact always_pure _
      | _ => exact absurd rfl hread
    | report =>
      refine .bind (fun m => ?_) fun s => .bind always_state fun m => write_keeps _
      unfold stream
      split <;> exact keeps_refl m
    | _ => exact absurd rfl hread

end Keeps

theorem loopEntered_eq (index : Cell) (m : Machine) :
    loopEntered index m = { m with frames := (index :: m.indices) :: m.frames.tail } := by
  unfold loopEntered indices
  cases m.frames <;> rfl

theorem loopUpdated_eq (index : Cell) (m : Machine) :
    loopUpdated index m = { m with frames := m.frames.modifyHead (·.set 0 index) } := by
  obtain ⟨config, data, returns, radix, dictionary, memory, location, calls, streams, frames⟩ := m
  rcases frames with _ | ⟨_ | ⟨i, frame⟩, outer⟩ <;> rfl

theorem loopExited_eq (m : Machine) :
    loopExited m = { m with frames := m.frames.modifyHead List.tail } := by
  obtain ⟨config, data, returns, radix, dictionary, memory, location, calls, streams, frames⟩ := m
  cases frames <;> rfl

theorem updateLoop_keeps (index : Cell) : Always (Keeps Stepped) (updateLoop index) := by
  refine always_update fun m => ?_
  rw [loopUpdated_eq]
  refine ⟨rfl, rfl, rfl, id, fun _ hw => .inl hw, .refl _, fun i frame outer hm => ⟨index, ?_⟩⟩
  simp [hm]

/-- Leaving the loop that was entered gives the frames back. -/
theorem later_of_loop {start : Cell} {m m' : Machine} (h : Keeps Stepped (loopEntered start m) m') :
    Later m (loopExited m') := by
  rw [loopEntered_eq] at h
  rw [loopExited_eq]
  refine ⟨h.config, h.depth, h.calls, h.radix, h.words, h.streams, fun hm => ?_⟩
  obtain ⟨frame, outer, hm⟩ := List.exists_cons_of_ne_nil hm
  obtain ⟨index, hm'⟩ := h.frames start frame outer (by simp [indices, hm])
  simp [hm, hm']

theorem runWord_apply (runner : Runner) (steps : Nat) (location : Location) (w : Word)
    (m : Machine) : runWord runner steps location w m =
      (runAction runner steps w).after callExited (callEntered ⟨w.name, location⟩ m) := rfl

theorem enclosed_apply (runner : Runner) (body : List Token) (m : Machine) :
    enclosed runner body m = (runner body).after wordExited (wordEntered m) := rfl

theorem runBody_deep {runner : Runner} {name : String} {body : List Token} {m : Machine}
    (h : m.config.callLimit ≤ m.depth) :
    runBody runner name body m = .failed (m.fault (.tooDeep m.config.callLimit name)) m := by
  change (ite (m.config.callLimit ≤ m.depth) _ _ : Exec Unit) m = _
  rw [if_pos h]
  rfl

theorem runBody_shallow {runner : Runner} {name : String} {body : List Token} {m : Machine}
    (h : m.depth < m.config.callLimit) :
    runBody runner name body m =
      (enclosed runner body >>= fun _ => checkReturns name m.returns.depth) m := by
  change (ite (m.config.callLimit ≤ m.depth) _ _ : Exec Unit) m = _
  rw [if_neg (Nat.not_le.mpr h)]
  rfl

theorem runStreamVia_cons {m : Machine} {t : Token} {rest : List Token} {outer : List TokenStream}
    (h : m.streams = ⟨t :: rest⟩ :: outer) (invoke : Invocation → Exec Unit) (k : Nat) :
    runStreamVia invoke (k + 1) m =
      runToken invoke k (runStreamVia invoke k) t (located t.location (m.withRest rest)) := by
  simp only [runStreamVia, Bind.bind, Setting.act, nextToken?_cons h]
  rfl

theorem runStreamVia_done {m : Machine} {outer : List TokenStream} (h : m.streams = ⟨[]⟩ :: outer)
    (invoke : Invocation → Exec Unit) (k : Nat) : runStreamVia invoke (k + 1) m = .done () m := by
  simp only [runStreamVia, Bind.bind, Setting.act, nextToken?_done h]
  rfl

def alwaysPairing (R : Machine → Machine → Prop) [IsPreorder Machine R] : Pairing Exec Exec where
  rel x _ := Always R x
  patient := True
  patience _ _ := always_unfinished
  unfinished := always_unfinished
  pure := always_pure
  bind := .bind

/-- Within a counted loop the index moves, and the loop takes it away. -/
def laterBlocks : BlockWalk Exec Exec where
  toPairing := alwaysPairing Later
  pass x _ := Always (Keeps Stepped) x
  token := Eq
  tokens := Eq
  lexeme := congrArg Token.lexeme
  substituted := substitute_of_eq
  raise _ _ := always_raise _
  pop := pop_keeps
  popFlag := popFlag_keeps
  takeBlock v _ _ h := .bind (takeBlock_keeps v) fun b => h b b (.refl b)
  catchLeave := .catchLeave
  passed h := h.imp fun _ _ hm => hm.stepped
  passing h hnext := .bind (h.imp fun _ _ hm => hm.stepped) hnext
  updated index _ _ h := .bind (updateLoop_keeps index) fun _ => .bind always_state fun _ => h _
  looped _ _ _ h := (h.bracket fun _ _ hm => later_of_loop hm).catchLeave

def laterStreams : StreamWalk Exec Exec where
  toPairing := alwaysPairing Later
  token := Eq
  lexeme := congrArg Token.lexeme
  next hnone hsome := .bind nextToken?_keeps <| by
    rintro (_ | t)
    · exact hnone
    · exact hsome t t rfl
  located _ _ _ h := .bind (always_update fun m => keeps_location m _) fun _ => h
  stray _ _ := .bind (always_update fun m => keeps_location m _) fun _ => always_raise _
  push := push_keeps
  write := write_keeps

section Runner

variable {runner : Runner} (hr : ∀ tokens, Always Restored (runner tokens))

include hr

theorem runner_later {ts us : List Token} (_ : ts = us) : Always Later (runner ts) :=
  (hr ts).imp fun _ _ h => h.toKeeps

/-- The passes of a counted loop move its index. -/
theorem runPasses_keeps (body : List Token) (limit : Cell) (stepped : Bool) (steps : Nat)
    (index : Cell) : Always (Keeps Stepped) (Flow.runPasses runner body limit stepped steps index) := by
  have hrun : laterBlocks.pass (Flow.runPasses runner body limit stepped steps index)
      (Flow.runPasses runner body limit stepped steps index) :=
    laterBlocks.runPasses (runner_later hr) rfl limit stepped (.refl steps) index
  exact hrun

theorem primitive_later (p : Primitive) (steps : Nat) : Always Later (p.run runner steps) := by
  cases p with
  | flow word =>
    by_cases hword : word = .leave
    · rw [hword]
      exact always_raise _
    · have hrun : laterBlocks.rel (word.run runner steps) (word.run runner steps) :=
        laterBlocks.run (runner_later hr) (.refl steps) hword
      exact hrun
  | _ => exact primitive_keeps (fun _ h => by cases h) runner steps

theorem enclosed_restored (body : List Token) : Always Restored (enclosed runner body) := by
  apply (hr body).bracket
  intro m m' h
  have hdepth : m'.depth - 1 = m.depth := by rw [h.depth]; rfl
  have hframes : m'.frames.tail = m.frames := by
    rw [h.frames (by simp [wordEntered])]
    rfl
  exact ⟨⟨h.config, hdepth, h.calls, h.radix, h.words, h.streams, fun _ => hframes⟩, h.position⟩

/-- A defined word leaves the streams of its caller alone. -/
theorem runBody_restored (name : String) (body : List Token) :
    Always Restored (runBody runner name body) := by
  have hcheck (before : Nat) : Always Restored (checkReturns name before) := by
    have hclear : Always Restored clearReturn := fun m => ⟨clearReturn_keeps m, rfl⟩
    refine .bind always_state fun m' => ?_
    split
    · exact always_pure _
    · exact .bind hclear fun _ => always_raise _
  intro m
  rcases Nat.lt_or_ge m.depth m.config.callLimit with h | h
  · rw [runBody_shallow h]
    exact (enclosed_restored hr body).bind (fun _ => hcheck m.returns.depth) m
  · rw [runBody_deep h]
    exact always_raise _ m

theorem runWord_later (steps : Nat) (location : Location) (w : Word) :
    Always Later (runWord runner steps location w) := by
  have haction : Always Later (runAction runner steps w) := by
    unfold runAction
    split
    · exact primitive_later hr _ steps
    · exact (runBody_restored hr _ _).imp fun _ _ h => h.toKeeps
  apply haction.bracket
  intro m m' h
  have hcalls : m'.calls.tail = m.calls := by rw [h.calls]; rfl
  exact ⟨h.config, h.depth, hcalls, h.radix, h.words, h.streams, h.frames⟩

theorem runWord_restored (steps : Nat) (location : Location) {w : Word} {tokens : List Token}
    (hw : w.action = .body tokens) : Always Restored (runWord runner steps location w) := by
  have haction : Always Restored (runAction runner steps w) := by
    rw [runAction, hw]
    exact runBody_restored hr w.name tokens
  apply haction.bracket
  intro m m' h
  have hcalls : m'.calls.tail = m.calls := by rw [h.calls]; rfl
  exact ⟨⟨h.config, h.depth, hcalls, h.radix, h.words, h.streams, h.frames⟩, h.position⟩

end Runner

/-- A token list puts back what it has opened, if the words in it do. -/
theorem runListVia_restored {invoke : Invocation → Exec Unit} (hinvoke : ∀ i, Always Later (invoke i))
    (steps : Nat) (tokens : List Token) : Always Restored (runListVia invoke steps tokens) := by
  have hrun : laterStreams.rel (runStreamVia invoke steps) (runStreamVia invoke steps) := by
    refine laterStreams.run ?_ (.refl steps)
    intro n k t u name rest rest' _ ht _ hrest
    subst ht
    exact laterStreams.meaning name hrest always_state fun w => hinvoke ⟨n, t.location, w⟩
  have hbracket : Always Restored (update (streamEntered tokens) >>= fun _ =>
      (runStreamVia invoke steps).after streamExited) := by
    apply Always.bracket hrun
    intro m m' h
    have hposition : m'.streams.tail = m.streams := h.streams.tail_eq
    refine ⟨⟨h.config, h.depth, h.calls, h.radix, h.words, ?_, h.frames⟩, hposition⟩
    simp only [streamExited, hposition]
    exact .refl _
  apply hbracket.onFault
  intro m m' h
  exact ⟨⟨h.config, h.depth, h.calls, h.radix, h.words, h.streams, h.frames⟩, h.position⟩

/-- A token list puts everything back, if the hook keeps the bookkeeping. -/
theorem runTokensVia_restored {hook : Runner → Invocation → Exec Unit}
    (hhook : ∀ {runner}, (∀ tokens, Always Restored (runner tokens)) → ∀ i, Always Later (hook runner i))
    (steps : Nat) (tokens : List Token) : Always Restored (runTokensVia hook steps tokens) := by
  induction steps generalizing tokens with
  | zero => exact always_unfinished
  | succ steps ih => exact runListVia_restored (hhook ih) steps tokens

theorem runTokens_restored (steps : Nat) (tokens : List Token) :
    Always Restored (runTokens steps tokens) :=
  runTokensVia_restored (fun hr i => runWord_later hr i.steps i.location i.word) steps tokens

/-- Runs a token list like the engine, with a watch before every word it invokes. -/
def runWatched (watch : Exec Unit) : Nat → Runner :=
  runTokensVia fun runner i => do
    watch
    i.run runner

theorem runWatched_pure : runWatched (pure ()) = runTokens := rfl

theorem runWatched_restored {watch : Exec Unit} (hwatch : Always Later watch) (steps : Nat)
    (tokens : List Token) : Always Restored (runWatched watch steps tokens) :=
  runTokensVia_restored
    (fun hr i => .bind hwatch fun _ => runWord_later hr i.steps i.location i.word) steps tokens

end Machine

end TokenForth
